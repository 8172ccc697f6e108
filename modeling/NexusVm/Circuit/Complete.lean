import NexusVm.Circuit.Alu
import NexusVm.Circuit.Lines
import NexusVm.TraceShape

/-!
# Completeness of the step circuit

The witness that the replay rebuilds of a recorded step, against the rows of its
circuit.  What the builder computes fits all rows but two kinds: those of the
register operands, which the replay leaves out for `fence`, and that of `PC`, as
the machine does not jump to `0`.

The main result is an equivalence for every instruction and both memories; its condition is on the
machine before the step.  It speaks about the one assignment that the
builder computes; other assignments that satisfy the rows are the subject of the soundness modules.
-/

namespace NexusVm

section Rebuilt

variable {P : Type}

/-- A witness whose fields are those of the replay. -/
structure Witness.Decoded (w : Witness P) (i : RV32) : Prop where
  parse : parseU32 w.inst = some i
  J : w.J = i.indexJ
  fields : (⟨w.rd, w.rs1, w.rs2, w.I, w.shamt⟩ : Fields) = parseAlt w.regs w.inst
  X : w.X = w.regs.x (regIdx w.rs1)
  Y : w.Y = w.regs.x (regIdx w.rs2)

variable {i : RV32}

theorem rebuilt_decoded {regs : Regs} {s : Step P} {pc : U32} (hparse : parseU32 s.inst = some i) :
    (s.rebuilt regs i pc).Decoded i :=
  ⟨hparse, rfl, rfl, rfl, rfl⟩

variable {w : Witness P}

/-- The values of a decoded witness are those of the operands of its instruction. -/
theorem Witness.Decoded.operands (hd : w.Decoded i) :
    w.I = (i.fields w.regs w.inst).I ∧
      w.X = w.regs.x (regIdx (i.fields w.regs w.inst).rs1) ∧
      w.Y = w.regs.x (regIdx (i.fields w.regs w.inst).rs2) ∧
      w.shamt = (i.fields w.regs w.inst).shamt := by
  have hf := hd.fields.trans ((parses_of_parseU32 hd.parse).parseAlt_eq w.regs)
  refine ⟨congrArg Fields.I hf, hd.X.trans ?_, hd.Y.trans ?_, congrArg Fields.shamt hf⟩
  · exact congrArg (fun f : Fields => w.regs.x (regIdx f.rs1)) hf
  · exact congrArg (fun f : Fields => w.regs.x (regIdx f.rs2)) hf

/-- Where the instruction of a witness jumps to, if it does. -/
def Witness.target (w : Witness P) : RV32 → Option U32
  | .jal .. => some (w.regs.pc + w.I)
  | .jalr .. => some (w.X + w.I)
  | .br bop .. => if brOp bop w.X w.Y then some (w.regs.pc + w.I) else none
  | .unimp => some w.regs.pc
  | _ => none

/-- The jump of the witness is that of the machine. -/
theorem Witness.Decoded.target_eq {M : Type} [Memory M P] {vm : NexusVM M P} (hd : w.Decoded i)
    (hregs : w.regs = vm.regs) :
    w.target i = vm.machine.target i := by
  obtain ⟨hI, hX, hY, -⟩ := hd.operands
  rw [hregs] at hI hX hY
  cases i with
  | jal rd imm =>
      show some (w.regs.pc + w.I) = _
      rw [hI, hregs]
      rfl
  | jalr rd rs1 imm =>
      show some (w.X + w.I) = _
      rw [hI, hX]
      rfl
  | br bop rs1 rs2 imm =>
      show (if brOp bop w.X w.Y then some (w.regs.pc + w.I) else none) = _
      rw [hI, hX, hY, hregs, brOp_eq]
      rfl
  | unimp =>
      show some w.regs.pc = _
      rw [hregs]
      rfl
  | _ => rfl

variable {p : ℕ} [MemoryProof P p]

/-- **The witness holds the result** of its instruction, and the lines it opened. -/
def Witness.HoldsResult (w : Witness P) : RV32 → Prop
  | .lui .. => w.Z = w.I
  | .auipc .. => w.Z = w.regs.pc + w.I
  | .jal .. | .jalr .. => w.Z = w.regs.pc + 4
  | .load lop .. => ∃ cl : CacheLine, MemoryProof.data w.readProof = cl.scalars p ∧
      cl.load lop (w.X + w.I) = .ok w.Z
  | .store sop .. => w.Z = 0 ∧ ∃ cl cl' : CacheLine, MemoryProof.data w.writeProof = cl'.scalars p ∧
      cl.store sop (w.X + w.I) w.Y = (.ok (), cl')
  | .alui aop .. => w.Z = aluOp aop w.X w.I ∧ w.shamt = w.I &&& 0x1f
  | .alu aop .. => w.Z = aluOp aop w.X w.Y ∧ w.shamt = w.Y &&& 0x1f
  | .ecall _ => True
  | .br .. | .fence | .ebreak _ | .unimp => w.Z = 0

/-- What a step leaves is what its witness holds. -/
theorem Witness.Decoded.holdsResult (hd : w.Decoded i) {read write : Option P}
    (hread : ∀ q ∈ read, w.readProof = q) (hwrite : ∀ q ∈ write, w.writeProof = q)
    (h : Leaves w.regs w.Z read write i) :
    w.HoldsResult i := by
  obtain ⟨hI, hX, hY, hshamt⟩ := hd.operands
  cases i with
  | lui rd imm => exact h.trans hI.symm
  | auipc rd imm => exact Eq.trans h (congrArg (w.regs.pc + ·) hI.symm)
  | load lop rd rs1 imm =>
      obtain ⟨cl, q, hq, hdata, hrun⟩ := h
      refine ⟨cl, ?_, ?_⟩
      · rw [hread q hq]
        exact hdata
      · rw [hI, hX]
        exact hrun
  | store sop rs1 rs2 imm =>
      obtain ⟨hZ, cl, cl', q, hq, hdata, hrun⟩ := h
      refine ⟨hZ, cl, cl', ?_, ?_⟩
      · rw [hwrite q hq]
        exact hdata
      · rw [hI, hX, hY]
        exact hrun
  | alui aop rd rs1 imm =>
      constructor
      · rw [hI, hX]
        exact h
      · rw [hshamt, hI]
        rfl
  | alu aop rd rs1 rs2 =>
      constructor
      · rw [hX, hY]
        exact h
      · rw [hshamt, hY]
        rfl
  | _ => exact h

end Rebuilt

namespace Circuit

open NexusVm.Builder

section Honest

variable {p : ℕ} [Fact p.Prime] {P : Type} [MemoryProof P p] {w : Witness P} {i : RV32}

/-- What the builder computes where no row asks for it. -/
def honest (w : Witness P) : Forge where
  x0 := w.regs.x 0
  ltXY := w.X.ult w.Y
  eqXY := w.X == w.Y
  ltXI := w.X.ult w.I
  eqXI := w.X == w.I
  unit width := ((w.X + w.I) &&& 0xf).toNat / (width / 8)

theorem honest_unit {n : ℕ} : (honest w).unit (8 * n) = (w.X + w.I).toNat % 16 / n := by
  have hmask : (0xf : U32).toNat = 2 ^ 4 - 1 := by decide
  show ((w.X + w.I) &&& 0xf).toNat / (8 * n / 8) = _
  rw [BitVec.toNat_and, hmask, Nat.and_two_pow_sub_one_eq_mod,
    Nat.mul_div_cancel_left n (by decide)]

section Fields

variable {regs : Regs} {word : U32}

theorem parseAlt_rd (h : (opcode word).toNat ∈ opcodes) : (parseAlt regs word).rd =
    if (opcode word).toNat ∈ [opcBr, opcStore, opcFence] then 0 else NexusVm.rd word := by
  rcases opcodes_cases h with h | h | h | h | h | h | h | h | h | h | h <;>
    simp [parseAlt, h, opcBr, opcStore, opcFence]

theorem parseAlt_rs1 (h : (opcode word).toNat ∈ opcodes) : (parseAlt regs word).rs1 =
    if (opcode word).toNat ∈ [opcLui, opcAuipc, opcJal, opcEcall, opcFence] then 0
    else NexusVm.rs1 word := by
  rcases opcodes_cases h with h | h | h | h | h | h | h | h | h | h | h <;>
    simp [parseAlt, h, opcLui, opcAuipc, opcJal, opcEcall, opcFence]

theorem parseAlt_rs2 (h : (opcode word).toNat ∈ opcodes) : (parseAlt regs word).rs2 =
    if (opcode word).toNat ∈ [opcBr, opcStore, opcAlu] then NexusVm.rs2 word else 0 := by
  rcases opcodes_cases h with h | h | h | h | h | h | h | h | h | h | h <;>
    simp [parseAlt, h, opcBr, opcStore, opcAlu]

theorem parseAlt_shamt (h : (opcode word).toNat ∈ opcodes) : (parseAlt regs word).shamt =
    if (opcode word).toNat = 19 then immA word &&& 0x1f
    else if (opcode word).toNat = 51 then regs.x (regIdx (NexusVm.rs2 word)) &&& 0x1f else 0 := by
  rcases opcodes_cases h with h | h | h | h | h | h | h | h | h | h | h <;> simp [parseAlt, h]

theorem parseAlt_imm {ty : Ty} (h : (opcode word).toNat ∈ opcodes)
    (hty : typeOf (opcode word).toNat = some ty) : (parseAlt regs word).I = immOf word ty := by
  rcases opcodes_cases h with h | h | h | h | h | h | h | h | h | h | h <;>
    (rw [h] at hty; cases hty; simp [parseAlt, h, immOf])

/-- The low bits of the immediate of a register-immediate operation. -/
theorem immA_and (word : U32) : (immA word &&& 0x1f).toNat = (NexusVm.shamt word).toNat := by
  have hlow : (immI word).toNat % 32 = word.toNat / 2 ^ 20 % 2 ^ 5 := by
    rw [immI_toNat, signPart]
    split_ifs <;> omega
  rw [shamt_and, immA_eq]
  split_ifs
  · rw [shamt_toNat]
    omega
  · rw [hlow, shamt_toNat]

end Fields

/-! ## The rows that hold in any case -/

theorem flag_ofBool (b : Bool) : ((((BitVec.ofBool b).setWidth 32 : U32).toNat : ℕ) : ZMod p) =
    flag b := by
  cases b <;> simp

/-- The result of an operation, as the circuit computes it. -/
theorem aluOp_cast (x y : U32) :
    ((aluOp .sub x y).toNat : ZMod p) = diff x y (x.ult y) ∧
      ((aluOp .slt x y).toNat : ZMod p) = flag (signedFlag x y (x.ult y)) ∧
      ((aluOp .sltu x y).toNat : ZMod p) = flag (x.ult y) := by
  refine ⟨(diff_ult x y).symm, ?_, flag_ofBool _⟩
  rw [signedFlag, ← slt_eq_flags]
  exact flag_ofBool _

/-- Shifts by the amount of the witness. -/
theorem aluOp_shift {x y s : U32} (hs : s = y &&& 0x1f) :
    aluOp .sll x y = x <<< s.toNat ∧ aluOp .srl x y = x >>> s.toNat ∧
      aluOp .sra x y = x.sshiftRight s.toNat := by
  rw [hs]
  exact ⟨rfl, rfl, rfl⟩

/-- **The result is the one that the circuit selects.** -/
theorem zVal_of_holdsResult (hp : 2 ^ 128 < p) (hJ : w.J = i.indexJ) (h20 : w.J ≠ 20)
    (h : w.HoldsResult i) : (w.Z.toNat : ZMod p) = zVal w (honest w) w.J := by
  have hcast : ∀ {n : ℕ}, n < 2 ^ 32 → (((BitVec.ofNat 32 n).toNat : ℕ) : ZMod p) = n := by
    intro n hn
    rw [BitVec.toNat_ofNat, Nat.mod_eq_of_lt hn]
  have hlt : ∀ {width : ℕ}, width ≤ 32 → chosen w (honest w) w.readProof width < 2 ^ 32 :=
    fun hw => lt_of_lt_of_le (chosen_lt _ _) (Nat.pow_le_pow_right (by omega) hw)
  rw [hJ] at h20 ⊢
  cases i with
  | lui rd imm => rw [show w.Z = w.I from h]; rfl
  | auipc rd imm => rw [show w.Z = _ from h]; rfl
  | jal rd imm => rw [show w.Z = _ from h]; rfl
  | jalr rd rs1 imm => rw [show w.Z = _ from h]; rfl
  | br bop rs1 rs2 imm =>
      rw [show w.Z = 0 from h]
      cases bop <;> exact Nat.cast_zero
  | load lop rd rs1 imm =>
      obtain ⟨cl, hdata, hrun⟩ := h
      rw [load_chosen hp hdata hrun honest_unit]
      cases lop with
      | lb =>
          have hext : loadExtend .lb (chosen w (honest w) w.readProof 8) = _ :=
            (signExtend_unit (by omega) (chosen_lt _ _)).symm
          rw [show 8 * LOP.lb.width = 8 from rfl, hext]
          exact hcast (signExtend_lt (by omega))
      | lh =>
          have hext : loadExtend .lh (chosen w (honest w) w.readProof 16) = _ :=
            (signExtend_unit (by omega) (chosen_lt _ _)).symm
          rw [show 8 * LOP.lh.width = 16 from rfl, hext]
          exact hcast (signExtend_lt (by omega))
      | lw => exact hcast (hlt (by decide))
      | lbu => exact hcast (hlt (by decide))
      | lhu => exact hcast (hlt (by decide))
  | store sop rs1 rs2 imm =>
      rw [h.1]
      cases sop <;> exact Nat.cast_zero
  | alui aop rd rs1 imm =>
      obtain ⟨hZ, hs⟩ := h
      rw [hZ]
      cases aop with
      | sub => exact absurd rfl h20
      | slt => exact (aluOp_cast w.X w.I).2.1
      | sltu => exact (aluOp_cast w.X w.I).2.2
      | sll =>
          rw [(aluOp_shift hs).1]
          rfl
      | srl =>
          rw [(aluOp_shift hs).2.1]
          rfl
      | sra =>
          rw [(aluOp_shift hs).2.2]
          rfl
      | _ => rfl
  | alu aop rd rs1 rs2 =>
      obtain ⟨hZ, hs⟩ := h
      rw [hZ]
      cases aop with
      | sub => exact (aluOp_cast w.X w.Y).1
      | slt => exact (aluOp_cast w.X w.Y).2.1
      | sltu => exact (aluOp_cast w.X w.Y).2.2
      | sll =>
          rw [(aluOp_shift hs).1]
          rfl
      | srl =>
          rw [(aluOp_shift hs).2.1]
          rfl
      | sra =>
          rw [(aluOp_shift hs).2.2]
          rfl
      | _ => rfl
  | ecall rd => rfl
  | _ => rw [show w.Z = 0 from h]; exact Nat.cast_zero

/-- The indices of stores. -/
theorem store_of_indexJ (h16 : 16 ≤ i.indexJ) (h18 : i.indexJ ≤ 18) :
    ∃ sop rs1 rs2 imm, i = .store sop rs1 rs2 imm := by
  cases i with
  | store sop rs1 rs2 imm => exact ⟨sop, rs1, rs2, imm, rfl⟩
  | br bop => cases bop <;> simp [RV32.indexJ] at h16
  | load lop => cases lop <;> simp [RV32.indexJ] at h16
  | alui aop => cases aop <;> simp [RV32.indexJ] at h18
  | alu aop => cases aop <;> simp [RV32.indexJ] at h18
  | _ => simp [RV32.indexJ] at h16 h18

/-- The unit that a store leaves. -/
theorem stored_unit (hp : 2 ^ 128 < p) (sop : SOP) (hJ : w.J = i.indexJ) (h : w.HoldsResult i)
    (hsop : w.J = (RV32.store sop 0 0 0).indexJ) :
    w.Y.toNat % 256 ^ sop.width = chosen w (honest w) w.writeProof (8 * sop.width) := by
  have hindex : i.indexJ = (RV32.store sop 0 0 0).indexJ := hJ.symm.trans hsop
  obtain ⟨sop', rs1, rs2, imm, rfl⟩ : ∃ sop' rs1 rs2 imm, i = .store sop' rs1 rs2 imm := by
    refine store_of_indexJ ?_ ?_ <;> rw [hindex] <;> cases sop <;> decide
  obtain rfl : sop' = sop := by
    cases sop' <;> cases sop <;> first | rfl | simp [RV32.indexJ] at hindex
  obtain ⟨-, cl, cl', hdata, hrun⟩ := h
  exact (chosen_store hp hdata hrun honest_unit).symm

theorem opcode_mem (hd : w.Decoded i) : opcOf w ∈ opcodes :=
  opcode_mem_of_parse hd.parse

theorem index_ne (hd : w.Decoded i) : w.J ≠ 20 := by
  have hindex := parseU32_indexJ w.inst
  rw [hd.parse, Option.map_some, ← hd.J] at hindex
  exact indexOfKey_ne hindex.symm

theorem decoded_rd (hd : w.Decoded i) :
    w.rd = if opcOf w ∈ [opcBr, opcStore, opcFence] then 0 else NexusVm.rd w.inst :=
  (congrArg Fields.rd hd.fields).trans (parseAlt_rd (opcode_mem hd))

theorem decoded_rs1 (hd : w.Decoded i) : w.rs1 =
    if opcOf w ∈ [opcLui, opcAuipc, opcJal, opcEcall, opcFence] then 0 else NexusVm.rs1 w.inst :=
  (congrArg Fields.rs1 hd.fields).trans (parseAlt_rs1 (opcode_mem hd))

theorem decoded_rs2 (hd : w.Decoded i) :
    w.rs2 = if opcOf w ∈ [opcBr, opcStore, opcAlu] then NexusVm.rs2 w.inst else 0 :=
  (congrArg Fields.rs2 hd.fields).trans (parseAlt_rs2 (opcode_mem hd))

/-- The fields of the replay are small. -/
theorem decoded_lt (hd : w.Decoded i) :
    w.rd.toNat < 32 ∧ w.rs1.toNat < 32 ∧ w.rs2.toNat < 32 ∧ w.shamt.toNat < 32 := by
  obtain ⟨-, -, -, hlt, hlt1, hlt2, -⟩ := field_lt w.inst
  have hshamt : w.shamt = _ :=
    (congrArg Fields.shamt hd.fields).trans (parseAlt_shamt (opcode_mem hd))
  have hsmall : ∀ {c : Prop} [Decidable c] {v : U32}, v.toNat < 32 →
      (if c then v else 0).toNat < 32 ∧ (if c then 0 else v).toNat < 32 := by
    intro c _ v hv
    split_ifs
    · exact ⟨hv, by decide⟩
    · exact ⟨by decide, hv⟩
  have hmask : ∀ v : U32, (v &&& 0x1f).toNat < 32 := fun v => by
    rw [shamt_and]
    exact Nat.mod_lt _ (by decide)
  rw [decoded_rd hd, decoded_rs1 hd, decoded_rs2 hd, hshamt]
  refine ⟨(hsmall hlt).2, (hsmall hlt1).2, (hsmall hlt2).1, ?_⟩
  split_ifs
  · exact hmask _
  · exact hmask _
  · decide

/-- The shift amount of the replay is that of the rows. -/
theorem decoded_shamt (hd : w.Decoded i) : w.shamt.toNat =
    if opcOf w = 19 then (NexusVm.shamt w.inst).toNat
    else if opcOf w = 51 then w.Y.toNat % 2 ^ 5 else 0 := by
  have hrs2 := decoded_rs2 hd
  have hshamt : w.shamt = _ :=
    (congrArg Fields.shamt hd.fields).trans (parseAlt_shamt (opcode_mem hd))
  rw [hshamt]
  show BitVec.toNat (if opcOf w = 19 then _ else if opcOf w = 51 then _ else _) = _
  split_ifs with h19 h51
  · exact immA_and w.inst
  · have hmem : opcOf w ∈ [opcBr, opcStore, opcAlu] := by
      rw [h51]
      decide
    rw [if_pos hmem] at hrs2
    rw [shamt_and, hd.Y, hrs2]
    rfl
  · rfl

/-- **The values that the builder computes** fit what no operand decides. -/
theorem honest_loose (hp : 2 ^ 128 < p) (hd : w.Decoded i) (h : w.HoldsResult i)
    (hread : HoldsLine w.readProof) (hwrite : HoldsLine w.writeProof) : Loose w (honest w) where
  opcode := opcode_mem hd
  lt := decoded_lt hd
  X := hd.X
  Y := hd.Y
  shamt := decoded_shamt hd
  decodes := by
    rw [hd.J]
    exact decodes_of_parse hd.parse
  Z := zVal_of_holdsResult hp hd.J (index_ne hd) h
  eqXY := fun he => by
    have heq : w.X = w.Y := beq_iff_eq.mp he
    show diff w.X w.Y (w.X.ult w.Y) = 0
    rw [diff_ult, heq, BitVec.sub_self]
    exact Nat.cast_zero
  eqXI := fun he => by
    have heq : w.X = w.I := beq_iff_eq.mp he
    show diff w.X w.I (w.X.ult w.I) = 0
    rw [diff_ult, heq, BitVec.sub_self]
    exact Nat.cast_zero
  units := fun width hw => by
    have hlow : ((w.X + w.I) &&& 0xf).toNat < 16 :=
      lt_of_le_of_lt (Nat.and_le_right) (by decide)
    show ((w.X + w.I) &&& 0xf).toNat / (width / 8) < 128 / width
    generalize ((w.X + w.I) &&& 0xf).toNat = low at hlow
    fin_cases hw <;> simp <;> omega
  readHalf := by
    obtain ⟨cl, hdata⟩ := hread
    exact lineHalf_lt hp hdata
  writeHalf := by
    obtain ⟨cl, hdata⟩ := hwrite
    exact lineHalf_lt hp hdata
  sb := fun hj => stored_unit hp .sb hd.J h hj
  sh := fun hj => stored_unit hp .sh hd.J h hj
  sw := fun hj => (Nat.mod_eq_of_lt w.Y.isLt).symm.trans (stored_unit hp .sw hd.J h hj)

/-- They are what the builder computes. -/
theorem honest_genuine (hd : w.Decoded i) : Genuine w (honest w) where
  imm := fun ty hty => by
    have hI : w.I = _ := congrArg Fields.I hd.fields
    exact hI.trans (parseAlt_imm (opcode_mem hd) hty)
  x0 := rfl
  ltXY := rfl
  eqXY := rfl
  ltXI := rfl
  eqXI := rfl
  unit := ⟨Nat.div_one _, rfl, (Nat.div_div_eq_div_mul _ 2 2).symm⟩

/-! ## The register operands and the next program counter -/

/-- Only `fence` has its opcode. -/
theorem fence_iff (hd : w.Decoded i) : opcOf w = opcFence ↔ i = .fence := by
  have hne : ∀ {opc : ℕ} {j : RV32}, (opcode w.inst).toNat = opc → opc ≠ opcFence →
      j ≠ .fence → (opcOf w = opcFence ↔ j = .fence) := fun hopc hne hj =>
    iff_of_false (fun h => hne (hopc.symm.trans h)) hj
  cases parses_of_parseU32 hd.parse with
  | fence hopc => exact iff_of_true hopc rfl
  | lui hopc => exact hne hopc (by decide) nofun
  | auipc hopc => exact hne hopc (by decide) nofun
  | jal hopc => exact hne hopc (by decide) nofun
  | jalr hopc _ => exact hne hopc (by decide) nofun
  | br hopc _ => exact hne hopc (by decide) nofun
  | load hopc _ => exact hne hopc (by decide) nofun
  | store hopc _ => exact hne hopc (by decide) nofun
  | alui hopc _ => exact hne hopc (by decide) nofun
  | alu hopc _ => exact hne hopc (by decide) nofun
  | ecall hopc _ => exact hne hopc (by decide) nofun
  | ebreak hopc _ => exact hne hopc (by decide) nofun
  | unimp hopc _ => exact hne hopc (by decide) nofun

/-- A field that the replay leaves out for `fence` as well. -/
theorem toNat_field_iff (v : U32) (opc : ℕ) {l : List ℕ} (hl : opcFence ∉ l) :
    (if opc ∈ l ++ [opcFence] then 0 else v).toNat = (if opc ∈ l then 0 else v.toNat) ↔
      (opc = opcFence → v = 0) := by
  have hzero : (0 : U32).toNat = v.toNat ↔ v = 0 :=
    ⟨fun h => (BitVec.eq_of_toNat_eq h).symm, fun h => h ▸ rfl⟩
  by_cases hf : opc = opcFence
  · subst hf
    rw [if_pos (List.mem_append_right _ (List.mem_singleton_self _)), if_neg hl, hzero]
    exact ⟨fun h _ => h, fun h => h rfl⟩
  · have hiff : opc ∈ l ++ [opcFence] ↔ opc ∈ l := by simp [hf]
    rw [if_congr hiff rfl rfl]
    refine iff_of_true ?_ fun h => absurd h hf
    split_ifs <;> rfl

/-- **The operands are those of the word** but for a `fence` with fields. -/
theorem operands_iff (hd : w.Decoded i) :
    Operands w ↔ (i = .fence → NexusVm.rd w.inst = 0 ∧ NexusVm.rs1 w.inst = 0) := by
  have hrd := decoded_rd hd
  have hrs1 := decoded_rs1 hd
  have hrd' := toNat_field_iff (NexusVm.rd w.inst) (opcOf w)
    (show opcFence ∉ [opcBr, opcStore] by decide)
  have hrs1' := toNat_field_iff (NexusVm.rs1 w.inst) (opcOf w)
    (show opcFence ∉ [opcLui, opcAuipc, opcJal, opcEcall] by decide)
  rw [← fence_iff hd]
  constructor
  · intro h hfence
    exact ⟨hrd'.mp ((congrArg BitVec.toNat hrd).symm.trans h.rd) hfence,
      hrs1'.mp ((congrArg BitVec.toNat hrs1).symm.trans h.rs1) hfence⟩
  · intro h
    refine ⟨?_, ?_, ?_⟩
    · exact (congrArg BitVec.toNat hrd).trans (hrd'.mpr fun hf => (h hf).1)
    · exact (congrArg BitVec.toNat hrs1).trans (hrs1'.mpr fun hf => (h hf).2)
    · rw [decoded_rs2 hd]
      exact apply_ite BitVec.toNat _ _ _

theorem taken_honest {bop : BOP} {rs1 rs2 imm : U32} :
    taken w (honest w) (RV32.br bop rs1 rs2 imm).indexJ = brOp bop w.X w.Y := by
  cases bop with
  | beq => rfl
  | bne => rfl
  | blt => exact (slt_eq_flags w.X w.Y).symm
  | bge => exact congrArg (!·) (slt_eq_flags w.X w.Y).symm
  | bltu => rfl
  | bgeu => rfl

/-- **`PC` as the circuit selects it** is where the instruction jumps to. -/
theorem pcVal_honest (hJ : w.J = i.indexJ) :
    pcVal w (honest w) w.J = (w.target i).getD (w.regs.pc + 4) := by
  rw [hJ]
  cases i with
  | lui rd imm => rfl
  | auipc rd imm => rfl
  | jal rd imm => rfl
  | jalr rd rs1 imm => rfl
  | br bop rs1 rs2 imm =>
      have htaken : taken w (honest w) (RV32.br bop rs1 rs2 imm).indexJ = _ := taken_honest
      show _ = (if brOp bop w.X w.Y then some (w.regs.pc + w.I) else none).getD _
      rw [pcVal, htaken]
      cases brOp bop w.X w.Y with
      | true => rw [if_pos (Or.inr rfl), if_pos rfl, Option.getD_some]
      | false => cases bop <;> rfl
  | load lop rd rs1 imm => cases lop <;> rfl
  | store sop rs1 rs2 imm => cases sop <;> rfl
  | alui aop rd rs1 imm => cases aop <;> rfl
  | alu aop rd rs1 rs2 => cases aop <;> rfl
  | fence => rfl
  | ecall rd => rfl
  | ebreak rd => rfl
  | unimp => rfl

end Honest

section Satisfied

variable {p : ℕ} [Fact p.Prime] {P : Type} {w : Witness P} {σ : Var → ZMod p}

/-- The rows of the operands, with the bits of the word summed up. -/
theorem operandRows_of_fits (hp : 2 ^ 32 < p) (hfit : Fits Op.Sat σ (stepBody w false))
    (hinst : σ .inst = (w.inst.toNat : ZMod p)) :
    (∀ n ∈ opcodes, σ (.is .opcode n) = flag (opcOf w == n)) ∧
      ((NexusVm.rd w.inst).toNat : ZMod p) *
        (1 + (-1 * σ (.is .opcode opcBr) + -1 * σ (.is .opcode opcStore))) = σ .rd ∧
      ((NexusVm.rs1 w.inst).toNat : ZMod p) *
        (1 + (-1 * σ (.is .opcode opcLui) + (-1 * σ (.is .opcode opcAuipc) +
          (-1 * σ (.is .opcode opcJal) + -1 * σ (.is .opcode opcEcall))))) = σ .rs1 ∧
      ((NexusVm.rs2 w.inst).toNat : ZMod p) * (σ (.is .opcode opcBr) +
        (σ (.is .opcode opcStore) + σ (.is .opcode opcAlu))) = σ .rs2 := by
  have hopc : Fits Op.Sat σ (parseOpc false w.inst) := hfit.of_mem (by simp [stepGadgets])
  obtain ⟨word, hword, -, hreads⟩ := exists_readsKey hp hfit
  obtain rfl : word = w.inst := word_inj hp (hword.symm.trans hinst)
  unfold parseOpc at hopc
  obtain ⟨word, hbits⟩ := Fits.toBits rfl hopc.left.left.left.left.left
  obtain rfl : word = w.inst := word_inj hp (hbits.value.symm.trans hinst)
  rw [List.append_assoc] at hopc
  obtain ⟨l, hbody⟩ := hopc.right.holds
    (by simp [parseOpcBody, parseOpcRows, setEq, add, sumRow])
  have hsum : ∀ {start count : ℕ}, start + count ≤ 32 →
      bitSum ((bitNames .inst start count).map (glue σ l)) =
        ((w.inst.toNat / 2 ^ start % 2 ^ count : ℕ) : ZMod p) := fun hc =>
    (show HasBits (glue σ l) .inst w.inst.toNat 32 from hbits.bits).sum_names hc
  have hglob : ∀ n, glue σ l (.is .opcode n) = σ (.is .opcode n) := fun n => glue_global rfl
  simp only [parseOpcBody, Bool.false_eq_true, if_false, holds_append, parseOpcRows, holds_cons,
    holds_nil, and_true, Op.Sat, lc_cons, lc_nil, lc_powRow, Term.eval_put, Term.eval_const,
    List.map_cons, List.map_nil, one_mul, mul_one, add_zero, hglob,
    hsum (show 7 + 5 ≤ 32 by omega), hsum (show 15 + 5 ≤ 32 by omega),
    hsum (show 20 + 5 ≤ 32 by omega), ← rd_toNat, ← rs1_toNat, ← rs2_toNat] at hbody
  obtain ⟨-, -, -, -, -, hrd, hrs1, hrs2⟩ := hbody
  exact ⟨hreads.opc, hrd, hrs1, hrs2⟩

/-- **The operands of an accepted assignment** are those of its word. -/
theorem operands_of_fits (hp : 2 ^ 32 < p) (hfit : Fits Op.Sat σ (stepBody w false))
    (ho : opcOf w ∈ opcodes) (hinst : σ .inst = (w.inst.toNat : ZMod p))
    (hrd : σ .rd = (w.rd.toNat : ZMod p)) (hrs1 : σ .rs1 = (w.rs1.toNat : ZMod p))
    (hrs2 : σ .rs2 = (w.rs2.toNat : ZMod p)) : Operands w := by
  obtain ⟨hopc, hd, h1, h2⟩ := operandRows_of_fits hp hfit hinst
  obtain ⟨-, -, -, hlt, hlt1, hlt2, -⟩ := field_lt w.inst
  rw [hrd] at hd
  rw [hrs1] at h1
  rw [hrs2] at h2
  have hword : ∀ {v : U32} {n : ℕ}, n < 32 → (v.toNat : ZMod p) = (n : ZMod p) → v.toNat = n :=
    fun {v n} hn h => (cast_eq_iff hp v.isLt (by omega)).mp h
  constructor
  · apply hword
    · split_ifs <;> omega
    · rw [← hd, hopc _ (by decide), hopc _ (by decide)]
      rcases opcodes_cases ho with h | h | h | h | h | h | h | h | h | h | h <;> rw [h] <;>
        simp [opcBr, opcStore, flag]
  · apply hword
    · split_ifs <;> omega
    · rw [← h1, hopc _ (by decide), hopc _ (by decide), hopc _ (by decide), hopc _ (by decide)]
      rcases opcodes_cases ho with h | h | h | h | h | h | h | h | h | h | h <;> rw [h] <;>
        simp [opcLui, opcAuipc, opcJal, opcEcall, flag]
  · apply hword
    · split_ifs <;> omega
    · rw [← h2, hopc _ (by decide), hopc _ (by decide), hopc _ (by decide)]
      rcases opcodes_cases ho with h | h | h | h | h | h | h | h | h | h | h <;> rw [h] <;>
        simp [opcBr, opcStore, opcAlu, flag]

/-- A branch that is taken. -/
theorem Fits.branch_taken {J : ℕ} {cond inverse : Var} (hc : isLocal cond = false)
    (hi : isLocal inverse = false) (h : Fits Op.Sat σ (branch J cond inverse))
    (h1 : σ cond = 1) (h0 : σ inverse = 0) : σ (.PCJ J) = σ (.plus .pc .I) := by
  unfold Circuit.branch at h
  obtain ⟨l, hrows⟩ := h.holds (by simp [branchBody, setVar, setFieldVar, setLocalVar, mul, add])
  simp only [branchBody, holds_append, holds_cons, holds_nil, and_true, mul, add, Op.Sat, lc_cons,
    lc_nil, Term.eval_put, Term.eval_const, one_mul, mul_one, add_zero, glue_global hc,
    glue_global hi, h1, h0, zero_mul] at hrows
  obtain ⟨⟨⟨⟨⟨⟨⟨-, -⟩, hleft⟩, -⟩, hright⟩, -, -, hsum⟩, -⟩, -⟩ := hrows
  rw [← hleft, ← hright, add_zero] at hsum
  exact hsum.symm

variable [MemoryProof P p] {i : RV32}

/-- The condition of a branch and its inverse, among the flags of `X` and `Y`. -/
theorem branch_of_fits (h : Fits Op.Sat σ br) (bop : BOP) (rs1 rs2 imm : U32) :
    ∃ cond ∈ mainNames, ∃ inverse ∈ mainNames,
      Fits Op.Sat σ (branch (RV32.br bop rs1 rs2 imm).indexJ cond inverse) ∧
        ∀ f : Forge, (val w f cond : ZMod p) = flag (taken w f (RV32.br bop rs1 rs2 imm).indexJ) ∧
          (val w f inverse : ZMod p) = flag (!taken w f (RV32.br bop rs1 rs2 imm).indexJ) := by
  unfold br at h
  have hnot : ∀ b : Bool, (flag b : ZMod p) = flag (!!b) := fun b => by rw [Bool.not_not]
  cases bop with
  | beq =>
      exact ⟨.eq .X .Y, by decide, .ne .X .Y, by decide, h.left.left.left.left.left,
        fun f => ⟨rfl, rfl⟩⟩
  | bne =>
      exact ⟨.ne .X .Y, by decide, .eq .X .Y, by decide, h.left.left.left.left.right,
        fun f => ⟨rfl, hnot _⟩⟩
  | blt =>
      exact ⟨.slt .X .Y, by decide, .sge .X .Y, by decide, h.left.left.left.right,
        fun f => ⟨rfl, rfl⟩⟩
  | bge =>
      exact ⟨.sge .X .Y, by decide, .slt .X .Y, by decide, h.left.left.right,
        fun f => ⟨rfl, hnot _⟩⟩
  | bltu =>
      exact ⟨.lt .X .Y, by decide, .ge .X .Y, by decide, h.left.right, fun f => ⟨rfl, rfl⟩⟩
  | bgeu =>
      exact ⟨.ge .X .Y, by decide, .lt .X .Y, by decide, h.right, fun f => ⟨rfl, hnot _⟩⟩

/-- **`PC` of an accepted assignment** is where a jump of its instruction leads to. -/
theorem PC_of_fits (hp : 2 ^ 33 < p) (hfit : Fits Op.Sat σ (stepBody w false))
    (hval : ∀ n ∈ mainNames, σ n = val w (honest w) n) (hJ : w.J = i.indexJ) {t : U32}
    (h : w.target i = some t) : w.PC = t := by
  have hword : ∀ {a b : U32}, (a.toNat : ZMod p) = (b.toNat : ZMod p) → a = b :=
    fun hab => word_inj (by omega) hab
  have hPC : σ .PC = (w.PC.toNat : ZMod p) := hval .PC (by decide)
  have hmem : i.indexJ ∈ List.range' 1 RV32.maxJ := by
    have hj := i.indexJ_mem
    rw [List.mem_range'_1]
    omega
  have hselect : Fits Op.Sat σ (selectJ w) := hfit.of_mem (by simp [stepGadgets])
  have hsel : σ .PC = σ (.PCJ i.indexJ) := by
    refine (selected_of_fits hselect hmem fun j hj => ?_).2
    rw [hval _ (List.mem_append_right _ (List.mem_map_of_mem hj)), ← hJ, ← ite_eq_flag w.J j]
    exact if_congr eq_comm rfl rfl
  have hplus : Fits Op.Sat σ (addCir (.plus .pc .I) .pc .I w.regs.pc w.I) :=
    hfit.of_mem (by simp [stepGadgets])
  have hpcI : σ (.PCJ i.indexJ) = σ (.plus .pc .I) → w.PC = w.regs.pc + w.I := fun heq =>
    Fits.plus hp rfl rfl rfl hplus (hval .pc (by decide)) (hval .I (by decide))
      ((heq.symm.trans hsel.symm).trans hPC)
  cases i with
  | jal rd imm =>
      have hjal : Fits Op.Sat σ jalCs := hfit.of_mem (by simp [stepGadgets])
      rw [hpcI (Fits.setEq rfl rfl hjal.right)]
      exact Option.some.inj h
  | jalr rd rs1 imm =>
      have hjalr : Fits Op.Sat σ jalrCs := hfit.of_mem (by simp [stepGadgets])
      have halu : Fits Op.Sat σ (alu false w) := hfit.of_mem (by simp [stepGadgets])
      unfold alu at halu
      have heq : σ (.PCJ 4) = σ (.plus .X .I) := Fits.setEq rfl rfl hjalr.right
      rw [← Option.some.inj h]
      exact Fits.plus hp rfl rfl rfl halu.left.left.left.left.left.left.right.left
        (hval .X (by decide)) (hval .I (by decide)) ((heq.symm.trans hsel.symm).trans hPC)
  | br bop rs1 rs2 imm =>
      have hjump : (if brOp bop w.X w.Y then some (w.regs.pc + w.I) else none) = some t := h
      have htaken : brOp bop w.X w.Y = true := by
        by_contra hne
        rw [if_neg hne] at hjump
        cases hjump
      rw [if_pos htaken] at hjump
      have hbr : Fits Op.Sat σ br := hfit.of_mem (by simp [stepGadgets])
      obtain ⟨cond, hc, inverse, hi, hbranch, hflags⟩ :=
        branch_of_fits (w := w) hbr bop rs1 rs2 imm
      obtain ⟨hcond, hinverse⟩ := hflags (honest w)
      rw [taken_honest, htaken] at hcond hinverse
      rw [hpcI (Fits.branch_taken (isLocal_mainNames _ hc) (isLocal_mainNames _ hi) hbranch
        ((hval _ hc).trans hcond) ((hval _ hi).trans hinverse))]
      exact Option.some.inj hjump
  | unimp =>
      have hmisc : Fits Op.Sat σ misc := hfit.of_mem (by simp [stepGadgets])
      have heq : σ (.PCJ 42) = σ .pc := Fits.setEq rfl rfl hmisc.right
      have hpc : σ .pc = (w.regs.pc.toNat : ZMod p) := hval .pc (by decide)
      rw [← Option.some.inj h]
      exact hword ((hPC.symm.trans hsel).trans (heq.trans hpc))
  | _ => cases h

end Satisfied

/-! ## Completeness and words at address 0 -/

section Completeness

variable {M P : Type} {p : ℕ} [Fact p.Prime] [MemoryProof P p]

/-- **The builder's own witness** satisfies the rows if the operands are those of the word, and
`PC` is where the instruction leads to. -/
theorem isSat_iff (hp : 2 ^ 128 < p) {w : Witness P} {i : RV32} (hd : w.Decoded i)
    (h : w.HoldsResult i) (hread : HoldsLine w.readProof) (hwrite : HoldsLine w.writeProof)
    (hnext : w.target i = none → w.PC = w.regs.pc + 4) :
    ∃ cs : R1CS Var (ZMod p), step w false = some cs ∧
      (cs.IsSat ↔ Operands w ∧ w.PC = (w.target i).getD (w.regs.pc + 4)) := by
  have hloose := honest_loose hp hd h hread hwrite
  obtain ⟨cs, hcs, hone, hsat, hval⟩ :=
    step_computes (by omega) hloose (honest_genuine hd) (index_ne hd)
  refine ⟨cs, hcs, ?_, ?_⟩
  · intro hs
    have hfit := step_sound hcs hone hs
    constructor
    · exact operands_of_fits (by omega) hfit (opcode_mem hd) (hval .inst (by decide))
        (hval .rd (by decide)) (hval .rs1 (by decide)) (hval .rs2 (by decide))
    · cases ht : w.target i with
      | none => exact hnext ht
      | some t => exact PC_of_fits (by omega) hfit hval hd.J ht
  · rintro ⟨hops, hPC⟩
    exact hsat { hloose, hops with PC := hPC.trans (pcVal_honest hd.J).symm }

variable [Memory M P]

/-- **A step is accepted**: it is recorded, the replay rebuilds a witness of it, and what the
builder computes from that witness satisfies every row of the step circuit. -/
def StepAccepted (B : Build) (vm : NexusVM M P) (rest : List (Step P)) : Prop :=
  ∃ s vm' w it, ∃ cs : R1CS Var (ZMod p), NexusVm.step B vm = (.ok s, vm') ∧
    BlockIter.next B ⟨vm.regs, s :: rest⟩ = .ok (some (w, it)) ∧ step w false = some cs ∧ cs.IsSat

/-- The circuit of a recorded step. -/
theorem exists_circuit (hp : 2 ^ 128 < p) {B : Build} {vm vm' : NexusVM M P} {inst : Inst}
    (hend : vm.Ended vm' inst) (hparse : parseU32 inst.word = some inst.inst) {s : Step P}
    (hs : s.Records B vm vm') :
    ∃ w, ∃ cs : R1CS Var (ZMod p), witnessOf B vm.regs s = .ok w ∧ step w false = some cs ∧
      (cs.IsSat ↔ vm.machine.Honoured inst.inst ∧
        (inst.inst = .fence → rd inst.word = 0 ∧ rs1 inst.word = 0)) := by
  have hword : s.inst = inst.word := by rw [hs.inst, hend.current]
  rw [← hword] at hparse
  have hd : (s.rebuilt vm.regs inst.inst vm'.regs.pc).Decoded inst.inst := rebuilt_decoded hparse
  have htarget := hd.target_eq rfl
  have hPC : vm'.regs.pc = _ := hend.pc
  have hresult : (s.rebuilt vm.regs inst.inst vm'.regs.pc).HoldsResult inst.inst := by
    have hread : ∀ q ∈ vm'.readProof, s.readProof.getD s.pcProof = q := fun q hq => by
      rw [hs.readProof, hq, Option.getD_some]
    have hwrite : ∀ q ∈ vm'.writeProof,
        s.writeProof.getD (s.readProof.getD s.pcProof) = q := fun q hq => by
      rw [hs.writeProof, hq, Option.getD_some]
    have hleaves : Leaves vm.regs s.Z vm'.readProof vm'.writeProof inst.inst := by
      rw [hs.Z]
      exact hend.leaves
    exact hd.holdsResult hread hwrite hleaves
  have hread : HoldsLine (s.readProof.getD s.pcProof) := by
    rw [hs.readProof, hs.pcProof]
    exact holdsLine_getD hend.read hend.fetch
  have hwrite : HoldsLine (s.writeProof.getD (s.readProof.getD s.pcProof)) := by
    rw [hs.writeProof]
    exact holdsLine_getD hend.write hread
  obtain ⟨cs, hcs, hiff⟩ := isSat_iff hp hd hresult hread hwrite fun hnone => by
    show vm'.regs.pc = vm.regs.pc + 4
    rw [htarget] at hnone
    rw [hPC, hnone, Option.getD_none, if_pos rfl]
  refine ⟨_, cs, witnessOf_eq_rebuilt hparse hs.PC, hcs, hiff.trans ?_⟩
  rw [operands_iff hd, htarget, and_comm, ← Machine.honoured_iff]
  show vm'.regs.pc = _ ∧ (_ → rd s.inst = 0 ∧ rs1 s.inst = 0) ↔ _
  rw [hPC, hword]
  exact Iff.rfl

/-- **Completeness**: a step that the machine takes is accepted exactly if the address after it is
in range where the build checks, it does not jump to `0` from elsewhere than the last address, and
it is no `fence` with a register field. -/
theorem step_complete_iff (hp : 2 ^ 128 < p) (hM : Memory.Opens M P) {B : Build}
    {vm vm' : NexusVM M P} (hx : vm.regs.x 0 = 0) {word : U32} {proof : P} {inst : Inst}
    (hread : Memory.readInst vm.mem vm.regs.pc = .ok (word, proof))
    (hparse : parseInst vm.regs.pc (toLeBytes word) = .ok inst)
    (hrun : evalInst B vm = (.ok (), vm')) (rest : List (Step P)) :
    StepAccepted B vm rest ↔ (B.overflowChecks = true → vm.regs.pc.toNat + 4 < 2 ^ 32) ∧
      vm.machine.Honoured inst.inst ∧
        (inst.inst = .fence → rd inst.word = 0 ∧ rs1 inst.word = 0) := by
  have hend := ended_of_evalInst hM hx hread hparse hrun
  obtain ⟨-, -, hword⟩ := parseInst_eq_ok hparse
  constructor
  · rintro ⟨s, vm₁, w, it, cs, hstep, hnext, hcs, hsat⟩
    obtain ⟨heval, hrec⟩ := records_of_step hstep
    obtain rfl : vm' = vm₁ := congrArg Prod.snd (hrun.symm.trans heval)
    obtain ⟨w', cs', hw', hcs', hiff⟩ := exists_circuit hp hend hword hrec
    have hsame : witnessOf B vm.regs s = .ok w := by
      have hmap : (witnessOf B vm.regs s).map _ = _ := hnext
      rw [hw'] at hmap ⊢
      cases hmap
      rfl
    rw [hw'] at hsame
    cases hsame
    rw [hcs'] at hcs
    cases hcs
    exact ⟨(step_eq_ok.mp ⟨s, hstep⟩).2, hiff.mp hsat⟩
  · rintro ⟨hfit, hcond⟩
    obtain ⟨s, hstep⟩ := step_eq_ok.mpr ⟨hrun, hfit⟩
    obtain ⟨w, cs, hw, hcs, hiff⟩ :=
      exists_circuit hp hend hword (records_of_step hstep).2
    refine ⟨s, vm', w, ⟨w.nextRegs, rest⟩, cs, hstep, ?_, hcs, hiff.mpr hcond⟩
    show (witnessOf B vm.regs s).map _ = _
    rw [hw]
    rfl

end Completeness

/-- A machine with a word in memory at its program counter. -/
def codeMachine (p : ℕ) (pc word : U32) : NexusVM (PagedMemory p) (UncheckedMemory p) :=
  .new pc (Memory.store (⟨Paged.empty⟩ : PagedMemory p) .sw pc word).2 ⟨(0, 0)⟩

/-- A machine with a word at `0` in a trie, whose hashes are sums. -/
def trieMachine (p : ℕ) (word : U32) : NexusVM (MerkleTrie p) (Path p) :=
  .new 0 (Memory.store (MerkleTrie.emptyTrie p) .sw 0 word).2
    ((MerkleTrie.emptyTrie p).query 0).2

set_option maxRecDepth 8192 in
/-- `addi x1, x0, 5` at `0`, in pages and in a trie. -/
theorem step_complete_iff_addi :
    StepAccepted ⟨true⟩ (codeMachine prime521 0 0x00500093) [] ∧
      StepAccepted ⟨true⟩ (trieMachine prime521 0x00500093) [] := by
  have hparse : parseInst 0 (toLeBytes 0x00500093) =
    .ok ⟨0, 4, 0x00500093, .alui .add 1 0 5⟩ := rfl
  constructor
  · have hread : Memory.readInst (codeMachine prime521 0 0x00500093).mem 0 =
      .ok (0x00500093, ⟨_, _⟩) := rfl
    have hrun : evalInst ⟨true⟩ (codeMachine prime521 0 0x00500093) = (.ok (), _) := rfl
    exact (step_complete_iff lt_prime521 (paged_opens prime521) rfl hread hparse hrun []).mpr
      ⟨fun _ => by decide, nofun, nofun⟩
  · have hread : Memory.readInst (trieMachine prime521 0x00500093).mem 0 =
      .ok (0x00500093, _) := rfl
    have hrun : evalInst ⟨true⟩ (trieMachine prime521 0x00500093) = (.ok (), _) := rfl
    exact (step_complete_iff lt_prime521 (merkle_opens prime521) rfl hread hparse hrun []).mpr
      ⟨fun _ => by decide, nofun, nofun⟩

/-- The step of a word at `0` is recorded, and the builder's own witness is rejected. -/
def Rejected (word : U32) : Prop :=
  ∃ s vm' w it, ∃ cs : R1CS Var (ZMod prime521),
    NexusVm.step ⟨true⟩ (codeMachine prime521 0 word) = (.ok s, vm') ∧
      BlockIter.next ⟨true⟩ ⟨(codeMachine prime521 0 word).regs, [s]⟩ = .ok (some (w, it)) ∧
        step w false = some cs ∧ ¬ cs.IsSat

theorem rejected_of {word : U32} {proof : UncheckedMemory prime521} {inst : Inst}
    {vm' : NexusVM (PagedMemory prime521) (UncheckedMemory prime521)}
    (hread : Memory.readInst (codeMachine prime521 0 word).mem 0 = .ok (word, proof))
    (hparse : parseInst 0 (toLeBytes word) = .ok inst)
    (hrun : evalInst ⟨true⟩ (codeMachine prime521 0 word) = (.ok (), vm'))
    (hnot : ¬ ((codeMachine prime521 0 word).machine.Honoured inst.inst ∧
      (inst.inst = .fence → rd inst.word = 0 ∧ rs1 inst.word = 0))) : Rejected word := by
  obtain ⟨-, -, hword⟩ := parseInst_eq_ok hparse
  have hend : (codeMachine prime521 0 word).Ended vm' inst :=
    ended_of_evalInst (paged_opens prime521) rfl hread hparse hrun
  have hrange : (0 : U32).toNat + 4 < 2 ^ 32 := by decide
  obtain ⟨s, hstep⟩ := step_eq_ok.mpr ⟨hrun, fun _ => hrange⟩
  obtain ⟨w, cs, hw, hcs, hiff⟩ :=
    exists_circuit lt_prime521 hend hword (records_of_step hstep).2
  refine ⟨s, vm', w, ⟨w.nextRegs, []⟩, cs, hstep, ?_, hcs, fun hsat => hnot (hiff.mp hsat)⟩
  show (witnessOf _ _ s).map _ = _
  rw [hw]
  rfl

/-- **Two steps that are rejected**: a `fence` with register field `1`, and `jal x0, 0` at `0`. -/
theorem fence_jump_rejected : Rejected 0x8f ∧ Rejected 0x6f := by
  constructor
  · have hparse : parseInst 0 (toLeBytes 0x8f) = .ok ⟨0, 4, 0x8f, .fence⟩ := rfl
    have hrun : evalInst ⟨true⟩ (codeMachine prime521 0 0x8f) = (.ok (), _) := rfl
    exact rejected_of rfl hparse hrun fun h => absurd (h.2 rfl).1 (by decide)
  · have hparse : parseInst 0 (toLeBytes 0x6f) = .ok ⟨0, 4, 0x6f, .jal 0 0⟩ := rfl
    have hrun : evalInst ⟨true⟩ (codeMachine prime521 0 0x6f) = (.ok (), _) := rfl
    exact rejected_of rfl hparse hrun fun h => absurd (h.1 rfl) (by decide)

end Circuit

end NexusVm
