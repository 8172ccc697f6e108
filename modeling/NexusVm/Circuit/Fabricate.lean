import NexusVm.Circuit.Assign
import NexusVm.Memory.Trie
import Mathlib.Tactic.IntervalCases

/-!
# Made-up witnesses

A `Draft` fixes what a prover is free to choose: the registers, the instruction
word, the selector, the immediate, the flags and the opened lines.  Everything
else follows from it, and a draft that is `Sound` fits the rows.
-/

namespace NexusVm.Circuit

open NexusVm.Builder

/-- What a prover chooses. -/
structure Draft (p : ℕ) where
  regs : Regs
  word : U32
  J : ℕ
  I : U32
  f : Forge
  pcProof : Path p
  readProof : Path p
  writeProof : Path p

section Draft

variable {p : ℕ} [Fact p.Prime]

namespace Draft

def opc (d : Draft p) : ℕ := (opcode d.word).toNat

def rd (d : Draft p) : U32 := if d.opc ∈ [opcBr, opcStore] then 0 else NexusVm.rd d.word

def rs1 (d : Draft p) : U32 :=
  if d.opc ∈ [opcLui, opcAuipc, opcJal, opcEcall] then 0 else NexusVm.rs1 d.word

def rs2 (d : Draft p) : U32 :=
  if d.opc ∈ [opcBr, opcStore, opcAlu] then NexusVm.rs2 d.word else 0

def X (d : Draft p) : U32 := d.regs.x (Fin.ofNat 32 d.rs1.toNat)

def Y (d : Draft p) : U32 := d.regs.x (Fin.ofNat 32 d.rs2.toNat)

def shamt (d : Draft p) : U32 :=
  if d.opc = 19 then NexusVm.shamt d.word else if d.opc = 51 then d.Y &&& 0x1f else 0

/-- The witness before the selected instruction gave its result. -/
def pre (d : Draft p) : Witness (Path p) :=
  { regs := d.regs, inst := d.word, J := d.J, shamt := d.shamt, rs1 := d.rs1, rs2 := d.rs2
    rd := d.rd, I := d.I, X := d.X, Y := d.Y, Z := 0, PC := 0, pcProof := d.pcProof
    readProof := d.readProof, writeProof := d.writeProof }

end Draft

/-- `zVal` as a word. -/
def zWord (w : Witness (Path p)) (f : Forge) : ℕ → U32
  | 1 => w.I
  | 2 => w.regs.pc + w.I
  | 3 | 4 => w.regs.pc + 4
  | 11 => BitVec.ofNat 32 (signExtend 7 (chosen w f w.readProof 8))
  | 12 => BitVec.ofNat 32 (signExtend 15 (chosen w f w.readProof 16))
  | 13 => BitVec.ofNat 32 (chosen w f w.readProof 32)
  | 14 => BitVec.ofNat 32 (chosen w f w.readProof 8)
  | 15 => BitVec.ofNat 32 (chosen w f w.readProof 16)
  | 19 => w.X + w.I
  | 20 => w.X - w.I
  | 21 => w.X <<< w.shamt.toNat
  | 22 => if signedFlag w.X w.I f.ltXI then 1 else 0
  | 23 => if f.ltXI then 1 else 0
  | 24 => w.X ^^^ w.I
  | 25 => w.X >>> w.shamt.toNat
  | 26 => w.X.sshiftRight w.shamt.toNat
  | 27 => w.X ||| w.I
  | 28 => w.X &&& w.I
  | 29 => w.X + w.Y
  | 30 => w.X - w.Y
  | 31 => w.X <<< w.shamt.toNat
  | 32 => if signedFlag w.X w.Y f.ltXY then 1 else 0
  | 33 => if f.ltXY then 1 else 0
  | 34 => w.X ^^^ w.Y
  | 35 => w.X >>> w.shamt.toNat
  | 36 => w.X.sshiftRight w.shamt.toNat
  | 37 => w.X ||| w.Y
  | 38 => w.X &&& w.Y
  | _ => 0

namespace Draft

/-- The witness that goes with a draft. -/
def witness (d : Draft p) : Witness (Path p) :=
  { d.pre with Z := zWord d.pre d.f d.J, PC := pcVal d.pre d.f d.J }

/-- The choices that the rows accept. -/
structure Sound (d : Draft p) : Prop where
  opcode : d.opc ∈ opcodes
  decodes : decodes (keyOf d.word) d.J = true
  sub : d.J = 30 → d.f.ltXY = d.X.ult d.Y
  subi : d.J = 20 → d.f.ltXI = d.X.ult d.I
  eqXY : d.f.eqXY = true → d.X = d.Y ∧ d.f.ltXY = false
  eqXI : d.f.eqXI = true → d.X = d.I ∧ d.f.ltXI = false
  units : ∀ width ∈ [8, 16, 32], d.f.unit width < 128 / width
  readLo : d.readProof.leaf.1.val < 2 ^ 128
  readHi : d.readProof.leaf.2.val < 2 ^ 128
  writeLo : d.writeProof.leaf.1.val < 2 ^ 128
  writeHi : d.writeProof.leaf.2.val < 2 ^ 128
  sb : d.J = 16 → d.Y.toNat % 2 ^ 8 = chosen d.pre d.f d.writeProof 8
  sh : d.J = 17 → d.Y.toNat % 2 ^ 16 = chosen d.pre d.f d.writeProof 16
  sw : d.J = 18 → d.Y.toNat = chosen d.pre d.f d.writeProof 32

end Draft

omit [Fact p.Prime] in
theorem signExtend_lt {n v : ℕ} (hn : n < 32) : signExtend n v < 2 ^ 32 := by
  have hmod : v % 2 ^ n < 2 ^ n := Nat.mod_lt _ (Nat.two_pow_pos n)
  have hpow : 2 ^ n ≤ 2 ^ 32 := Nat.pow_le_pow_right (by omega) (by omega)
  unfold signExtend
  split_ifs <;> omega

theorem flag_toNat (b : Bool) : (((if b then 1 else 0 : U32).toNat : ℕ) : ZMod p) = flag b := by
  cases b <;> simp

/-- A difference with the right borrow is the difference of the words. -/
theorem diff_ult (x y : U32) : (diff x y (x.ult y) : ZMod p) = ((x - y).toNat : ZMod p) := by
  have hx := x.isLt
  have hy := y.isLt
  have hcast : (x.toNat : ZMod p) + ((0x100000000 : ℕ) : ZMod p) * flag (x.ult y) =
      ((x - y).toNat : ZMod p) + (y.toNat : ZMod p) := by
    have hnat : x.toNat + 0x100000000 * (if x.ult y then 1 else 0) = (x - y).toNat + y.toNat := by
      rw [BitVec.toNat_sub]
      simp only [BitVec.ult, decide_eq_true_eq]
      split_ifs <;> omega
    have := congrArg (fun n : ℕ => (n : ZMod p)) hnat
    simpa [flag] using this
  rw [diff]
  linear_combination hcast

namespace Draft

variable {d : Draft p}

theorem zVal_witness (h : d.Sound) :
    (d.witness.Z.toNat : ZMod p) = zVal d.witness d.f d.J := by
  have hlt : ∀ width, width ≤ 32 → chosen d.pre d.f d.readProof width < 2 ^ 32 := fun width hw =>
    lt_of_lt_of_le (chosen_lt _ _) (Nat.pow_le_pow_right (by omega) hw)
  have hnat : ∀ n : ℕ, n < 2 ^ 32 → (((BitVec.ofNat 32 n).toNat : ℕ) : ZMod p) = (n : ZMod p) := by
    intro n hn
    rw [BitVec.toNat_ofNat, Nat.mod_eq_of_lt hn]
  have hsub : d.J = 30 → (diff d.X d.Y d.f.ltXY : ZMod p) = ((d.X - d.Y).toNat : ZMod p) :=
    fun hJ => by rw [h.sub hJ, diff_ult]
  have hsubi : d.J = 20 → (diff d.X d.I d.f.ltXI : ZMod p) = ((d.X - d.I).toNat : ZMod p) :=
    fun hJ => by rw [h.subi hJ, diff_ult]
  obtain ⟨h1, h42⟩ := range_of_decodes h.decodes
  rw [RV32.maxJ] at h42
  show ((zWord d.pre d.f d.J).toNat : ZMod p) = zVal d.witness d.f d.J
  generalize hJ : d.J = j at *
  interval_cases j <;> try exact Nat.cast_zero
  all_goals try rfl
  · exact hnat _ (signExtend_lt (by omega))
  · exact hnat _ (signExtend_lt (by omega))
  · exact hnat _ (hlt 32 (by omega))
  · exact hnat _ (hlt 8 (by omega))
  · exact hnat _ (hlt 16 (by omega))
  · exact (hsubi rfl).symm
  · exact flag_toNat _
  · exact flag_toNat _
  · exact (hsub rfl).symm
  · exact flag_toNat _
  · exact flag_toNat _
  · exact congrArg (fun k => ((zWord d.pre d.f k).toNat : ZMod p)) hJ.symm

/-- **A sound draft fits the rows.** -/
theorem Sound.fitting (h : d.Sound) : Fitting d.witness d.f where
  opcode := h.opcode
  lt := by
    obtain ⟨-, -, -, hrd, hrs1, hrs2, hsh⟩ := field_lt d.word
    refine ⟨?_, ?_, ?_, ?_⟩
    · show d.rd.toNat < 32
      unfold rd
      split_ifs <;> first | exact hrd | decide
    · show d.rs1.toNat < 32
      unfold rs1
      split_ifs <;> first | exact hrs1 | decide
    · show d.rs2.toNat < 32
      unfold rs2
      split_ifs <;> first | exact hrs2 | decide
    · show d.shamt.toNat < 32
      unfold shamt
      split_ifs
      · exact hsh
      · rw [lowY_toNat]
        omega
      · decide
  X := rfl
  Y := rfl
  shamt := by
    show d.shamt.toNat = if d.opc = 19 then (NexusVm.shamt d.word).toNat
      else if d.opc = 51 then d.Y.toNat % 2 ^ 5 else 0
    unfold shamt
    split_ifs
    · rfl
    · exact lowY_toNat _
    · rfl
  decodes := h.decodes
  Z := zVal_witness h
  eqXY := fun he => by
    obtain ⟨hXY, hlt⟩ := h.eqXY he
    show (diff d.X d.Y d.f.ltXY : ZMod p) = 0
    simp [diff, hXY, hlt]
  eqXI := fun he => by
    obtain ⟨hXI, hlt⟩ := h.eqXI he
    show (diff d.X d.I d.f.ltXI : ZMod p) = 0
    simp [diff, hXI, hlt]
  units := h.units
  readHalf := by
    unfold lineHalf
    split_ifs
    · exact h.readHi
    · exact h.readLo
  writeHalf := by
    unfold lineHalf
    split_ifs
    · exact h.writeHi
    · exact h.writeLo
  sb := h.sb
  sh := h.sh
  sw := h.sw
  rd := by
    show d.rd.toNat = if d.opc ∈ [opcBr, opcStore] then 0 else (NexusVm.rd d.word).toNat
    unfold rd
    split_ifs <;> rfl
  rs1 := by
    show d.rs1.toNat =
      if d.opc ∈ [opcLui, opcAuipc, opcJal, opcEcall] then 0 else (NexusVm.rs1 d.word).toNat
    unfold rs1
    split_ifs <;> rfl
  rs2 := by
    show d.rs2.toNat = if d.opc ∈ [opcBr, opcStore, opcAlu] then (NexusVm.rs2 d.word).toNat else 0
    unfold rs2
    split_ifs <;> rfl
  PC := rfl

end Draft

end Draft

end NexusVm.Circuit
