import NexusVm.Circuit.Opening
import NexusVm.Memory.Position
import NexusVm.Table

/-!
# The lines of a witness

The memory proofs that a machine records hold the two scalars of a cache line.
An instruction leaves its result and the lines that it opened; the unit that its
address selects in such a line is the little-endian number of the bytes at that
address: the value of a load, and after a store what was stored.
-/

namespace NexusVm

theorem leNat_div (bs : List U8) (k : ℕ) : leNat bs / 256 ^ k = leNat (bs.drop k) := by
  induction k generalizing bs with
  | zero => rw [pow_zero, Nat.div_one, List.drop_zero]
  | succ k ih =>
      cases bs with
      | nil => exact Nat.zero_div _
      | cons b bs =>
          have hb : b.toNat < 256 := b.isLt
          have hdiv : (b.toNat + 256 * leNat bs) / 256 = leNat bs := by omega
          rw [List.drop_succ_cons, ← ih, leNat, pow_succ', ← Nat.div_div_eq_div_mul, hdiv]

theorem leNat_mod (bs : List U8) (n : ℕ) : leNat bs % 256 ^ n = leNat (bs.take n) := by
  induction n generalizing bs with
  | zero => rw [pow_zero, Nat.mod_one, List.take_zero, leNat]
  | succ n ih =>
      cases bs with
      | nil => exact Nat.zero_mod _
      | cons b bs =>
          have hb : b.toNat < 256 := b.isLt
          have hdiv : (b.toNat + 256 * leNat bs) / 256 = leNat bs := by omega
          have hmod : (b.toNat + 256 * leNat bs) % 256 = b.toNat := by omega
          rw [List.take_succ_cons, leNat, leNat, ← ih, pow_succ', Nat.mod_mul, hdiv, hmod]

/-- The bytes of a value, as far as they are taken. -/
theorem leNat_extract (val : U32) {n : ℕ} (hn : n ∣ 4) :
    leNat ((List.range n).map fun k => val.extractLsb' (8 * k) 8) = val.toNat % 256 ^ n := by
  have hval := val.isLt
  rcases CacheLine.width_cases hn with rfl | rfl | rfl
  · simp [leNat, List.range_succ, Nat.shiftRight_eq_div_pow]
  · simp [leNat, List.range_succ, Nat.shiftRight_eq_div_pow]
    omega
  · simp [leNat, List.range_succ, Nat.shiftRight_eq_div_pow]
    omega

namespace CacheLine

/-- The number that `n` bytes of a line from `start` on form. -/
def number (cl : CacheLine) (start n : ℕ) : ℕ := leNat ((List.range' start n).map cl.byte)

theorem number_lt (cl : CacheLine) (start n : ℕ) : cl.number start n < 256 ^ n := by
  have hlt := leNat_lt ((List.range' start n).map cl.byte)
  rwa [List.length_map, List.length_range'] at hlt

/-- A part of a number. -/
theorem number_part (cl : CacheLine) {start size k n : ℕ} (h : k + n ≤ size) :
    cl.number start size / 256 ^ k % 256 ^ n = cl.number (start + k) n := by
  have hle : n ≤ size - k := by omega
  rw [number, leNat_div, leNat_mod, ← List.map_drop, ← List.map_take, List.drop_range',
    List.take_range'_of_length_ge hle, mul_one, number]

theorem toNat_append {v w : ℕ} (hi : BitVec w) (lo : BitVec v) :
    (hi ++ lo).toNat = lo.toNat + 2 ^ v * hi.toNat := by
  rw [BitVec.toNat_append, ← Nat.shiftLeft_add_eq_or_of_lt lo.isLt, Nat.shiftLeft_eq, add_comm,
    mul_comm]

/-- **The value of a load** is the number at its address, extended. -/
theorem value_eq_extend (cl : CacheLine) {lop : LOP} {addr : U32}
    (ha : addr.toNat % lop.width = 0) :
    cl.flat.value lop addr = Circuit.loadExtend lop (cl.number (addr.toNat % 32) lop.width) := by
  have hplace : ∀ i < lop.width, cl.flat (addr + BitVec.ofNat 32 i) =
      cl.byte (addr.toNat % 32 + i) := fun i hi => by
    rw [flat, lineOffset_add lop.width_dvd ha hi]
  have hbyte : 0 < lop.width → cl.flat addr = cl.byte (addr.toNat % 32) := fun hpos => by
    have h0 := hplace 0 hpos
    rwa [BitVec.add_zero] at h0
  have hbyte' : 0 < lop.width → (cl.flat addr).toNat = cl.number (addr.toNat % 32) 1 :=
    fun hpos => congrArg BitVec.toNat (hbyte hpos)
  have hhalf : 1 < lop.width → (cl.flat.half addr).toNat = cl.number (addr.toNat % 32) 2 :=
    fun hone => by
      have h1 : cl.flat (addr + 1) = cl.byte (addr.toNat % 32 + 1) := hplace 1 hone
      rw [Flat.half, hbyte (by omega), h1, toNat_append]
      rfl
  have hword : 3 < lop.width → (cl.flat.word addr).toNat = cl.number (addr.toNat % 32) 4 :=
    fun hthree => by
      have h1 : cl.flat (addr + 1) = cl.byte (addr.toNat % 32 + 1) := hplace 1 (by omega)
      have h2 : cl.flat (addr + 2) = cl.byte (addr.toNat % 32 + 2) := hplace 2 (by omega)
      have h3 : cl.flat (addr + 3) = cl.byte (addr.toNat % 32 + 3) := hplace 3 hthree
      rw [Flat.word, hbyte (by omega), h1, h2, h3, toNat_append, toNat_append, toNat_append]
      have hnumber : cl.number (addr.toNat % 32) 4 = (cl.byte (addr.toNat % 32)).toNat +
          256 * ((cl.byte (addr.toNat % 32 + 1)).toNat + 256 *
            ((cl.byte (addr.toNat % 32 + 2)).toNat + 256 *
              (cl.byte (addr.toNat % 32 + 3)).toNat)) := rfl
      rw [hnumber]
      omega
  cases lop with
  | lb =>
      rw [LOP.width, ← hbyte' (by decide), Circuit.loadExtend, BitVec.ofNat_toNat,
        BitVec.setWidth_eq, Flat.value]
  | lh =>
      rw [LOP.width, ← hhalf (by decide), Circuit.loadExtend, BitVec.ofNat_toNat,
        BitVec.setWidth_eq, Flat.value]
  | lw =>
      rw [LOP.width, ← hword (by decide), Circuit.loadExtend, BitVec.ofNat_toNat,
        BitVec.setWidth_eq, Flat.value]
  | lbu =>
      rw [LOP.width, ← hbyte' (by decide), Circuit.loadExtend, BitVec.ofNat_toNat, Flat.value]
  | lhu =>
      rw [LOP.width, ← hhalf (by decide), Circuit.loadExtend, BitVec.ofNat_toNat, Flat.value]

end CacheLine

/-- **A memory whose proofs hold lines**: the line that a query answers with, and
the one that the callback of an update leaves. -/
structure Memory.Opens (M P : Type) {p : ℕ} [Memory M P] [MemoryProof P p] : Prop where
  query : ∀ (mem : M) (addr : U32),
    MemoryProof.data (Memory.query mem addr).2 = (Memory.query mem addr).1.scalars p
  update : ∀ {mem mem' : M} {addr : U32} {f : UpdateFn} {path : P},
    Memory.update mem addr f = (.ok path, mem') →
      ∃ cl cl', f cl = (.ok (), cl') ∧ MemoryProof.data path = cl'.scalars p

theorem paged_opens (p : ℕ) : Memory.Opens (PagedMemory p) (UncheckedMemory p) where
  query _ _ := rfl
  update {mem mem' addr f path} h := by
    have hrun : ((mem.mem.updateLine addr f).1.map fun cl =>
        (⟨cl.scalars p⟩ : UncheckedMemory p)) = .ok path := congrArg Prod.fst h
    unfold Paged.updateLine at hrun
    dsimp only at hrun
    generalize ((mem.mem.tree (Paged.pageOf addr)).getD fun _ => CacheLine.zero)
      (Paged.offsetOf addr) = cl at hrun
    rcases hf : f cl with ⟨e | ⟨⟩, cl'⟩
    · rw [hf] at hrun
      cases hrun
    · rw [hf] at hrun
      cases hrun
      exact ⟨cl, cl', hf, rfl⟩

/-- The scalars that an update below a node returns are those of the new line. -/
theorem MerkleTrie.updateInner_opens {p : ℕ} (t : MerkleTrie p) {f : UpdateFn} {h : ℕ}
    {n n' : Node p h} {addr : U32} {cl : ZMod p × ZMod p} {auth : List (Bool × ZMod p)}
    (hrun : t.updateInner f h n addr = (.ok (cl, auth), n')) :
    ∃ val val', f val = (.ok (), val') ∧ cl = val'.scalars p := by
  induction h generalizing addr cl auth with
  | zero =>
      obtain ⟨d, val⟩ : LeafNode p := n
      rw [updateInner] at hrun
      rcases hf : f val with ⟨e | ⟨⟩, val'⟩
      · rw [hf] at hrun
        cases hrun
      · rw [hf] at hrun
        dsimp only at hrun
        split at hrun
        · cases hrun
        · cases hrun
          exact ⟨val, val', hf, rfl⟩
  | succ h ih =>
      obtain ⟨d, l, r⟩ : BranchNode p (Node p h) := n
      rw [updateInner] at hrun
      dsimp only at hrun
      rcases hout : t.updateInner f h
        ((if isLeft (addr >>> 1) then l else r).getD (Node.new h)) (addr >>> 1) with
        ⟨e | ⟨cl', auth'⟩, b'⟩
      · rw [hout] at hrun
        cases hrun
      · rw [hout] at hrun
        dsimp only at hrun
        split at hrun
        · cases hrun
        · cases hrun
          exact ih hout

theorem merkle_opens (p : ℕ) : Memory.Opens (MerkleTrie p) (Path p) where
  query _ _ := rfl
  update h := by
    obtain ⟨cl, auth, root', hinner, rfl, rfl⟩ := MerkleTrie.update_eq_ok.mp h
    exact MerkleTrie.updateInner_opens _ hinner

/-! ## Evaluated instructions and the selected unit -/

theorem map_pair_eq_ok {ε α β : Type} {x : Except ε α} {a : α} {b c : β} :
    (x.map fun v => (v, b)) = .ok (a, c) ↔ x = .ok a ∧ c = b := by
  cases x with
  | error e => simp [Except.map]
  | ok v => simp [Except.map, eq_comm]

section Evaluated

variable {M P : Type} {p : ℕ} [MemoryProof P p]

/-- What an instruction leaves in `Z`, and in the proofs of the lines it opened. -/
def Leaves (regs : Regs) (z : U32) (read write : Option P) : RV32 → Prop
  | .lui _ imm => z = imm
  | .auipc _ imm => z = regs.pc + imm
  | .jal .. | .jalr .. => z = regs.pc + 4
  | .load lop _ rs1 imm => ∃ (cl : CacheLine) (q : P), read = some q ∧
      MemoryProof.data q = cl.scalars p ∧ cl.load lop (regs.x (regIdx rs1) + imm) = .ok z
  | .store sop rs1 rs2 imm => z = 0 ∧ ∃ (cl cl' : CacheLine) (q : P), write = some q ∧
      MemoryProof.data q = cl'.scalars p ∧
      cl.store sop (regs.x (regIdx rs1) + imm) (regs.x (regIdx rs2)) = (.ok (), cl')
  | .alui aop _ rs1 imm => z = aluOp aop (regs.x (regIdx rs1)) imm
  | .alu aop _ rs1 rs2 => z = aluOp aop (regs.x (regIdx rs1)) (regs.x (regIdx rs2))
  | .ecall _ => True
  | .br .. | .fence | .ebreak _ | .unimp => z = 0

/-- The proof holds a line. -/
def HoldsLine (q : P) : Prop := ∃ cl : CacheLine, MemoryProof.data q = cl.scalars p

theorem holdsLine_getD {o : Option P} {q : P} (ho : ∀ q' ∈ o, HoldsLine q') (hq : HoldsLine q) :
    HoldsLine (o.getD q) := by
  cases o with
  | none => exact hq
  | some q' => exact ho q' rfl

variable [Memory M P]

/-- **What the evaluation of an instruction leaves.** -/
structure Evaluated (vm vm' : NexusVM M P) : Prop where
  leaves : Leaves vm.regs vm'.Z vm'.readProof vm'.writeProof vm.inst.inst
  pcProof : vm'.pcProof = vm.pcProof
  read : ∀ q ∈ vm'.readProof, HoldsLine q
  write : ∀ q ∈ vm'.writeProof, HoldsLine q

/-- The state in which an instruction starts. -/
structure NexusVM.Fresh (vm : NexusVM M P) : Prop where
  Z : vm.Z = 0
  read : vm.readProof = none
  write : vm.writeProof = none

/-- A read answers with the proof of the line that it queries. -/
theorem load_eq_ok {mem : M} {lop : LOP} {addr val : U32} {q : P} :
    Memory.load mem lop addr = .ok (val, q) ↔
      (Memory.query mem addr).1.load lop addr = .ok val ∧ q = (Memory.query mem addr).2 :=
  map_pair_eq_ok

theorem readInst_eq_ok {mem : M} {addr word : U32} {q : P} :
    Memory.readInst mem addr = .ok (word, q) ↔
      (Memory.query mem addr).1.lw addr = .ok word ∧ q = (Memory.query mem addr).2 :=
  map_pair_eq_ok

/-- The cases are those of the `match` of `eval_inst`. -/
theorem evaluated_of_execInst (hM : Memory.Opens M P) {B : Build} {vm vm' : NexusVM M P}
    {next : Next} (hx : vm.regs.x 0 = 0) (hnew : vm.Fresh)
    (h : execInst B vm = (.ok next, vm')) : Evaluated vm vm' := by
  have hread : ∀ q ∈ vm.readProof, HoldsLine q := by
    rw [hnew.read]
    nofun
  have hwrite : ∀ q ∈ vm.writeProof, HoldsLine q := by
    rw [hnew.write]
    nofun
  unfold execInst at h
  cases hi : vm.inst.inst with
  | lui rd imm =>
      rw [hi] at h
      cases h
      exact ⟨by rw [hi]; exact rfl, rfl, hread, hwrite⟩
  | auipc rd imm =>
      rw [hi] at h
      cases h
      exact ⟨by rw [hi]; exact rfl, rfl, hread, hwrite⟩
  | jal rd imm =>
      rw [hi] at h
      cases h
      exact ⟨by rw [hi]; exact rfl, rfl, hread, hwrite⟩
  | jalr rd rs1 imm =>
      rw [hi] at h
      cases h
      exact ⟨by rw [hi]; exact rfl, rfl, hread, hwrite⟩
  | br bop rs1 rs2 imm =>
      rw [hi] at h
      cases h
      exact ⟨by rw [hi]; exact hnew.Z, rfl, hread, hwrite⟩
  | load lop rd rs1 imm =>
      rw [hi] at h
      dsimp only at h
      split at h
      · cases h
      · rename_i val q hload
        cases h
        obtain ⟨hval, rfl⟩ := load_eq_ok.mp hload
        rw [vm.getReg_eq_x hx] at hval ⊢
        refine ⟨?_, rfl, ?_, hwrite⟩
        · rw [hi]
          exact ⟨_, _, rfl, hM.query _ _, hval⟩
        · rintro q ⟨⟩
          exact ⟨_, hM.query _ _⟩
  | store sop rs1 rs2 imm =>
      rw [hi] at h
      dsimp only at h
      split at h
      · cases h
      · rename_i val q hload
        split at h
        · cases h
        · rename_i q' mem' hstore
          cases h
          obtain ⟨-, rfl⟩ := load_eq_ok.mp hload
          obtain ⟨cl, cl', hrun, hdata⟩ := hM.update hstore
          rw [vm.getReg_eq_x hx, vm.getReg_eq_x hx] at hrun
          refine ⟨?_, rfl, ?_, ?_⟩
          · rw [hi]
            exact ⟨hnew.Z, cl, cl', q', rfl, hdata, hrun⟩
          · rintro q ⟨⟩
            exact ⟨_, hM.query _ _⟩
          · rintro q ⟨⟩
            exact ⟨_, hdata⟩
  | alui aop rd rs1 imm =>
      rw [hi] at h
      cases h
      refine ⟨?_, rfl, hread, hwrite⟩
      rw [hi, vm.getReg_eq_x hx]
      exact rfl
  | alu aop rd rs1 rs2 =>
      rw [hi] at h
      cases h
      refine ⟨?_, rfl, hread, hwrite⟩
      rw [hi, vm.getReg_eq_x hx, vm.getReg_eq_x hx]
      exact rfl
  | fence =>
      rw [hi] at h
      cases h
      exact ⟨by rw [hi]; exact hnew.Z, rfl, hread, hwrite⟩
  | ebreak rd =>
      rw [hi] at h
      cases h
      exact ⟨by rw [hi]; exact hnew.Z, rfl, hread, hwrite⟩
  | ecall rd =>
      rw [hi] at h
      dsimp only at h
      split at h
      · cases h
      · split at h
        · split at h
          · cases h
          · rename_i hprofile
            cases h
            obtain ⟨s, t, rfl⟩ := handleProfileCycles_eq hprofile
            exact ⟨by rw [hi]; exact trivial, rfl, hread, hwrite⟩
        · cases h
          exact ⟨by rw [hi]; exact trivial, rfl, hread, hwrite⟩
  | unimp =>
      rw [hi] at h
      cases h
      exact ⟨by rw [hi]; exact hnew.Z, rfl, hread, hwrite⟩

/-- **What a step leaves**, with the line that it fetched. -/
structure NexusVM.Ended (vm vm' : NexusVM M P) (inst : Inst) : Prop where
  current : vm'.inst = inst
  leaves : Leaves vm.regs vm'.Z vm'.readProof vm'.writeProof inst.inst
  pc : vm'.regs.pc = if (vm.machine.target inst.inst).getD 0 = 0 then vm.regs.pc + 4
    else (vm.machine.target inst.inst).getD 0
  fetch : HoldsLine vm'.pcProof
  read : ∀ q ∈ vm'.readProof, HoldsLine q
  write : ∀ q ∈ vm'.writeProof, HoldsLine q

/-- The end of a step touches registers and counters only. -/
theorem ended_of_evalInst (hM : Memory.Opens M P) {B : Build} {vm vm' : NexusVM M P}
    (hx : vm.regs.x 0 = 0) {word : U32} {proof : P} {inst : Inst}
    (hread : Memory.readInst vm.mem vm.regs.pc = .ok (word, proof))
    (hparse : parseInst vm.regs.pc (toLeBytes word) = .ok inst)
    (h : evalInst B vm = (.ok (), vm')) : vm.Ended vm' inst := by
  obtain ⟨word', proof', inst', next, vm₁, hread', hparse', hexec, rfl⟩ := stages_of_evalInst h
  rw [hread] at hread'
  cases hread'
  rw [hparse] at hparse'
  cases hparse'
  obtain ⟨hpc, hlen, -⟩ := parseInst_eq_ok hparse
  have hbegin : (beginInst vm inst proof).regs.x 0 = 0 := hx
  have hev : Evaluated (beginInst vm inst proof) vm₁ :=
    evaluated_of_execInst hM hbegin ⟨rfl, rfl, rfl⟩ hexec
  obtain ⟨-, hinst, -, -⟩ := framed_of_execInst hexec
  obtain ⟨regs, steps, cycles, hfinish⟩ := finishInst_eq vm₁ next
  have hfetch : HoldsLine proof := by
    obtain ⟨-, rfl⟩ := readInst_eq_ok.mp hread
    exact ⟨_, hM.query _ _⟩
  constructor
  · rw [hfinish]
    exact hinst
  · rw [hfinish]
    exact hev.leaves
  · have htarget : next.PC = (vm.machine.target inst.inst).getD 0 :=
      target_of_execInst hbegin hpc hexec
    show (if next.PC = 0 then vm₁.inst.pc + vm₁.inst.len else next.PC) = _
    rw [hinst, htarget]
    show (if _ then inst.pc + inst.len else _) = _
    rw [hpc, hlen]
  · rw [hfinish]
    exact hev.pcProof ▸ hfetch
  · rw [hfinish]
    exact hev.read
  · rw [hfinish]
    exact hev.write

end Evaluated

namespace Circuit

variable {p : ℕ} [Fact p.Prime] {P : Type} [MemoryProof P p] {w : Witness P} {proof : P}
  {cl cl' : CacheLine} {f : Forge} {n : ℕ}

/-- The half of a line that the address selects. -/
theorem lineHalf_val (hp : 2 ^ 128 < p) (h : MemoryProof.data proof = cl.scalars p) :
    (lineHalf w proof).val = cl.number (16 * ((w.X + w.I).toNat % 32 / 16)) 16 := by
  have hbit : (w.X + w.I).getLsbD 4 = decide ((w.X + w.I).toNat / 2 ^ 4 % 2 = 1) := by
    rw [← BitVec.testBit_toNat, Nat.testBit_eq_decide_div_mod_eq]
  have hpow : (256 : ℕ) ^ 16 = 2 ^ 128 := by norm_num
  have hcast : ∀ start, ((cl.number start 16 : ℕ) : ZMod p).val = cl.number start 16 := by
    intro start
    have hlt := cl.number_lt start 16
    rw [hpow] at hlt
    exact ZMod.val_natCast_of_lt (hlt.trans hp)
  rw [lineHalf, h, hbit]
  by_cases hone : (w.X + w.I).toNat / 2 ^ 4 % 2 = 1
  · have hstart : 16 * ((w.X + w.I).toNat % 32 / 16) = 16 := by omega
    rw [decide_eq_true hone, if_pos rfl, hstart]
    exact hcast 16
  · have hstart : 16 * ((w.X + w.I).toNat % 32 / 16) = 0 := by omega
    rw [decide_eq_false hone, if_neg Bool.false_ne_true, hstart]
    exact hcast 0

/-- A half of a line has 128 bits. -/
theorem lineHalf_lt (hp : 2 ^ 128 < p) (h : MemoryProof.data proof = cl.scalars p) :
    (lineHalf w proof).val < 2 ^ 128 := by
  have hpow : (256 : ℕ) ^ 16 = 2 ^ 128 := by norm_num
  rw [lineHalf_val hp h, ← hpow]
  exact cl.number_lt _ 16

/-- The unit of an aligned address is the number of its bytes. -/
theorem chosen_eq (hp : 2 ^ 128 < p) (h : MemoryProof.data proof = cl.scalars p) (hn : n ∣ 4)
    (ha : (w.X + w.I).toNat % n = 0) (hf : f.unit (8 * n) = (w.X + w.I).toNat % 16 / n) :
    chosen w f proof (8 * n) = cl.number ((w.X + w.I).toNat % 32) n := by
  rw [chosen, unitOf, lineHalf_val hp h, hf]
  generalize (w.X + w.I).toNat = a at ha
  have hcases := CacheLine.width_cases hn
  have hquot : n * (a % 16 / n) = a % 16 := by
    rcases hcases with rfl | rfl | rfl <;> omega
  have hpow : ∀ k, 2 ^ (8 * k) = 256 ^ k := fun k => pow_mul 2 8 k
  have hfit : a % 16 + n ≤ 16 := by
    rcases hcases with rfl | rfl | rfl <;> omega
  have hstart : 16 * (a % 32 / 16) + a % 16 = a % 32 := by omega
  rw [mul_assoc, hquot, hpow, hpow, cl.number_part hfit, hstart]

/-- After a store the unit of its address is what was stored. -/
theorem chosen_store (hp : 2 ^ 128 < p) {sop : SOP} {val : U32}
    (h : MemoryProof.data proof = cl'.scalars p)
    (hrun : cl.store sop (w.X + w.I) val = (.ok (), cl'))
    (hf : f.unit (8 * sop.width) = (w.X + w.I).toNat % 16 / sop.width) :
    chosen w f proof (8 * sop.width) = val.toNat % 256 ^ sop.width := by
  have ha : (w.X + w.I).toNat % sop.width = 0 := by
    by_contra hne
    rw [cl.store_misaligned val hne] at hrun
    cases hrun
  obtain ⟨cl'', hrun', hbytes⟩ := cl.store_aligned val ha
  obtain rfl : cl'' = cl' := congrArg Prod.snd (hrun'.symm.trans hrun)
  rw [chosen_eq hp h sop.width_dvd ha hf, CacheLine.number, ← leNat_extract val sop.width_dvd,
    List.range'_eq_map_range, List.map_map]
  congr 1
  refine List.map_congr_left fun k hk => ?_
  have hlt : k < sop.width := List.mem_range.mp hk
  have hfit : (w.X + w.I).toNat % 32 + sop.width ≤ 32 := by
    generalize (w.X + w.I).toNat = a at ha
    rcases CacheLine.width_cases sop.width_dvd with hw | hw | hw <;> rw [hw] at ha ⊢ <;> omega
  rw [Function.comp_apply, hbytes _ (by omega), if_pos ⟨by omega, by omega⟩,
    Nat.add_sub_cancel_left]

/-- The value of a load from the line that a proof holds. -/
theorem load_chosen (hp : 2 ^ 128 < p) {lop : LOP} {z : U32}
    (h : MemoryProof.data proof = cl.scalars p) (hrun : cl.load lop (w.X + w.I) = .ok z)
    (hf : f.unit (8 * lop.width) = (w.X + w.I).toNat % 16 / lop.width) :
    z = loadExtend lop (chosen w f proof (8 * lop.width)) := by
  rw [cl.load_eq_flat] at hrun
  have ha : (w.X + w.I).toNat % lop.width = 0 := by
    by_contra hne
    rw [Flat.load_misaligned hne] at hrun
    cases hrun
  rw [Flat.load_aligned ha, cl.value_eq_extend ha] at hrun
  rw [chosen_eq hp h lop.width_dvd ha hf]
  exact (Except.ok.inj hrun).symm

end Circuit

end NexusVm
