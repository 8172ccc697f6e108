import NexusVm.Circuit.Fabricate
import NexusVm.Circuit.Step
import Mathlib.NumberTheory.LucasLehmer

/-!
# Assignments that a prover is free to choose

From a sound draft one gets an assignment of the circuit of any witness
(`exists_accepts`).  `plain` is the draft that executes an instruction on given
registers as the machine does, except that its immediate and its flags can be
chosen.
-/

namespace NexusVm.Circuit

open NexusVm.Builder

section Free

variable {p : ℕ} [Fact p.Prime]

/-- The drafts of one instruction, whose lines hold zeros, but for the stored value. -/
def plain (regs : Regs) (word : U32) (J : ℕ) (I : U32) : Draft p :=
  let d : Draft p :=
    { regs := regs, word := word, J := J, I := I, f := ⟨0, false, false, false, false, fun _ => 0⟩
      pcProof := ⟨0, (0, 0), []⟩, readProof := ⟨0, (0, 0), []⟩, writeProof := ⟨0, (0, 0), []⟩ }
  { d with
    f := ⟨0, d.X.ult d.Y, false, d.X.ult I, false, fun _ => 0⟩
    writeProof := ⟨0, ((d.Y.toNat : ZMod p), (d.Y.toNat : ZMod p)), []⟩ }

/-- A word, as a line's half, is small. -/
theorem val_word (hp : 2 ^ 32 < p) (y : U32) : (y.toNat : ZMod p).val = y.toNat :=
  ZMod.val_natCast_of_lt (by have := y.isLt; omega)

/-- The first unit of half a line that holds a word. -/
theorem chosen_plain (hp : 2 ^ 32 < p) {regs : Regs} {word : U32} {J : ℕ} {I : U32} (width : ℕ) :
    chosen (plain regs word J I : Draft p).pre (plain regs word J I : Draft p).f
      (plain regs word J I : Draft p).writeProof width =
      (plain regs word J I : Draft p).Y.toNat % 2 ^ width := by
  have hhalf : lineHalf (plain regs word J I : Draft p).pre
      (plain regs word J I : Draft p).writeProof =
      (((plain regs word J I : Draft p).Y.toNat : ℕ) : ZMod p) := by
    unfold lineHalf
    split_ifs <;> rfl
  have hunit : (plain regs word J I : Draft p).f.unit width = 0 := rfl
  rw [chosen, hhalf, unitOf, hunit, val_word hp, Nat.mul_zero, pow_zero, Nat.div_one]

theorem plain_sound (hp : 2 ^ 32 < p) {regs : Regs} {word I : U32} {J : ℕ}
    (hopc : (opcode word).toNat ∈ opcodes) (hdec : decodes (keyOf word) J = true) :
    (plain regs word J I : Draft p).Sound where
  opcode := hopc
  decodes := hdec
  sub := fun _ => rfl
  subi := fun _ => rfl
  eqXY := fun h => by cases h
  eqXI := fun h => by cases h
  units := fun width hw => by
    show 0 < 128 / width
    fin_cases hw <;> decide
  readLo := by
    show (0 : ZMod p).val < 2 ^ 128
    rw [ZMod.val_zero]
    positivity
  readHi := by
    show (0 : ZMod p).val < 2 ^ 128
    rw [ZMod.val_zero]
    positivity
  writeLo := by
    show (((plain regs word J I : Draft p).Y.toNat : ℕ) : ZMod p).val < 2 ^ 128
    rw [val_word hp]
    have := (plain regs word J I : Draft p).Y.isLt
    omega
  writeHi := by
    show (((plain regs word J I : Draft p).Y.toNat : ℕ) : ZMod p).val < 2 ^ 128
    rw [val_word hp]
    have := (plain regs word J I : Draft p).Y.isLt
    omega
  sb := fun _ => (chosen_plain hp 8).symm
  sh := fun _ => (chosen_plain hp 16).symm
  sw := fun _ => by
    rw [chosen_plain hp, Nat.mod_eq_of_lt]
    exact (plain regs word J I : Draft p).Y.isLt

/-- The opcode of a word that parses is among those tested. -/
theorem opcode_mem_of_parse {word : U32} {i : RV32} (h : parseU32 word = some i) :
    (opcode word).toNat ∈ opcodes := by
  unfold parseU32 at h
  split at h <;> first
    | (rename_i hopc; rw [hopc]; decide)
    | cases h

variable {d : Draft p}

variable {cs : R1CS Var (ZMod p)}

/-- **A sound draft is accepted** by the circuit of any witness. -/
theorem exists_accepted (hp : 2 ^ 32 < p) {P : Type} [MemoryProof P p] {w : Witness P}
    (h : step w false = some cs) (hd : d.Sound) :
    ∃ z, z 0 = 1 ∧ cs.Sat z ∧ ∀ n ∈ mainNames, z (cs.var n) = val d.witness d.f n :=
  exists_sat hp h hd.fitting

/-- The memory proofs of a draft that verify. -/
structure Draft.Verified (H : HashGadget p) (d : Draft p) (auths : Auths p) : Prop where
  pc : verifyCircuit H auths.pc d.pcProof.root d.pcProof.leaf
  read : verifyCircuit H auths.read d.pcProof.root d.readProof.leaf
  write : verifyCircuit H auths.write d.writeProof.root d.writeProof.leaf

/-- The lengths of the paths that a circuit is built for. -/
structure Auths.Fit (auths : Auths p) (w : Witness (Path p)) : Prop where
  pc : auths.pc.length = w.pcProof.auth.length
  read : auths.read.length = w.readProof.auth.length
  write : auths.write.length = w.writeProof.auth.length

variable {H : HashGadget p} {auths : Auths p}

/-- **A sound draft with memory proofs is accepted** by all constraints of a step. -/
theorem exists_accepts (hp : 2 ^ 32 < p) {w : Witness (Path p)} (h : step w false = some cs)
    (hd : d.Sound) (hv : d.Verified H auths) (hlen : auths.Fit w) :
    ∃ z, Accepts H w cs z auths ∧ ∀ n ∈ mainNames, z (cs.var n) = val d.witness d.f n := by
  obtain ⟨z, hz, hsat, hval⟩ := exists_accepted hp h hd
  have hcols := columns h
  simp only [fixedNames, List.map_cons, List.map_nil, List.cons.injEq, and_true] at hcols
  obtain ⟨h₁, h₂, h₃, h₄, h₅, h₆, h₇, h₈⟩ := hcols
  have hroot : z arity = d.pcProof.root := h₁ ▸ hval .root (by decide)
  have hROOT : z (arity * 2) = d.writeProof.root := h₂ ▸ hval .ROOT (by decide)
  have hline : ∀ {v : Var} {i j : ℕ} (proof : Path p), cs.var (.lo v) = i → cs.var (.hi v) = j →
      Var.lo v ∈ mainNames → Var.hi v ∈ mainNames →
      val d.witness d.f (.lo v) = proof.leaf.1 → val d.witness d.f (.hi v) = proof.leaf.2 →
      (z i, z j) = proof.leaf := by
    intro v i j proof hi hj hlo hhi hvlo hvhi
    rw [← hi, ← hj, hval _ hlo, hval _ hhi, hvlo, hvhi]
  refine ⟨z, ⟨hz, hsat, hlen.pc, hlen.read, hlen.write, ?_, ?_, ?_⟩, hval⟩
  · rw [hroot, hline d.pcProof h₃ h₄ (by decide) (by decide) rfl rfl]
    exact hv.pc
  · rw [hroot, hline d.readProof h₅ h₆ (by decide) (by decide) rfl rfl]
    exact hv.read
  · rw [hROOT, hline d.writeProof h₇ h₈ (by decide) (by decide) rfl rfl]
    exact hv.write

/-- The draft with the roots that its lines and some paths give.  Both lines of
the input memory are the read line. -/
def Draft.close (d : Draft p) (H : HashGadget p) (auths : Auths p) : Draft p :=
  { d with
    pcProof := ⟨climbCircuit H (H.leaf d.readProof.leaf) auths.pc, d.readProof.leaf, []⟩
    writeProof := ⟨climbCircuit H (H.leaf d.writeProof.leaf) auths.write, d.writeProof.leaf, []⟩ }

omit [Fact p.Prime] in
theorem Draft.Sound.close (h : d.Sound) :
    (d.close H auths).Sound :=
  ⟨h.opcode, h.decodes, h.sub, h.subi, h.eqXY, h.eqXI, h.units, h.readLo, h.readHi, h.writeLo,
    h.writeHi, h.sb, h.sh, h.sw⟩

omit [Fact p.Prime] in
theorem Draft.close_verified (h : auths.read = auths.pc) :
    (d.close H auths).Verified H auths where
  pc := rfl
  read := by
    rw [h]
    rfl
  write := rfl

end Free

section Idle

/-- A prime of more than 128 bits. -/
def prime521 : ℕ := 2 ^ 521 - 1

instance : Fact prime521.Prime := ⟨lucas_lehmer_sufficiency 521 (by norm_num) (by norm_num)⟩

theorem lt_two_pow_sub_one {n : ℕ} (h : 128 + 1 ≤ n) : 2 ^ 128 < 2 ^ n - 1 := by
  have hpow : 2 ^ (128 + 1) ≤ 2 ^ n := Nat.pow_le_pow_right (by decide) h
  rw [pow_succ] at hpow
  omega

theorem lt_prime521 : 2 ^ 128 < prime521 := lt_two_pow_sub_one (by decide)

-- a number of 157 digits is never computed
attribute [irreducible] prime521

theorem word_lt_prime521 : 2 ^ 32 < prime521 := lt_trans (by norm_num) lt_prime521

variable {p : ℕ} [Fact p.Prime]

/-- The draft of `addi x0, x0, 0` on cleared registers, with paths of full height. -/
def idle : Draft p :=
  let path : Path p := ⟨0, (0, 0), List.replicate cacheLog (true, 0)⟩
  { regs := ⟨0, fun _ => 0⟩, word := 0x13, J := 19, I := 0
    f := ⟨0, false, true, false, true, fun _ => 0⟩
    pcProof := path, readProof := path, writeProof := path }

theorem idle_sound : (idle : Draft p).Sound where
  opcode := by
    show (opcode 0x13#32).toNat ∈ opcodes
    decide
  decodes := by
    show decodes (keyOf 0x13#32) 19 = true
    decide
  sub := fun _ => rfl
  subi := fun _ => rfl
  eqXY := fun _ => ⟨rfl, rfl⟩
  eqXI := fun _ => ⟨rfl, rfl⟩
  units := fun width hw => by
    show 0 < 128 / width
    fin_cases hw <;> decide
  readLo := by
    show (0 : ZMod p).val < 2 ^ 128
    rw [ZMod.val_zero]
    positivity
  readHi := by
    show (0 : ZMod p).val < 2 ^ 128
    rw [ZMod.val_zero]
    positivity
  writeLo := by
    show (0 : ZMod p).val < 2 ^ 128
    rw [ZMod.val_zero]
    positivity
  writeHi := by
    show (0 : ZMod p).val < 2 ^ 128
    rw [ZMod.val_zero]
    positivity
  sb := fun h => by cases h
  sh := fun h => by cases h
  sw := fun h => by cases h

theorem idle_genuine : Genuine (idle : Draft p).witness (idle : Draft p).f where
  imm := fun ty hty => by
    have hopc : typeOf (opcode 0x13#32).toNat = some .A := by decide
    obtain rfl := Option.some.inj (hopc.symm.trans hty)
    show (0 : U32) = immA 0x13#32
    decide
  x0 := rfl
  ltXY := rfl
  eqXY := rfl
  ltXI := rfl
  eqXI := rfl
  unit := by
    show 0 = ((0 + 0 : U32) &&& 0xf).toNat ∧ 0 = ((0 + 0 : U32) &&& 0xf).toNat / 2 ∧
      0 = ((0 + 0 : U32) &&& 0xf).toNat / 2 / 2
    decide

/-- The circuit of the idle step is built. -/
theorem idle_built (hp : 2 ^ 32 < p) :
    ∃ cs : R1CS Var (ZMod p), step (idle : Draft p).witness false = some cs := by
  have hJ : (idle : Draft p).witness.J ≠ 20 := by
    show 19 ≠ 20
    decide
  obtain ⟨cs, hcs, -⟩ := step_computes hp idle_sound.fitting.toLoose idle_genuine hJ
  exact ⟨cs, hcs⟩

end Idle

end NexusVm.Circuit
