import NexusVm.Builder.Same
import NexusVm.Circuit.Scoped
import NexusVm.Memory.Trie

/-!
# Memory proofs in the step circuit

`vm/src/circuit/step.rs` adds the constraints of the three memory proofs to the
rows of the step circuit, on the columns that `init_cs` allocates first.  The
hash gadgets come from another crate and are a parameter: two functions.
-/

namespace NexusVm.Circuit

open NexusVm.Builder

/-- The hash gadgets; a gadget has no error. -/
structure HashGadget (p : ℕ) where
  leaf : ZMod p × ZMod p → ZMod p
  compress : ZMod p → ZMod p → ZMod p

/-- The loop of `verify_circuit`; the directions and digests are the values of
the variables that it allocates. -/
def climbCircuit {p : ℕ} (H : HashGadget p) : ZMod p → List (Bool × ZMod p) → ZMod p
  | hash, [] => hash
  | hash, (b, d) :: auth =>
      climbCircuit H (if b then H.compress hash d else H.compress d hash) auth

/-- The constraints of `verify_circuit`. -/
def verifyCircuit {p : ℕ} (H : HashGadget p) (auth : List (Bool × ZMod p)) (root : ZMod p)
    (leaf : ZMod p × ZMod p) : Prop :=
  climbCircuit H (H.leaf leaf) auth = root

/-- The variables that the three memory proofs allocate. -/
structure Auths (p : ℕ) where
  pc : List (Bool × ZMod p)
  read : List (Bool × ZMod p)
  write : List (Bool × ZMod p)

/-- The first column of the memory contents. -/
def memColumn : ℕ := arity * 2 + 1

section Accepts

variable {p : ℕ} [Fact p.Prime]

/-- An assignment of the columns and of the variables of the memory proofs
satisfies all constraints of a step.  The lengths are those of the paths of the
witness that the constraints were generated from. -/
structure Accepts (H : HashGadget p) (w : Witness (Path p)) (cs : R1CS Var (ZMod p))
    (z : ℕ → ZMod p) (auths : Auths p) : Prop where
  one : z 0 = 1
  rows : cs.Sat z
  pcLength : auths.pc.length = w.pcProof.auth.length
  readLength : auths.read.length = w.readProof.auth.length
  writeLength : auths.write.length = w.writeProof.auth.length
  pcPath : verifyCircuit H auths.pc (z arity) (z memColumn, z (memColumn + 1))
  readPath : verifyCircuit H auths.read (z arity) (z (memColumn + 2), z (memColumn + 3))
  writePath : verifyCircuit H auths.write (z (arity * 2)) (z (memColumn + 4), z (memColumn + 5))

end Accepts

/-- The names whose columns `step.rs` computes from the arity. -/
def fixedNames : List Var :=
  [.root, .ROOT, .lo .pcMem, .hi .pcMem, .lo .readMem, .hi .readMem, .lo .writeMem, .hi .writeMem]

theorem columns_sample :
    (R1CS.run (initCs sample) { (default : R1CS Var (ZMod 3)) with arity := arity }).map
      (fun cs => fixedNames.map cs.vars) =
      some ([arity, arity * 2, memColumn, memColumn + 1, memColumn + 2, memColumn + 3,
        memColumn + 4, memColumn + 5].map some) := by
  decide +kernel

section Columns

variable {p : ℕ} [Fact p.Prime] {P : Type} [MemoryProof P p]

/-- The columns of `init_cs` are those that `step.rs` assumes. -/
theorem columns {w : Witness P} {cs : R1CS Var (ZMod p)} (h : step w false = some cs) :
    fixedNames.map cs.var = [arity, arity * 2, memColumn, memColumn + 1, memColumn + 2,
      memColumn + 3, memColumn + 4, memColumn + 5] := by
  obtain ⟨ty, hty⟩ := exists_typeOf h
  obtain ⟨S, hS, -⟩ := exists_steps hty
  rw [Scope.steps_append, Option.bind_eq_some_iff] at hS
  obtain ⟨S₁, hinit, hbody⟩ := hS
  have hrun := run_of_step h
  rw [R1CS.run_append, Option.bind_eq_some_iff] at hrun
  obtain ⟨cs₁, hr₁, hr₂⟩ := hrun
  have hsample := columns_sample
  rw [Option.map_eq_some_iff] at hsample
  obtain ⟨cs₀, hr₀, hcols⟩ := hsample
  have hlike : Like (fun (_ : ZMod p) (_ : ZMod 3) => True) (initCs w) (initCs sample) :=
    like_initCs w sample
  have hstart : R1CS.SameLayout { (default : R1CS Var (ZMod p)) with arity := arity }
      { (default : R1CS Var (ZMod 3)) with arity := arity } := ⟨rfl, rfl, rfl⟩
  have hsame := hstart.run hlike hr₁ hr₀
  have hm := (matches_empty arity).run hinit hr₁
  have hvar : ∀ n j, isLocal n = false → cs₀.vars n = some j → cs.var n = j := by
    intro n j hl hj
    rw [← hsame.vars] at hj
    exact R1CS.var_eq (hm.vars_run hbody hr₂ hl hj)
  simp only [fixedNames, List.map_cons, List.map_nil, List.cons.injEq, and_true] at hcols ⊢
  obtain ⟨h₁, h₂, h₃, h₄, h₅, h₆, h₇, h₈⟩ := hcols
  exact ⟨hvar _ _ rfl h₁, hvar _ _ rfl h₂, hvar _ _ rfl h₃, hvar _ _ rfl h₄, hvar _ _ rfl h₅,
    hvar _ _ rfl h₆, hvar _ _ rfl h₇, hvar _ _ rfl h₈⟩

end Columns

end NexusVm.Circuit
