import NexusVm.Nova.Circuits.Params
import NexusVm.Nova.Circuits.SequentialAugmented

/-!
# Sequential proofs

`nova/src/circuits/nova/sequential/mod.rs`: incrementally verifiable computation, one step after the
other.
-/

namespace NexusVm.Nova.Circuits.Sequential

open R1cs Cyclefold Synth

/-- `IVCProofNonBase`. -/
structure IVCProofNonBase (n b : ℕ) (G1 G2 : Type) where
  U : RelaxedR1CSInstance (ZMod n) G1
  W : RelaxedR1CSWitness (ZMod n)
  U_secondary : RelaxedR1CSInstance (ZMod b) G2
  W_secondary : RelaxedR1CSWitness (ZMod b)
  u : R1CSInstance (ZMod n) G1
  w : R1CSWitness (ZMod n)
  i : UInt64
  z_i : List (ZMod n)

/-- `IVCProof`. -/
structure IVCProof (n b : ℕ) (G1 G2 : Type) where
  z_0 : List (ZMod n)
  non_base : Option (IVCProofNonBase n b G1 G2)

namespace IVCProof

variable {n b : ℕ} {G1 G2 : Type}

/-- `IVCProof::new`. -/
def new (z_0 : List (ZMod n)) : IVCProof n b G1 G2 := ⟨z_0, none⟩

/-- `IVCProof::z_i`. -/
def z_i (proof : IVCProof n b G1 G2) : List (ZMod n) :=
  (proof.non_base.map IVCProofNonBase.z_i).getD proof.z_0

/-- `IVCProof::step_num`. -/
def step_num (proof : IVCProof n b G1 G2) : UInt64 :=
  (proof.non_base.map IVCProofNonBase.i).getD 0

end IVCProof

/-- `i.saturating_add(1)`. -/
def saturatingSucc (i : UInt64) : UInt64 := if i.toNat + 1 < 2 ^ 64 then i + 1 else i

section Proofs

variable {n b : ℕ} {G1 G2 PP1 PP2 : Type} [Fact n.Prime] [Fact b.Prime] [AddCommGroup G1]
  [Module (ZMod n) G1] [AddCommGroup G2] [Module (ZMod b) G2]
  (c : Setting n b G1 G2 PP1 PP2) (SC : StepCircuit (ZMod n))

/-- The augmented circuit of a step circuit, with its shape. -/
abbrev System (c : Setting n b G1 G2 PP1 PP2) (SC : StepCircuit (ZMod n)) : Type :=
  Arithmetization (ZMod n) (SC.Aux × InputVar n b G2) (fun v => v.2.Valid SC)
    (fun v hash_input => (generateConstraints c SC v.1 v.2 hash_input).holds)

/-- `NovaAugmentedCircuitInputVar::new_variable` on a base case. -/
def allocBase (vk : ZMod n) (z_0 : List (ZMod n)) : InputVar n b G2 where
  vk := vk
  i := 0
  z_0 := z_0
  z_i := z_0
  node := baseNode c

/-- What a step folds before its synthesis. -/
structure Prepared (n b : ℕ) (G1 G2 : Type) where
  i_next : UInt64
  input : InputVar n b G2
  U : RelaxedR1CSInstance (ZMod n) G1
  W : RelaxedR1CSWitness (ZMod n)
  U_secondary : RelaxedR1CSInstance (ZMod b) G2
  W_secondary : RelaxedR1CSWitness (ZMod b)

/-- The first part of `prove_step`, with the allocation of the input. -/
def prepare (params : PublicParams (ZMod n) PP1 PP2) (proof : IVCProof n b G1 G2) :
    Run Cyclefold.Error (Prepared n b G1 G2) :=
  match proof.non_base with
  | some non_base => do
      let fold ← c.prove params.pp params.pp_secondary params.digest params.shape non_base.U
        non_base.W non_base.U_secondary non_base.W_secondary non_base.u non_base.w
      let node ← allocNode c non_base.U non_base.U_secondary non_base.u fold.proof
      let input : InputVar n b G2 :=
        ⟨params.digest, non_base.i.toNat, proof.z_0, non_base.z_i, node⟩
      .ok ⟨saturatingSucc non_base.i, input, fold.U, fold.W, fold.U_secondary, fold.W_secondary⟩
  | none =>
      .ok ⟨1, allocBase c params.digest proof.z_0, newInstance params.shape,
        zeroWitness params.shape, newInstance c.secondary.shape, zeroWitness c.secondary.shape⟩

variable {c SC} (system : System c SC) (params : PublicParams (ZMod n) PP1 PP2)

/-- The instance and the witness of a synthesis, and the returned state. -/
def synthesize (input : InputVar n b G2) :
    R1CSInstance (ZMod n) G1 × R1CSWitness (ZMod n) × List (ZMod n) :=
  let aux := SC.hint input.i input.z_i
  let hash_input := hash c (body c SC aux input).value.1
  let W := system.witness (aux, input)
  (⟨c.C1.commit params.pp W, [1, hash_input]⟩, ⟨W⟩,
    (generateConstraints c SC aux input hash_input).value)

/-- `IVCProof::prove_step`. -/
def proveStep (proof : IVCProof n b G1 G2) : Run Cyclefold.Error (IVCProof n b G1 G2) := do
  let prepared ← prepare c params proof
  let out := synthesize system params prepared.input
  .ok
    { z_0 := proof.z_0
      non_base := some
        { U := prepared.U
          W := prepared.W
          U_secondary := prepared.U_secondary
          W_secondary := prepared.W_secondary
          u := out.1
          w := out.2.1
          i := prepared.i_next
          z_i := out.2.2 } }

/-- `m` calls of `prove_step`. -/
def proveSteps (z_0 : List (ZMod n)) : ℕ → Run Cyclefold.Error (IVCProof n b G1 G2)
  | 0 => .ok (.new z_0)
  | m + 1 => proveSteps z_0 m >>= proveStep system params

/-! ## Verification -/

section Verify

variable [DecidableEq G1] [DecidableEq G2]

variable (c) in
/-- `IVCProof::verify_steps`. -/
def verifySteps (proof : IVCProof n b G1 G2) (num_steps : UInt64) :
    Run Cyclefold.Error Unit :=
  match proof.non_base with
  | none => .error (.error (.r1cs .notSatisfied))
  | some non_base => do
      Run.failIf (num_steps ≠ non_base.i) (.r1cs .notSatisfied)
      let hash := hash c (transcript c params.digest non_base.i.toNat proof.z_0 non_base.z_i
        (relaxedMap c.cycle.affine1 non_base.U) non_base.U_secondary)
      -- `u.X[1]` is out of bounds for a shorter vector
      Run.assert (1 < non_base.u.X.length)
      Run.failIf (hash ≠ non_base.u.X.getD 1 0) (.r1cs .notSatisfied)
      (params.shape.isRelaxedSatisfied c.C1 non_base.U non_base.W params.pp).mapError .r1cs
      (c.secondary.shape.isRelaxedSatisfied c.C2 non_base.U_secondary non_base.W_secondary
        params.pp_secondary).mapError .r1cs
      (params.shape.isSatisfied c.C1 non_base.u non_base.w params.pp).mapError .r1cs

end Verify

/-- What an accepted proof fulfills, apart from the number of steps. -/
structure Verified (c : Setting n b G1 G2 PP1 PP2) (params : PublicParams (ZMod n) PP1 PP2)
    (z_0 : List (ZMod n)) (non_base : IVCProofNonBase n b G1 G2) : Prop where
  hash : hash c (transcript c params.digest non_base.i.toNat z_0 non_base.z_i
    (relaxedMap c.cycle.affine1 non_base.U) non_base.U_secondary) = non_base.u.X.getD 1 0
  length : 1 < non_base.u.X.length
  primary : RelaxedSatisfied c.C1 params.shape non_base.U non_base.W params.pp
  secondary : RelaxedSatisfied c.C2 c.secondary.shape non_base.U_secondary non_base.W_secondary
    params.pp_secondary
  strict : Satisfied c.C1 params.shape non_base.u non_base.w params.pp

theorem verifySteps_eq_ok [DecidableEq G1] [DecidableEq G2] {proof : IVCProof n b G1 G2}
    {num_steps : UInt64} : verifySteps c params proof num_steps = .ok () ↔
      ∃ non_base, proof.non_base = some non_base ∧ num_steps = non_base.i ∧
        Verified c params proof.z_0 non_base := by
  rw [verifySteps]
  cases proof.non_base with
  | none =>
      constructor
      · intro h
        cases h
      · rintro ⟨non_base, h, -⟩
        cases h
  | some non_base =>
      simp only [bind_eq_ok, Unique.exists_iff, PUnit.default_eq_unit, assert_eq_ok, failIf_eq_ok,
        mapError_eq_ok, not_not, isRelaxedSatisfied_iff, isSatisfied_iff, Option.some.injEq,
        exists_eq_left']
      constructor
      · rintro ⟨hi, hlen, hhash, hprimary, hsecondary, hstrict⟩
        exact ⟨hi, hhash, hlen, hprimary, hsecondary, hstrict⟩
      · rintro ⟨hi, h⟩
        exact ⟨hi, h.length, h.hash, h.primary, h.secondary, h.strict⟩

end Proofs

end NexusVm.Nova.Circuits.Sequential
