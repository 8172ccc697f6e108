import NexusVm.Nova.Circuits.SequentialProof
import NexusVm.Nova.Circuits.SupernovaAugmented

/-!
# Non-uniform proofs

`nova/src/circuits/supernova/mod.rs`.  There is one accumulator for each circuit; it is missing
until an instance of the circuit is folded.
-/

namespace NexusVm.Nova.Circuits.Supernova

open R1cs Cyclefold Synth NexusVm.Nova.Circuits.Sequential

/-- `PublicParams`; the secondary shape and the sponge belong to the setting. -/
structure PublicParams (F PP1 PP2 : Type) where
  shapes : List (R1CSShape F)
  pp : PP1
  pp_secondary : PP2
  digest : F

/-- `NIVCProofNonBase`. -/
structure NIVCProofNonBase (n b : ℕ) (G1 G2 : Type) where
  U : List (Option (RelaxedR1CSInstance (ZMod n) G1))
  W : List (Option (RelaxedR1CSWitness (ZMod n)))
  U_secondary : List (Option (RelaxedR1CSInstance (ZMod b) G2))
  W_secondary : List (Option (RelaxedR1CSWitness (ZMod b)))
  u : R1CSInstance (ZMod n) G1
  w : R1CSWitness (ZMod n)
  i : UInt64
  pc : UInt64
  z_i : List (ZMod n)

/-- `NIVCProof`. -/
structure NIVCProof (n b : ℕ) (G1 G2 : Type) where
  z_0 : List (ZMod n)
  non_base : Option (NIVCProofNonBase n b G1 G2)

/-- `NIVCProof::new`. -/
def NIVCProof.new {n b : ℕ} {G1 G2 : Type} (z_0 : List (ZMod n)) : NIVCProof n b G1 G2 :=
  ⟨z_0, none⟩

/-- `list[i]`, which panics out of bounds. -/
def index {E α : Type} (list : List α) (i : ℕ) : Run E α :=
  match list[i]? with
  | none => .error .panic
  | some a => .ok a

theorem index_eq_ok {E α : Type} {list : List α} {i : ℕ} {a : α} :
    (index list i : Run E α) = .ok a ↔ list[i]? = some a := by
  rw [index]
  cases list[i]? with
  | none =>
      constructor
      · intro h
        cases h
      · intro h
        cases h
  | some a' => simp

/-- `u.as_ref().zip(w.as_ref())` on two vectors, without the missing ones. -/
def present {α β : Type} (us : List (Option α)) (ws : List (Option β)) : List (α × β) :=
  (us.zip ws).filterMap fun entry => entry.1.bind fun u => entry.2.map fun w => (u, w)

section Proofs

variable {n b : ℕ} {G1 G2 PP1 PP2 : Type} [Fact n.Prime] [Fact b.Prime] [AddCommGroup G1]
  [Module (ZMod n) G1] [AddCommGroup G2] [Module (ZMod b) G2]
  (c : Setting n b G1 G2 PP1 PP2)

/-- `U.unwrap_or_else(|| RelaxedR1CSInstance::new(&params.shapes[i]))`. -/
def unwrapInstance (params : PublicParams (ZMod n) PP1 PP2)
    (entry : Option (RelaxedR1CSInstance (ZMod n) G1) × ℕ) : RelaxedR1CSInstance (ZMod n) G1 :=
  entry.1.getD ⟨0, 0, (params.shapes[entry.2]?.map fun shape =>
    List.replicate shape.numIo 0).getD []⟩

/-- What the verifier absorbs: a default instance for each missing one. -/
def transcriptNative (params : PublicParams (ZMod n) PP1 PP2) (z_0 : List (ZMod n))
    (non_base : NIVCProofNonBase n b G1 G2) : List (List (ZMod n)) :=
  [[params.digest], [(non_base.i.toNat : ZMod n)], [(non_base.pc.toNat : ZMod n)], z_0,
      non_base.z_i] ++
    (non_base.U.zipIdx.map fun entry => relaxedElements
      (relaxedMap c.cycle.affine1 (unwrapInstance params entry))) ++
    non_base.U_secondary.map fun U => relaxedElementsSecondary
      (relaxedMap c.cycle.affine2 (U.getD (newInstance c.secondary.shape)))

section Verify

variable [DecidableEq G1] [DecidableEq G2]

/-- `NIVCProof::verify`, for a number of circuits. -/
def verify (numCircuits : ℕ) (params : PublicParams (ZMod n) PP1 PP2)
    (proof : NIVCProof n b G1 G2) (num_steps : UInt64) : Run Cyclefold.Error Unit :=
  match proof.non_base with
  | none => .error (.error (.r1cs .notSatisfied))
  | some non_base => do
      Run.assert (non_base.U.length = numCircuits)
      Run.assert (non_base.W.length = numCircuits)
      Run.assert (non_base.U_secondary.length = numCircuits)
      Run.assert (non_base.W_secondary.length = numCircuits)
      Run.failIf (num_steps ≠ non_base.i) (.r1cs .notSatisfied)
      -- `params.shapes[i]` for each missing instance
      Run.assert (∀ entry ∈ non_base.U.zipIdx, entry.1.isNone → entry.2 < params.shapes.length)
      let hash := hash c (transcriptNative c params proof.z_0 non_base)
      -- `u.X[1]` is out of bounds for a shorter vector
      Run.assert (1 < non_base.u.X.length)
      Run.failIf (hash ≠ non_base.u.X.getD 1 0) (.r1cs .notSatisfied)
      -- the index counts the pairs that are present
      (present non_base.U non_base.W).zipIdx.forM fun entry => do
        let shape ← index params.shapes entry.2
        (shape.isRelaxedSatisfied c.C1 entry.1.1 entry.1.2 params.pp).mapError .r1cs
      (present non_base.U_secondary non_base.W_secondary).forM fun pair =>
        (c.secondary.shape.isRelaxedSatisfied c.C2 pair.1 pair.2 params.pp_secondary).mapError .r1cs
      let shape ← index params.shapes non_base.pc.toNat
      (shape.isSatisfied c.C1 non_base.u non_base.w params.pp).mapError .r1cs

end Verify

/-- What an accepted proof fulfills, apart from the number of steps.  The pairs that are present are
checked against the first shapes. -/
structure Verified (numCircuits : ℕ) (params : PublicParams (ZMod n) PP1 PP2)
    (z_0 : List (ZMod n)) (non_base : NIVCProofNonBase n b G1 G2) : Prop where
  lengthU : non_base.U.length = numCircuits
  lengthW : non_base.W.length = numCircuits
  lengthU_secondary : non_base.U_secondary.length = numCircuits
  lengthW_secondary : non_base.W_secondary.length = numCircuits
  missing : ∀ entry ∈ non_base.U.zipIdx, entry.1.isNone → entry.2 < params.shapes.length
  hash : hash c (transcriptNative c params z_0 non_base) = non_base.u.X.getD 1 0
  length : 1 < non_base.u.X.length
  primary : ∀ entry ∈ (present non_base.U non_base.W).zipIdx,
    ∃ shape, params.shapes[entry.2]? = some shape ∧
      RelaxedSatisfied c.C1 shape entry.1.1 entry.1.2 params.pp
  secondary : ∀ pair ∈ present non_base.U_secondary non_base.W_secondary,
    RelaxedSatisfied c.C2 c.secondary.shape pair.1 pair.2 params.pp_secondary
  strict : ∃ shape, params.shapes[non_base.pc.toNat]? = some shape ∧
    Satisfied c.C1 shape non_base.u non_base.w params.pp

theorem verify_eq_ok [DecidableEq G1] [DecidableEq G2] {numCircuits : ℕ}
    {params : PublicParams (ZMod n) PP1 PP2} {proof : NIVCProof n b G1 G2} {num_steps : UInt64} :
    verify c numCircuits params proof num_steps = .ok () ↔
      ∃ non_base, proof.non_base = some non_base ∧ num_steps = non_base.i ∧
        Verified c numCircuits params proof.z_0 non_base := by
  rw [verify]
  cases proof.non_base with
  | none =>
      constructor
      · intro h
        cases h
      · rintro ⟨non_base, h, -⟩
        cases h
  | some non_base =>
      simp only [bind_eq_ok, Unique.exists_iff, assert_eq_ok, failIf_eq_ok,
        forM_eq_ok, index_eq_ok, mapError_eq_ok, not_not, isRelaxedSatisfied_iff, isSatisfied_iff,
        Option.some.injEq, exists_eq_left']
      constructor
      · rintro ⟨hU, hW, hUs, hWs, hi, hmissing, hlen, hhash, hprimary, hsecondary, hstrict⟩
        exact ⟨hi, hU, hW, hUs, hWs, hmissing, hhash, hlen, hprimary, hsecondary, hstrict⟩
      · rintro ⟨hi, h⟩
        exact ⟨h.lengthU, h.lengthW, h.lengthU_secondary, h.lengthW_secondary, hi, h.missing,
          h.length, h.hash, h.primary, h.secondary, h.strict⟩

end Proofs

end NexusVm.Nova.Circuits.Supernova
