import NexusVm.Nova.Cyclefold.Refine
import NexusVm.Steps

/-!
# Step circuits and augmented circuits

`nova/src/circuits/nova/mod.rs` and what the augmented circuits share.  An augmented circuit takes
one step of a computation, checks the hash of the previous instance, folds it and outputs one hash.
-/

namespace NexusVm.Nova.Circuits

open R1cs Cyclefold Synth

/-- `AUGMENTED_CIRCUIT_NUM_IO`: the leading one and a hash. -/
def augmentedCircuitNumIo : ℕ := 2

/-- `StepCircuit`, with the values that it allocates and those that the prover allocates. -/
structure StepCircuit (F : Type) where
  arity : ℕ
  Aux : Type
  hint : F → List F → Aux
  generateConstraints : Aux → F → List F → Synth (List F)
  length_value : ∀ aux i z, z.length = arity → (generateConstraints aux i z).value.length = arity

namespace StepCircuit

variable {F : Type} (SC : StepCircuit F)

/-- An application of the step circuit: its constraints hold for some allocated values. -/
def Step (i : F) (z z' : List F) : Prop :=
  z.length = SC.arity ∧
    ∃ aux, (SC.generateConstraints aux i z).holds ∧ (SC.generateConstraints aux i z).value = z'

/-- The circuit computes a function: every accepted output is its value, and the prover's values are
accepted. -/
structure Computes (f : F → List F → List F) : Prop where
  holds : ∀ i z, z.length = SC.arity → (SC.generateConstraints (SC.hint i z) i z).holds
  value : ∀ aux i z, z.length = SC.arity → (SC.generateConstraints aux i z).holds →
    (SC.generateConstraints aux i z).value = f i z

variable {SC}

variable {f : F → List F → List F}

variable {z : List F}

theorem Computes.value_hint (hf : SC.Computes f) (i : F) (h : z.length = SC.arity) :
    (SC.generateConstraints (SC.hint i z) i z).value = f i z :=
  hf.value _ i z h (hf.holds i z h)

theorem Computes.length (hf : SC.Computes f) (i : F) (h : z.length = SC.arity) :
    (f i z).length = SC.arity := by
  rw [← hf.value_hint i h]
  exact SC.length_value _ i z h

theorem Computes.length_applyFrom [AddCommMonoidWithOne F] (hf : SC.Computes f) (i : F) (m : ℕ)
    (h : z.length = SC.arity) :
    (applyFrom f i m z).length = SC.arity := by
  induction m with
  | zero => exact h
  | succ m ih => exact hf.length _ ih

/-- Steps of a circuit that computes a function are applications of the function. -/
theorem Computes.eq_applyFrom [AddCommMonoidWithOne F] (hf : SC.Computes f) {i : F} {m : ℕ}
    {z z' : List F} (h : Steps SC.Step i m z z') :
    z' = applyFrom f i m z := by
  apply Steps.eq_applyFrom _ h
  rintro i z z' ⟨hlen, aux, hholds, rfl⟩
  exact hf.value aux i z hlen hholds

end StepCircuit

section Hash

variable {n b : ℕ} {G1 G2 PP1 PP2 : Type} [Fact n.Prime] [Fact b.Prime] [AddCommGroup G1]
  [Module (ZMod n) G1] [AddCommGroup G2] [Module (ZMod b) G2]

/-- Absorb one input after the other, and squeeze one element of the field. -/
def hash (c : Setting n b G1 G2 PP1 PP2) (inputs : List (List (ZMod n))) : ZMod n :=
  (c.ro.squeezeField (inputs.foldl c.ro.absorb c.ro.new)).1

/-- The public input of an augmented circuit is the hash of what its body leaves. -/
theorem holds_hash {c : Setting n b G1 G2 PP1 PP2} {T : Type}
    {body : Synth (List (List (ZMod n)) × T)} {hash_input : ZMod n} :
    (do let out ← body; enforce (hash_input * 1 = hash c out.1); return out.2 : Synth T).holds ↔
      body.holds ∧ hash_input = hash c body.value.1 := by
  simp only [holds_bind, holds_enforce, holds_pure, and_true, mul_one]

end Hash

section Select

variable {F C : Type}

/-- `conditionally_select` on relaxed instances. -/
def selectRelaxed (cond : Bool) (true_value false_value : RelaxedR1CSInstance F C) :
    RelaxedR1CSInstance F C where
  commitment_W := if cond then true_value.commitment_W else false_value.commitment_W
  commitment_E := if cond then true_value.commitment_E else false_value.commitment_E
  X := List.zipWith (fun x1 x2 => if cond then x1 else x2) true_value.X false_value.X

/-- The entries of the first list, or of the second, if the lists have one length. -/
theorem zipWith_select (cond : Bool) {as bs : List F} (h : as.length = bs.length) :
    List.zipWith (fun x1 x2 => if cond then x1 else x2) as bs = if cond then as else bs := by
  apply List.ext_getElem
  · cases cond <;> simp [h]
  · intro i h₁ h₂
    cases cond <;> simp

theorem selectRelaxed_eq (cond : Bool) {U V : RelaxedR1CSInstance F C}
    (h : U.X.length = V.X.length) : selectRelaxed cond U V = if cond then U else V := by
  rw [selectRelaxed, zipWith_select cond h]
  cases cond with
  | true => rfl
  | false => rfl

end Select

/-! ## Instances to fold and groups of one point -/

/-- `AllocatedPCDNodeInput`: an instance, its accumulators, and the proof of their fold.  The
sequential circuit allocates the same. -/
structure NodeVar (n b : ℕ) (G2 : Type) where
  U : RelaxedPrimaryVar n b
  U_secondary : RelaxedSecondaryVar b G2
  u : PrimaryVar n b
  commitment_T : AffinePoint (ZMod b)
  proof_secondary : Proof b G2 × Proof b G2

/-- Lengths that the circuit was set up with, and the constant ones of strict instances. -/
structure NodeVar.Valid {n b : ℕ} {G2 : Type} (node : NodeVar n b G2) : Prop where
  U : node.U.X.length = augmentedCircuitNumIo
  U_secondary : node.U_secondary.X.length = secondaryNumIo
  u : node.u.X.length = augmentedCircuitNumIo
  one : node.u.X.head? = some 1
  proof_E : Setting.ProofSized node.proof_secondary.1
  proof_W : Setting.ProofSized node.proof_secondary.2

section Nodes

variable {n b : ℕ} {G1 G2 PP1 PP2 : Type} [Fact n.Prime] [Fact b.Prime] [AddCommGroup G1]
  [Module (ZMod n) G1] [AddCommGroup G2] [Module (ZMod b) G2]
  (c : Setting n b G1 G2 PP1 PP2)

/-- The fold of the instance into its accumulators. -/
def NodeVar.fold (node : NodeVar n b G2) (vk : ZMod n) (should_enforce : Bool) :
    Synth (RelaxedPrimaryVar n b × RelaxedSecondaryVar b G2) :=
  c.multifold vk node.U node.U_secondary node.u node.commitment_T node.proof_secondary
    should_enforce

variable {c} in
theorem NodeVar.Valid.length_fold {node : NodeVar n b G2} (h : node.Valid) (vk : ZMod n)
    (should_enforce : Bool) :
    (node.fold c vk should_enforce).value.1.X.length = augmentedCircuitNumIo ∧
      (node.fold c vk should_enforce).value.2.X.length = secondaryNumIo :=
  Setting.length_multifold h.U h.u h.U_secondary h.proof_E h.proof_W

/-- The accumulators of a base case, as constants. -/
def baseAccumulators : RelaxedPrimaryVar n b × RelaxedSecondaryVar b G2 :=
  (relaxedMap c.cycle.affine1 ⟨0, 0, List.replicate augmentedCircuitNumIo 0⟩,
    ⟨0, 0, List.replicate secondaryNumIo 0⟩)

/-- The instance of a base case, with default accumulators and proof. -/
def baseNode : NodeVar n b G2 where
  U := (baseAccumulators c).1
  U_secondary := (baseAccumulators c).2
  u := strictMap c.cycle.affine1 ⟨0, List.replicate augmentedCircuitNumIo 1⟩
  commitment_T := c.cycle.affine1 0
  proof_secondary := (allocProof .default, allocProof .default)

theorem baseNode_valid : (baseNode c : NodeVar n b G2).Valid := by
  constructor
  · exact List.length_replicate
  · exact List.length_replicate
  · exact List.length_replicate
  · rfl
  · rfl
  · rfl

/-- `AllocatedPCDNodeInput::new_variable`; only a valid instance is allocated, which starts with
one. -/
def allocNode (U : RelaxedR1CSInstance (ZMod n) G1) (U_secondary : RelaxedR1CSInstance (ZMod b) G2)
    (u : R1CSInstance (ZMod n) G1) (proof : NIMFSProof b G1 G2) :
    Run Cyclefold.Error (NodeVar n b G2) := do
  -- `X[0]` is out of bounds for an empty vector
  Run.assert (0 < u.X.length)
  Run.assert (u.X.getD 0 0 = 1)
  .ok
    { U := relaxedMap c.cycle.affine1 U
      U_secondary := U_secondary
      u := strictMap c.cycle.affine1 ⟨u.commitment_W, 1 :: u.X.drop 1⟩
      commitment_T := c.cycle.affine1 proof.commitment_T
      proof_secondary :=
        (allocProof proof.commitment_E_proof.1, allocProof proof.commitment_W_proof) }

end Nodes

section Points

open Bn254

/-- The cycle of two groups of one point. -/
def pointCycle (n b : ℕ) (hn : n ≤ b ^ 2) : Cycle n b Unit Unit where
  affine1 _ := ⟨0, 0, true⟩
  affine2 _ := ⟨0, 0, true⟩
  affine1_injective := Function.injective_of_subsingleton _
  affine2_injective := Function.injective_of_subsingleton _
  affine1_normal _ _ := ⟨rfl, rfl⟩
  order_le := hn

/-- The only commitment scheme into a group of one point. -/
def pointCommitment (F : Type) [Field F] : CommitmentScheme F Unit Unit where
  commit _ _ := ()
  linear _ _ _ _ _ := rfl

/-- The fields of BN254 with groups of one point. -/
def pointSetting (ro : Cyclefold.RandomOracle fr) : Setting fr fq Unit Unit Unit Unit where
  cycle := pointCycle fr fq fr_le_fq_sq
  ro := ro
  C1 := pointCommitment (ZMod fr)
  C2 := pointCommitment (ZMod fq)
  secondary :=
    { shape := noRows (ZMod fq) secondaryNumIo secondaryNumIo_pos
      numIo := rfl
      witness := fun _ => []
      length_witness := fun _ => rfl
      rows := fun _ _ _ hi => absurd hi (Nat.not_lt_zero _) }

/-- A sponge that keeps everything and answers by a polynomial; all challenges are zero. -/
def listOracle (n : ℕ) : Cyclefold.RandomOracle n where
  State := List (ZMod n)
  new := []
  absorb := List.append
  squeezeField state := (state.foldl (fun acc x => acc * 3 + x + 1) 0, state)
  squeezeBits state := (0, state)
  squeezeBits_lt _ := Nat.two_pow_pos 127

/-- A sponge that answers by the sum of what it has absorbed; all challenges are zero. -/
def sumOracle (n : ℕ) : Cyclefold.RandomOracle n where
  State := ZMod n
  new := 0
  absorb state l := state + l.sum
  squeezeField state := (state, state)
  squeezeBits state := (0, state)
  squeezeBits_lt _ := Nat.two_pow_pos 127

/-- Groups of one point with sums as hashes. -/
abbrev sumSetting : Setting fr fq Unit Unit Unit Unit := pointSetting (sumOracle fr)

theorem hash_sumOracle (inputs : List (List (ZMod fr))) :
    hash sumSetting inputs = (inputs.map List.sum).sum := by
  have hfold : ∀ state : ZMod fr, inputs.foldl (fun state l => state + l.sum) state =
      state + (inputs.map List.sum).sum := by
    induction inputs with
    | nil => exact fun state => (add_zero state).symm
    | cons l inputs ih =>
        intro state
        rw [List.foldl_cons, ih, List.map_cons, List.sum_cons, add_assoc]
  exact (hfold 0).trans (zero_add _)

/-- A sponge that keeps everything and answers by the second element that it has absorbed: in the
transcripts of steps this is their number.  All challenges are the same bits. -/
def countOracle (n bits : ℕ) (hbits : bits < 2 ^ 127) : Cyclefold.RandomOracle n where
  State := List (ZMod n)
  new := []
  absorb := List.append
  squeezeField state := (state.getD 1 0, state)
  squeezeBits state := (bits, state)
  squeezeBits_lt _ := hbits

theorem five_lt : 5 < 2 ^ 127 := by decide

/-- The groups of numbers of BN254 with this sponge, where every fold has the challenge `5`. -/
def countSetting : Setting fr fq (ZMod fr) (ZMod fq) Unit Unit :=
  { bn254Setting with ro := countOracle fr 5 five_lt }

/-- The step circuit that adds the index to every entry. -/
def addIndex (F : Type) [Add F] (arity : ℕ) : StepCircuit F where
  arity := arity
  Aux := Unit
  hint _ _ := ()
  generateConstraints _ i z := ⟨z.map (· + i), True⟩
  length_value _ _ _ h := by rw [List.length_map, h]

theorem addIndex_computes (F : Type) [Add F] (arity : ℕ) :
    (addIndex F arity).Computes fun i z => z.map (· + i) where
  holds _ _ _ := trivial
  value _ _ _ _ _ := rfl

end Points

end NexusVm.Nova.Circuits
