import NexusVm.Nova.Circuits.StepCircuit

/-!
# The augmented circuit of a sequential step

`nova/src/circuits/nova/sequential/augmented.rs`.  The first step starts at `z_0`; each later one
checks the hash of the previous instance and folds it.
-/

namespace NexusVm.Nova.Circuits.Sequential

open R1cs Cyclefold Synth

/-- `NovaAugmentedCircuitInputVar`. -/
structure InputVar (n b : ℕ) (G2 : Type) where
  vk : ZMod n
  i : ZMod n
  z_0 : List (ZMod n)
  z_i : List (ZMod n)
  node : NodeVar n b G2

/-- The vectors have the lengths that the circuit was set up with. -/
structure InputVar.Valid {n b : ℕ} {G2 : Type} (SC : StepCircuit (ZMod n))
    (input : InputVar n b G2) : Prop where
  z_0 : input.z_0.length = SC.arity
  z_i : input.z_i.length = SC.arity
  node : input.node.Valid

section Circuit

variable {n b : ℕ} {G1 G2 PP1 PP2 : Type} [Fact n.Prime] [Fact b.Prime] [AddCommGroup G1]
  [Module (ZMod n) G1] [AddCommGroup G2] [Module (ZMod b) G2]
  (c : Setting n b G1 G2 PP1 PP2) (SC : StepCircuit (ZMod n))

/-- What is absorbed for the hash after `i` steps. -/
def transcript (vk i : ZMod n) (z_0 z_i : List (ZMod n)) (U : RelaxedPrimaryVar n b)
    (U_secondary : RelaxedSecondaryVar b G2) : List (List (ZMod n)) :=
  [[vk], [i], z_0, z_i, relaxedElements U,
    relaxedElementsSecondary (relaxedMap c.cycle.affine2 U_secondary)]

/-- The constraints up to the last sponge: what it absorbs, and the output. -/
def body (aux : SC.Aux) (input : InputVar n b G2) :
    Synth (List (List (ZMod n)) × List (ZMod n)) := do
  let is_base_case := decide (input.i = 0)
  let should_enforce := !is_base_case
  let base := baseAccumulators c
  (input.z_0.zip input.z_i).forM fun z => conditionalEnforceEqual z.1 z.2 is_base_case
  let z_next ← SC.generateConstraints aux input.i input.z_i
  let hash := hash c
    (transcript c input.vk input.i input.z_0 input.z_i input.node.U input.node.U_secondary)
  conditionalEnforceEqual hash (input.node.u.X.getD 1 0) should_enforce
  let fold ← input.node.fold c input.vk should_enforce
  let U := selectRelaxed is_base_case base.1 fold.1
  let U_secondary := selectRelaxed is_base_case base.2 fold.2
  let i_next := input.i + 1
  return (transcript c input.vk i_next input.z_0 z_next U U_secondary, z_next)

/-- `NovaAugmentedCircuit::generate_constraints`; `hash_input` is the value of the public input. -/
def generateConstraints (aux : SC.Aux) (input : InputVar n b G2) (hash_input : ZMod n) :
    Synth (List (ZMod n)) := do
  let out ← body c SC aux input
  enforce (hash_input * 1 = hash c out.1)
  return out.2

variable {c SC} {aux : SC.Aux} {input : InputVar n b G2} {hash_input : ZMod n}

/-- The constraints of a step, one by one. -/
structure Accepted (c : Setting n b G1 G2 PP1 PP2) (SC : StepCircuit (ZMod n)) (aux : SC.Aux)
    (input : InputVar n b G2) (hash_input : ZMod n) : Prop where
  base_z : input.i = 0 → ∀ z ∈ input.z_0.zip input.z_i, z.1 = z.2
  step : (SC.generateConstraints aux input.i input.z_i).holds
  hash : input.i ≠ 0 → hash c (transcript c input.vk input.i input.z_0 input.z_i input.node.U
    input.node.U_secondary) = input.node.u.X.getD 1 0
  fold : (input.node.fold c input.vk !decide (input.i = 0)).holds
  hash_input : hash_input = Circuits.hash c (body c SC aux input).value.1

theorem holds_iff :
    (generateConstraints c SC aux input hash_input).holds ↔
      Accepted c SC aux input hash_input := by
  rw [generateConstraints, holds_hash]
  constructor
  · rintro ⟨hbody, hout⟩
    simp only [body, holds_bind, holds_forM, holds_conditionalEnforceEqual, holds_pure,
      decide_eq_true_eq, Bool.not_eq_true', decide_eq_false_iff_not, and_true] at hbody
    obtain ⟨hz, hstep, hhash, hfold⟩ := hbody
    exact ⟨fun hbase z hmem => hz z hmem hbase, hstep, hhash, hfold, hout⟩
  · intro h
    refine ⟨?_, h.hash_input⟩
    simp only [body, holds_bind, holds_forM, holds_conditionalEnforceEqual, holds_pure,
      decide_eq_true_eq, Bool.not_eq_true', decide_eq_false_iff_not, and_true]
    exact ⟨fun z hmem hbase => h.base_z hbase z hmem, h.step, h.hash, h.fold⟩

/-- The output is that of the step. -/
theorem value_generateConstraints : (generateConstraints c SC aux input hash_input).value =
    (SC.generateConstraints aux input.i input.z_i).value := rfl

variable (c aux) in
/-- What the last sponge absorbs: constant accumulators in the base case, and the folded ones
otherwise. -/
theorem value_body (h : input.Valid SC) :
    let fold := (input.node.fold c input.vk !decide (input.i = 0)).value
    (body c SC aux input).value.1 = transcript c input.vk (input.i + 1) input.z_0
      (SC.generateConstraints aux input.i input.z_i).value
      (if input.i = 0 then (baseAccumulators c).1 else fold.1)
      (if input.i = 0 then (baseAccumulators c).2 else fold.2) := by
  obtain ⟨hlen, hlen_secondary⟩ := h.node.length_fold (c := c) input.vk !decide (input.i = 0)
  have hbase : (baseAccumulators c).1.X.length = augmentedCircuitNumIo :=
    List.length_replicate
  have hbase_secondary : (baseAccumulators c).2.X.length = secondaryNumIo :=
    List.length_replicate
  simp only [body, value_bind, value_pure]
  rw [selectRelaxed_eq _ (hbase.trans hlen.symm),
    selectRelaxed_eq _ (hbase_secondary.trans hlen_secondary.symm)]
  simp only [decide_eq_true_eq]

end Circuit

end NexusVm.Nova.Circuits.Sequential
