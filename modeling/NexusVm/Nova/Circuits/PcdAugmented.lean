import NexusVm.Nova.Circuits.StepCircuit

/-!
# The augmented circuit of a tree node

`nova/src/circuits/nova/pcd/augmented.rs`.  A leaf takes one step.  An inner node checks two
children, folds them, and takes the step between them.
-/

namespace NexusVm.Nova.Circuits.Pcd

open R1cs Cyclefold Synth

/-- `NovaAugmentedCircuitInputVar`. -/
structure InputVar (n b : ℕ) (G2 : Type) where
  vk : ZMod n
  i : ZMod n
  j : ZMod n
  k : ZMod n
  z_i : List (ZMod n)
  z_j : List (ZMod n)
  z_k : List (ZMod n)
  nodes : NodeVar n b G2 × NodeVar n b G2
  commitment_T : AffinePoint (ZMod b)
  commitment_T_secondary : G2
  proof_secondary : (Proof b G2 × Proof b G2) × Proof b G2

section Circuit

variable {n b : ℕ} {G1 G2 PP1 PP2 : Type} [Fact n.Prime] [Fact b.Prime] [AddCommGroup G1]
  [Module (ZMod n) G1] [AddCommGroup G2] [Module (ZMod b) G2]
  (c : Setting n b G1 G2 PP1 PP2) (SC : StepCircuit (ZMod n))

/-- What is absorbed for the hash of a node with the range from `i` to `j`. -/
def transcript (vk i j : ZMod n) (z_i z_j : List (ZMod n)) (U : RelaxedPrimaryVar n b)
    (U_secondary : RelaxedSecondaryVar b G2) : List (List (ZMod n)) :=
  [[vk], [i], [j], z_i, z_j, relaxedElements U,
    relaxedElementsSecondary (relaxedMap c.cycle.affine2 U_secondary)]

/-- The constraints up to the last sponge: what it absorbs, and the output. -/
def body (aux : SC.Aux) (input : InputVar n b G2) :
    Synth (List (List (ZMod n)) × List (ZMod n)) := do
  let left := input.nodes.1
  let right := input.nodes.2
  let is_base_case := decide (input.i = input.j)
  let should_enforce := !is_base_case
  let base := baseAccumulators c
  -- constrain output
  (input.z_i.zip input.z_j).forM fun z => conditionalEnforceEqual z.1 z.2 is_base_case
  let z_next ← SC.generateConstraints aux input.j input.z_j
  let j_next := input.j + 1
  conditionalEnforceEqual input.k j_next is_base_case
  -- check hashes
  let hash_l := hash c
    (transcript c input.vk input.i input.j input.z_i input.z_j left.U left.U_secondary)
  let hash_r := hash c
    (transcript c input.vk j_next input.k z_next input.z_k right.U right.U_secondary)
  conditionalEnforceEqual hash_l (left.u.X.getD 1 0) should_enforce
  conditionalEnforceEqual hash_r (right.u.X.getD 1 0) should_enforce
  let fold_l ← left.fold c input.vk should_enforce
  let fold_r ← right.fold c input.vk should_enforce
  let fold ← c.multifoldWithRelaxed input.vk fold_l.1 fold_l.2 fold_r.1 fold_r.2
    input.commitment_T input.commitment_T_secondary input.proof_secondary should_enforce
  let U := selectRelaxed is_base_case base.1 fold.1
  let U_secondary := selectRelaxed is_base_case base.2 fold.2
  -- `z_next` in the base case and `z_k` otherwise
  let z_out := List.zipWith (fun z_next z => if is_base_case then z_next else z) z_next input.z_k ++
    z_next.drop input.z_k.length
  return (transcript c input.vk input.i input.k input.z_i z_out U U_secondary, z_out)

/-- `NovaAugmentedCircuit::generate_constraints`; `hash_input` is the value of the public input. -/
def generateConstraints (aux : SC.Aux) (input : InputVar n b G2) (hash_input : ZMod n) :
    Synth (List (ZMod n)) := do
  let out ← body c SC aux input
  enforce (hash_input * 1 = hash c out.1)
  return out.2

variable {c SC} {aux : SC.Aux} {input : InputVar n b G2} {hash_input : ZMod n}

/-- The constraints of a node, one by one. -/
structure Accepted (c : Setting n b G1 G2 PP1 PP2) (SC : StepCircuit (ZMod n)) (aux : SC.Aux)
    (input : InputVar n b G2) (hash_input : ZMod n) : Prop where
  base_z : input.i = input.j → ∀ z ∈ input.z_i.zip input.z_j, z.1 = z.2
  step : (SC.generateConstraints aux input.j input.z_j).holds
  base_k : input.i = input.j → input.k = input.j + 1
  hash_l : input.i ≠ input.j → hash c (transcript c input.vk input.i input.j input.z_i input.z_j
    input.nodes.1.U input.nodes.1.U_secondary) = input.nodes.1.u.X.getD 1 0
  hash_r : input.i ≠ input.j → hash c (transcript c input.vk (input.j + 1) input.k
    (SC.generateConstraints aux input.j input.z_j).value input.z_k input.nodes.2.U
    input.nodes.2.U_secondary) = input.nodes.2.u.X.getD 1 0
  fold_l : (input.nodes.1.fold c input.vk !decide (input.i = input.j)).holds
  fold_r : (input.nodes.2.fold c input.vk !decide (input.i = input.j)).holds
  fold : (c.multifoldWithRelaxed input.vk
    (input.nodes.1.fold c input.vk !decide (input.i = input.j)).value.1
    (input.nodes.1.fold c input.vk !decide (input.i = input.j)).value.2
    (input.nodes.2.fold c input.vk !decide (input.i = input.j)).value.1
    (input.nodes.2.fold c input.vk !decide (input.i = input.j)).value.2 input.commitment_T
    input.commitment_T_secondary input.proof_secondary !decide (input.i = input.j)).holds
  hash_input : hash_input = hash c (body c SC aux input).value.1

theorem holds_iff :
    (generateConstraints c SC aux input hash_input).holds ↔
      Accepted c SC aux input hash_input := by
  rw [generateConstraints, holds_hash]
  constructor
  · rintro ⟨hbody, hout⟩
    simp only [body, holds_bind, holds_forM, holds_conditionalEnforceEqual, holds_pure,
      decide_eq_true_eq, Bool.not_eq_true', decide_eq_false_iff_not, and_true] at hbody
    obtain ⟨hz, hstep, hk, hl, hr, hfold_l, hfold_r, hfold⟩ := hbody
    exact ⟨fun hbase z hmem => hz z hmem hbase, hstep, hk, hl, hr, hfold_l, hfold_r, hfold, hout⟩
  · intro h
    refine ⟨?_, h.hash_input⟩
    simp only [body, holds_bind, holds_forM, holds_conditionalEnforceEqual, holds_pure,
      decide_eq_true_eq, Bool.not_eq_true', decide_eq_false_iff_not, and_true]
    exact ⟨fun z hmem hbase => h.base_z hbase z hmem, h.step, h.base_k, h.hash_l, h.hash_r,
      h.fold_l, h.fold_r, h.fold⟩

/-- The vectors have the lengths that the circuit was set up with. -/
structure InputVar.Sized (SC : StepCircuit (ZMod n)) (input : InputVar n b G2) : Prop where
  z_i : input.z_i.length = SC.arity
  z_j : input.z_j.length = SC.arity
  z_k : input.z_k.length = SC.arity

/-- The output is that of the step in the base case, and `z_k` otherwise. -/
theorem value_generateConstraints (h : input.Sized SC) :
    (generateConstraints c SC aux input hash_input).value =
      if input.i = input.j then (SC.generateConstraints aux input.j input.z_j).value
      else input.z_k := by
  have hlen : (SC.generateConstraints aux input.j input.z_j).value.length = input.z_k.length := by
    rw [SC.length_value aux _ _ h.z_j, h.z_k]
  simp only [generateConstraints, body, value_bind, value_pure]
  rw [zipWith_select _ hlen, ← hlen, List.drop_length, List.append_nil]
  simp only [decide_eq_true_eq]

variable (c SC aux input hash_input) in
/-- What the last sponge absorbs. -/
theorem value_body :
    ∃ U U_secondary, (body c SC aux input).value.1 = transcript c input.vk input.i input.k
      input.z_i (generateConstraints c SC aux input hash_input).value U U_secondary :=
  ⟨_, _, rfl⟩

end Circuit

end NexusVm.Nova.Circuits.Pcd
