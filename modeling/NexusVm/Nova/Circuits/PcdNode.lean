import NexusVm.Nova.Circuits.Params
import NexusVm.Nova.Circuits.PcdAugmented

/-!
# Tree nodes

`nova/src/circuits/nova/pcd/mod.rs`.  Machine integers wrap, as in a release build.
-/

namespace NexusVm.Nova.Circuits.Pcd

open R1cs Cyclefold Synth

/-- `PCDNode`. -/
structure PCDNode (n b : ℕ) (G1 G2 : Type) where
  i : UInt64
  j : UInt64
  z_i : List (ZMod n)
  z_j : List (ZMod n)
  U : RelaxedR1CSInstance (ZMod n) G1
  W : RelaxedR1CSWitness (ZMod n)
  U_secondary : RelaxedR1CSInstance (ZMod b) G2
  W_secondary : RelaxedR1CSWitness (ZMod b)
  u : R1CSInstance (ZMod n) G1
  w : R1CSWitness (ZMod n)

/-- Lengths that the circuit was set up with. -/
structure InputVar.Valid {n b : ℕ} {G2 : Type} (SC : StepCircuit (ZMod n))
    (input : InputVar n b G2) : Prop extends input.Sized SC where
  left : input.nodes.1.Valid
  right : input.nodes.2.Valid
  proof_E_0 : Setting.ProofSized input.proof_secondary.1.1
  proof_E_1 : Setting.ProofSized input.proof_secondary.1.2
  proof_W : Setting.ProofSized input.proof_secondary.2

section Nodes

variable {n b : ℕ} {G1 G2 PP1 PP2 : Type} [Fact n.Prime] [Fact b.Prime] [AddCommGroup G1]
  [Module (ZMod n) G1] [AddCommGroup G2] [Module (ZMod b) G2]
  (c : Setting n b G1 G2 PP1 PP2) (SC : StepCircuit (ZMod n))

/-- The augmented circuit of a step circuit, with its shape. -/
abbrev System (c : Setting n b G1 G2 PP1 PP2) (SC : StepCircuit (ZMod n)) : Type :=
  Arithmetization (ZMod n) (SC.Aux × InputVar n b G2) (fun v => v.2.Valid SC)
    (fun v hash_input => (generateConstraints c SC v.1 v.2 hash_input).holds)

section Verify

variable [DecidableEq G1] [DecidableEq G2]

/-- `PCDNode::verify`. -/
def PCDNode.verify (params : PublicParams (ZMod n) PP1 PP2) (node : PCDNode n b G1 G2) :
    Run Cyclefold.Error Unit := do
  let hash := hash c (transcript c params.digest node.i.toNat node.j.toNat node.z_i node.z_j
    (relaxedMap c.cycle.affine1 node.U) node.U_secondary)
  -- `u.X[1]` is out of bounds for a shorter vector
  Run.assert (1 < node.u.X.length)
  Run.failIf (hash ≠ node.u.X.getD 1 0) (.r1cs .notSatisfied)
  (params.shape.isRelaxedSatisfied c.C1 node.U node.W params.pp).mapError .r1cs
  (c.secondary.shape.isRelaxedSatisfied c.C2 node.U_secondary node.W_secondary
    params.pp_secondary).mapError .r1cs
  (params.shape.isSatisfied c.C1 node.u node.w params.pp).mapError .r1cs

end Verify

/-- What an accepted node fulfills. -/
structure Verified (params : PublicParams (ZMod n) PP1 PP2) (node : PCDNode n b G1 G2) :
    Prop where
  hash : hash c (transcript c params.digest node.i.toNat node.j.toNat node.z_i node.z_j
    (relaxedMap c.cycle.affine1 node.U) node.U_secondary) = node.u.X.getD 1 0
  length : 1 < node.u.X.length
  primary : RelaxedSatisfied c.C1 params.shape node.U node.W params.pp
  secondary : RelaxedSatisfied c.C2 c.secondary.shape node.U_secondary node.W_secondary
    params.pp_secondary
  strict : Satisfied c.C1 params.shape node.u node.w params.pp

theorem verify_eq_ok [DecidableEq G1] [DecidableEq G2] {params : PublicParams (ZMod n) PP1 PP2}
    {node : PCDNode n b G1 G2} : node.verify c params = .ok () ↔ Verified c params node := by
  simp only [PCDNode.verify, bind_eq_ok, Unique.exists_iff, PUnit.default_eq_unit, assert_eq_ok,
    failIf_eq_ok, mapError_eq_ok, not_not, isRelaxedSatisfied_iff, isSatisfied_iff]
  constructor
  · rintro ⟨hlen, hhash, hprimary, hsecondary, hstrict⟩
    exact ⟨hhash, hlen, hprimary, hsecondary, hstrict⟩
  · intro h
    exact ⟨h.length, h.hash, h.primary, h.secondary, h.strict⟩

/-! ## Allocation and proving -/

/-- `NovaAugmentedCircuitInputVar::new_variable` on a base case. -/
def allocBase (vk i : ZMod n) (z_i : List (ZMod n)) : InputVar n b G2 where
  vk := vk
  i := i
  j := i
  k := i + 1
  z_i := z_i
  z_j := z_i
  z_k := z_i
  nodes := (baseNode c, baseNode c)
  commitment_T := c.cycle.affine1 0
  commitment_T_secondary := 0
  proof_secondary := ((allocProof .default, allocProof .default), allocProof .default)

variable {c SC} (system : System c SC) (params : PublicParams (ZMod n) PP1 PP2)

/-- The instance and the witness of a synthesis, and the returned state. -/
def synthesize (input : InputVar n b G2) :
    R1CSInstance (ZMod n) G1 × R1CSWitness (ZMod n) × List (ZMod n) :=
  let aux := SC.hint input.j input.z_j
  let hash_input := hash c (body c SC aux input).value.1
  let W := system.witness (aux, input)
  (⟨c.C1.commit params.pp W, [1, hash_input]⟩, ⟨W⟩,
    (generateConstraints c SC aux input hash_input).value)

/-- `PCDNode::prove_leaf`. -/
def proveLeaf (i : UInt64) (z_i : List (ZMod n)) : PCDNode n b G1 G2 :=
  let out := synthesize system params (allocBase c params.digest i.toNat z_i)
  { i := i
    j := i + 1
    z_i := z_i
    z_j := out.2.2
    U := newInstance params.shape
    W := zeroWitness params.shape
    U_secondary := newInstance c.secondary.shape
    W_secondary := zeroWitness c.secondary.shape
    u := out.1
    w := out.2.1 }

/-- `PCDNode::prove_parent`. -/
def proveParent (left_node right_node : PCDNode n b G1 G2) :
    Run Cyclefold.Error (PCDNode n b G1 G2) := do
  let fold_l ← c.prove params.pp params.pp_secondary params.digest params.shape left_node.U
    left_node.W left_node.U_secondary left_node.W_secondary left_node.u left_node.w
  let fold_r ← c.prove params.pp params.pp_secondary params.digest params.shape right_node.U
    right_node.W right_node.U_secondary right_node.W_secondary right_node.u right_node.w
  let fold ← c.proveWithRelaxed params.pp params.pp_secondary params.digest params.shape fold_l.U
    fold_l.W fold_l.U_secondary fold_l.W_secondary fold_r.U fold_r.W fold_r.U_secondary
    fold_r.W_secondary
  let left ← allocNode c left_node.U left_node.U_secondary left_node.u fold_l.proof
  let right ← allocNode c right_node.U right_node.U_secondary right_node.u fold_r.proof
  let input : InputVar n b G2 :=
    { vk := params.digest
      i := left_node.i.toNat
      j := left_node.j.toNat
      k := right_node.j.toNat
      z_i := left_node.z_i
      z_j := left_node.z_j
      z_k := right_node.z_j
      nodes := (left, right)
      commitment_T := c.cycle.affine1 fold.proof.commitment_T
      commitment_T_secondary := fold.proof.proof_secondary
      proof_secondary :=
        ((allocProof fold.proof.commitment_E_proof.1, allocProof fold.proof.commitment_E_proof.2),
          allocProof fold.proof.commitment_W_proof) }
  let out := synthesize system params input
  .ok
    { i := left_node.i
      j := right_node.j
      z_i := left_node.z_i
      z_j := right_node.z_j
      U := fold.U
      W := fold.W
      U_secondary := fold.U_secondary
      W_secondary := fold.W_secondary
      u := out.1
      w := out.2.1 }

end Nodes

end NexusVm.Nova.Circuits.Pcd
