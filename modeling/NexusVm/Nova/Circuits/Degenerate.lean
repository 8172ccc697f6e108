import NexusVm.Nova.Circuits.PcdNode
import NexusVm.Nova.Circuits.SupernovaProof

/-!
# Degenerate instances

No verifier checks that the public input of an instance starts with one.  With a constant wire of
zero the zero witness satisfies every augmented circuit, for any hash.
-/

namespace NexusVm.Nova.Circuits

open R1cs Cyclefold

section Degenerate

variable {n b : ℕ} {G1 G2 PP1 PP2 : Type} [Fact n.Prime] [Fact b.Prime] [AddCommGroup G1]
  [Module (ZMod n) G1] [AddCommGroup G2] [Module (ZMod b) G2]
  (c : Setting n b G1 G2 PP1 PP2)

/-- A node of zeros with a matching hash. -/
def degenerateNode (params : PublicParams (ZMod n) PP1 PP2) (i j : UInt64)
    (z_i z_j : List (ZMod n)) : Pcd.PCDNode n b G1 G2 where
  i := i
  j := j
  z_i := z_i
  z_j := z_j
  U := newInstance params.shape
  W := zeroWitness params.shape
  U_secondary := newInstance c.secondary.shape
  W_secondary := zeroWitness c.secondary.shape
  u := ⟨0, [0, hash c (Pcd.transcript c params.digest i.toNat j.toNat z_i z_j
    (relaxedMap c.cycle.affine1 (newInstance params.shape)) (newInstance c.secondary.shape))]⟩
  w := ⟨List.replicate params.shape.numVars 0⟩

/-- A sequential proof of zeros with a matching hash. -/
def degenerateProof (params : PublicParams (ZMod n) PP1 PP2) (i : UInt64)
    (z_0 z_i : List (ZMod n)) : Sequential.IVCProof n b G1 G2 where
  z_0 := z_0
  non_base := some
    { U := newInstance params.shape
      W := zeroWitness params.shape
      U_secondary := newInstance c.secondary.shape
      W_secondary := zeroWitness c.secondary.shape
      u := ⟨0, [0, hash c (Sequential.transcript c params.digest i.toNat z_0 z_i
        (relaxedMap c.cycle.affine1 (newInstance params.shape)) (newInstance c.secondary.shape))]⟩
      w := ⟨List.replicate params.shape.numVars 0⟩
      i := i
      z_i := z_i }

/-- What a non-uniform proof of zeros without accumulators stores, up to its hash. -/
def degenerateNonBase (params : Supernova.PublicParams (ZMod n) PP1 PP2) (i pc : UInt64)
    (z_i : List (ZMod n)) (shape : R1CSShape (ZMod n)) (x : ZMod n) :
    Supernova.NIVCProofNonBase n b G1 G2 where
  U := List.replicate params.shapes.length none
  W := List.replicate params.shapes.length none
  U_secondary := List.replicate params.shapes.length none
  W_secondary := List.replicate params.shapes.length none
  u := ⟨0, [0, x]⟩
  w := ⟨List.replicate shape.numVars 0⟩
  i := i
  pc := pc
  z_i := z_i

/-- The non-uniform proof with a matching hash. -/
def degenerateNivc (params : Supernova.PublicParams (ZMod n) PP1 PP2) (i pc : UInt64)
    (z_0 z_i : List (ZMod n)) (shape : R1CSShape (ZMod n)) : Supernova.NIVCProof n b G1 G2 where
  z_0 := z_0
  non_base := some (degenerateNonBase params i pc z_i shape (hash c
    (Supernova.transcriptNative c params z_0 (degenerateNonBase params i pc z_i shape 0))))

variable [DecidableEq G1] [DecidableEq G2]

variable {params : PublicParams (ZMod n) PP1 PP2}

theorem verify_degenerateNode (h : IsAugmented params.shape) (i j : UInt64)
    (z_i z_j : List (ZMod n)) :
    (degenerateNode c params i j z_i z_j).verify c params = .ok () := by
  apply (Pcd.verify_eq_ok c).mpr
  constructor
  · rfl
  · exact Nat.one_lt_two
  · exact relaxedSatisfied_new c.C1 params.shape params.pp
  · exact relaxedSatisfied_new c.C2 c.secondary.shape params.pp_secondary
  · exact satisfied_degenerate h c.C1 params.pp _

theorem verify_degenerateProof (h : IsAugmented params.shape) (i : UInt64) (z_0 z_i : List (ZMod n)) :
    Sequential.verifySteps c params (degenerateProof c params i z_0 z_i) i = .ok () := by
  apply (Sequential.verifySteps_eq_ok params).mpr
  refine ⟨_, rfl, rfl, ?_⟩
  constructor
  · rfl
  · exact Nat.one_lt_two
  · exact relaxedSatisfied_new c.C1 params.shape params.pp
  · exact relaxedSatisfied_new c.C2 c.secondary.shape params.pp_secondary
  · exact satisfied_degenerate h c.C1 params.pp _

theorem verify_degenerateNivc {params : Supernova.PublicParams (ZMod n) PP1 PP2} {pc : UInt64}
    {shape : R1CSShape (ZMod n)} (hshape : params.shapes[pc.toNat]? = some shape)
    (h : IsAugmented shape) (i : UInt64) (z_0 z_i : List (ZMod n)) :
    Supernova.verify c params.shapes.length params (degenerateNivc c params i pc z_0 z_i shape) i =
      .ok () := by
  have hnone : ∀ {α β : Type} (k : ℕ),
      Supernova.present (List.replicate k (none : Option α)) (List.replicate k (none : Option β)) =
        [] := by
    intro α β k
    rw [Supernova.present, List.filterMap_eq_nil_iff]
    intro entry hentry
    rw [List.zip_replicate', List.mem_replicate] at hentry
    rw [hentry.2]
    rfl
  apply (Supernova.verify_eq_ok c).mpr
  refine ⟨_, rfl, rfl, ?_⟩
  constructor
  · exact List.length_replicate
  · exact List.length_replicate
  · exact List.length_replicate
  · exact List.length_replicate
  · intro entry hentry _
    have hlt := List.snd_lt_of_mem_zipIdx hentry
    rwa [Nat.add_zero, degenerateNonBase, List.length_replicate] at hlt
  · rfl
  · exact Nat.one_lt_two
  · intro entry hentry
    rw [degenerateNonBase, hnone] at hentry
    cases hentry
  · intro pair hpair
    rw [degenerateNonBase, hnone] at hpair
    cases hpair
  · exact ⟨shape, hshape, satisfied_degenerate h c.C1 params.pp _⟩

/-- **Degenerate instances are accepted.**  For all public parameters and every claim about a
computation, each verifier accepts a proof of zeros, whose instance does not start with one. -/
theorem leading_one_unchecked (params : PublicParams (ZMod n) PP1 PP2)
    (h : IsAugmented params.shape) (params_nivc : Supernova.PublicParams (ZMod n) PP1 PP2)
    (h_nivc : ∀ shape ∈ params_nivc.shapes, IsAugmented shape) (hpos : params_nivc.shapes ≠ []) :
    (∀ i j z_i z_j, (degenerateNode c params i j z_i z_j).verify c params = .ok ()) ∧
    (∀ i z_0 z_i, Sequential.verifySteps c params (degenerateProof c params i z_0 z_i) i = .ok ()) ∧
    (∀ i pc z_0 z_i, ∀ shape, params_nivc.shapes[UInt64.toNat pc]? = some shape →
      Supernova.verify c params_nivc.shapes.length params_nivc
        (degenerateNivc c params_nivc i pc z_0 z_i shape) i = .ok ()) ∧
    (¬ ∀ node : Pcd.PCDNode n b G1 G2, node.verify c params = .ok () → node.u.X.getD 0 0 = 1) ∧
    (¬ ∀ (proof : Sequential.IVCProof n b G1 G2) non_base num_steps,
      Sequential.verifySteps c params proof num_steps = .ok () → proof.non_base = some non_base →
        non_base.u.X.getD 0 0 = 1) ∧
    ¬ ∀ (proof : Supernova.NIVCProof n b G1 G2) non_base num_steps,
      Supernova.verify c params_nivc.shapes.length params_nivc proof num_steps = .ok () →
        proof.non_base = some non_base → non_base.u.X.getD 0 0 = 1 := by
  have hnode := verify_degenerateNode c h
  have hproof := verify_degenerateProof c h
  have hnivc : ∀ i pc z_0 z_i, ∀ shape, params_nivc.shapes[UInt64.toNat pc]? = some shape →
      Supernova.verify c params_nivc.shapes.length params_nivc
        (degenerateNivc c params_nivc i pc z_0 z_i shape) i = .ok () := by
    intro i pc z_0 z_i shape hshape
    exact verify_degenerateNivc c hshape (h_nivc shape (List.mem_of_getElem? hshape)) i z_0 z_i
  have hfirst : params_nivc.shapes[UInt64.toNat 0]? = some (params_nivc.shapes.head hpos) := by
    rw [UInt64.toNat_zero, ← List.head?_eq_getElem?, List.head?_eq_some_head hpos]
  refine ⟨hnode, hproof, hnivc, fun hall => ?_, fun hall => ?_, fun hall => ?_⟩
  · exact zero_ne_one (hall _ (hnode 0 0 [] []))
  · exact zero_ne_one (hall _ _ _ (hproof 0 [] []) rfl)
  · exact zero_ne_one (hall _ _ _ (hnivc 0 0 [] [] _ hfirst) rfl)

end Degenerate

section OneRow

open Bn254

/-- The row `hash_input * One = hash` with one variable for the hash. -/
def hashRow (F : Type) [One F] : R1CSShape F where
  numConstraints := 1
  numVars := 1
  numIo := 2
  A := ⟨[1], [1], [0, 1], 3⟩
  B := ⟨[1], [0], [0, 1], 3⟩
  C := ⟨[1], [2], [0, 1], 3⟩
  numIo_pos := Nat.two_pos
  dimsA := ⟨rfl, rfl, by simp, rfl, by simp, by simp⟩
  dimsB := ⟨rfl, rfl, by simp, rfl, by simp, by simp⟩
  dimsC := ⟨rfl, rfl, by simp, rfl, by simp, by simp⟩

theorem hashRow_isAugmented (F : Type) [Field F] : IsAugmented (hashRow F) where
  numIo := rfl
  hash_B := by simp [hashRow]
  hash_C := by simp [hashRow]

/-- The range from `5` to `3` with states that no circuit relates. -/
theorem degenerateNode_accepted :
    let params : PublicParams (ZMod fr) Unit Unit := ⟨hashRow _, (), (), 7⟩
    let node := degenerateNode (pointSetting (listOracle fr)) params 5 3 [1] [2]
    node.verify (pointSetting (listOracle fr)) params = .ok () ∧ node.u.X.getD 0 0 ≠ 1 :=
  ⟨verify_degenerateNode _ (hashRow_isAugmented _) 5 3 [1] [2], zero_ne_one⟩

/-- The parameters with this row for one circuit. -/
theorem leading_one_unchecked_row :
    ¬ ∀ node : Pcd.PCDNode fr fq Unit Unit,
      node.verify (pointSetting (listOracle fr)) ⟨hashRow _, (), (), 7⟩ = .ok () →
        node.u.X.getD 0 0 = 1 := by
  have hunchecked := leading_one_unchecked (pointSetting (listOracle fr))
    ⟨hashRow (ZMod fr), (), (), 7⟩ (hashRow_isAugmented _) ⟨[hashRow (ZMod fr)], (), (), 7⟩
    (List.forall_mem_singleton.mpr (hashRow_isAugmented _)) (List.cons_ne_nil _ _)
  exact hunchecked.2.2.2.1

end OneRow

end NexusVm.Nova.Circuits
