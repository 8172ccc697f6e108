import NexusVm.Nova.Circuits.Degenerate
import NexusVm.Nova.Circuits.PcdRun

/-!
# Completeness of tree proofs

Leaves, parents and trees in terms of the verifier, and a pair of accepted nodes without a parent.
-/

namespace NexusVm.Nova.Circuits.Pcd

open R1cs Cyclefold Synth

section Complete

variable {n b : ℕ} {G1 G2 PP1 PP2 : Type} [Fact n.Prime] [Fact b.Prime] [AddCommGroup G1]
  [Module (ZMod n) G1] [AddCommGroup G2] [Module (ZMod b) G2] [DecidableEq G1] [DecidableEq G2]
  {c : Setting n b G1 G2 PP1 PP2} {SC : StepCircuit (ZMod n)}

/-- **Tree proofs.**  A leaf is accepted with the range of its step.  Two accepted nodes with
adjacent ranges and the step between them have an accepted parent exactly if both instances start
with one and the square of the challenge fits in the other field; it always fits if that field is
not smaller.  A tree of any shape, whose squares fit, is accepted with the range and the states of
its steps, and so is a complete tree. -/
theorem pcd_complete (system : System c SC) (params : PublicParams (ZMod n) PP1 PP2)
    (hb : 2 ^ 127 ≤ b) (hn : 2 ^ 127 ≤ n) (hshape : params.shape = system.shape)
    (f : ZMod n → List (ZMod n) → List (ZMod n)) (hf : SC.Computes f) :
    (∀ i z_i, UInt64.toNat i + 1 < 2 ^ 64 → z_i.length = SC.arity →
      (proveLeaf system params i z_i).verify c params = .ok () ∧
        (proveLeaf system params i z_i).i = i ∧
        (proveLeaf system params i z_i).j.toNat = i.toNat + 1 ∧
        (proveLeaf system params i z_i).z_i = z_i ∧
        (proveLeaf system params i z_i).z_j = f i.toNat z_i) ∧
    (∀ left_node right_node : PCDNode n b G1 G2, left_node.verify c params = .ok () →
      right_node.verify c params = .ok () → Adjacent SC f left_node right_node →
      ((∃ node, proveParent system params left_node right_node = .ok node ∧
          node.verify c params = .ok () ∧ node.i = left_node.i ∧ node.j = right_node.j ∧
          node.z_i = left_node.z_i ∧ node.z_j = right_node.z_j) ↔
        Fits c params left_node right_node)) ∧
    (n ≤ b → ∀ left_node right_node, SquareFits c params left_node right_node) ∧
    (∀ shape i z, z.length = SC.arity → UInt64.toNat i + Shape.size shape < 2 ^ 64 →
      FitsAlong system params f shape i z →
      ∃ node, build system params f shape i z = .ok node ∧ node.verify c params = .ok () ∧
        node.i = i ∧ node.j.toNat = i.toNat + shape.size ∧ node.z_i = z ∧
        node.z_j = applyFrom f i.toNat shape.size z) ∧
    ∀ m i z, z.length = SC.arity → UInt64.toNat i + (2 ^ (m + 1) - 1) < 2 ^ 64 →
      FitsAlong system params f (.complete m) i z →
      ∃ node, build system params f (.complete m) i z = .ok node ∧
        node.verify c params = .ok () ∧ node.i = i ∧
        node.j.toNat = i.toNat + (2 ^ (m + 1) - 1) ∧ node.z_i = z ∧
        node.z_j = applyFrom f i.toNat (2 ^ (m + 1) - 1) z := by
  have htree : ∀ shape i z, z.length = SC.arity → UInt64.toNat i + Shape.size shape < 2 ^ 64 →
      FitsAlong system params f shape i z →
      ∃ node, build system params f shape i z = .ok node ∧ node.verify c params = .ok () ∧
        node.i = i ∧ node.j.toNat = i.toNat + shape.size ∧ node.z_i = z ∧
        node.z_j = applyFrom f i.toNat shape.size z := by
    intro shape i z hz hi hfits
    obtain ⟨node, hbuild, h⟩ := build_built system hb hn hf hshape hz hi hfits
    exact ⟨node, hbuild, (verify_eq_ok c).mpr h.verified, h.i, h.j, h.z_i, h.z_j⟩
  refine ⟨?_, ?_, fun h => squareFits_of_le h, htree, ?_⟩
  · intro i z_i hi hz
    obtain ⟨hverified, hj, hz_j⟩ := proveLeaf_verified system hf hshape hi hz
    exact ⟨(verify_eq_ok c).mpr hverified, rfl, hj, rfl, hz_j⟩
  · intro left_node right_node hl hr hadjacent
    rw [verify_eq_ok] at hl hr
    simp only [verify_eq_ok]
    exact proveParent_iff system hb hn hf hshape hl hr hadjacent
  · intro m i z hz hi hfits
    have hsize : (Shape.complete m).size = 2 ^ (m + 1) - 1 := by
      rw [← Shape.size_complete]
      rfl
    rw [← hsize] at hi ⊢
    exact htree _ i z hz hi hfits

end Complete

section Example

open Bn254

/-- The output of a leaf at zeros with the key zero. -/
def keylessHash (arity : ℕ) : ZMod fr :=
  hash sumSetting (transcript sumSetting 0 0 1 (List.replicate arity 0) (List.replicate arity 0)
    (baseAccumulators sumSetting).1 (baseAccumulators sumSetting).2)

/-- The outputs of leaves at zeros differ by their keys. -/
theorem hash_allocBase (arity : ℕ) (vk : ZMod fr) :
    hash sumSetting (body sumSetting (addIndex (ZMod fr) arity)
        ((addIndex (ZMod fr) arity).hint 0 (List.replicate arity 0))
        (allocBase sumSetting vk 0 (List.replicate arity 0))).value.1 =
      vk + keylessHash arity := by
  have hz : (List.replicate arity (0 : ZMod fr)).length = (addIndex (ZMod fr) arity).arity :=
    List.length_replicate
  rw [value_body_base _ (valid_allocBase hz) rfl, keylessHash, hash_sumOracle, hash_sumOracle]
  simp [transcript, allocBase, addIndex]

/-- Two rows for the circuit that adds the index to numbers. -/
noncomputable def sumSystem (arity : ℕ) : System sumSetting (addIndex (ZMod fr) arity) :=
  outcomeArithmetization (fun v => hash sumSetting (body sumSetting _ v.1 v.2).value.1)
    (fun x => ((addIndex (ZMod fr) arity).hint 0 (List.replicate arity 0),
      allocBase sumSetting (x - keylessHash arity) 0 (List.replicate arity 0)))
    (fun _ _ h => (holds_iff.mp h).hash_input)
    (fun x => ⟨valid_allocBase List.length_replicate, holds_iff.mpr
      (accepted_allocBase (addIndex_computes _ arity) List.length_replicate
        ((sub_add_cancel x (keylessHash arity)).symm.trans (hash_allocBase arity _).symm))⟩)

/-- The complete tree over four leaves, and its seven steps from `0`. -/
theorem pcd_complete_sum :
    ∃ node, build (sumSystem 1) sumParams (fun i z => z.map (· + i)) (.complete 2) 0 [0] = .ok node ∧
      node.verify sumSetting sumParams = .ok () ∧ node.j.toNat = 7 ∧
      node.z_j = applyFrom (fun i z => z.map (· + i)) 0 7 [0] := by
  have hcomplete := pcd_complete (sumSystem 1) sumParams (by norm_num [fq]) (by norm_num [fr]) rfl _
    (addIndex_computes (ZMod fr) 1)
  obtain ⟨node, hbuild, hverify, -, hj, -, hz_j⟩ := hcomplete.2.2.2.2 2 0 [0] rfl
    (by rw [UInt64.toNat_zero]; norm_num) (fitsAlong_of_le (sumSystem 1) (by norm_num [fr, fq]) _ _ _)
  rw [UInt64.toNat_zero] at hj hz_j
  rw [Nat.cast_zero] at hz_j
  exact ⟨node, hbuild, hverify, hj, hz_j⟩

/-- Two accepted nodes with adjacent ranges and the step between them, whose instances start with
zero: the prover panics. -/
theorem degenerate_without_parent :
    let left_node := degenerateNode sumSetting sumParams 0 1 [0] [0]
    let right_node := degenerateNode sumSetting sumParams 2 3 [1] [3]
    left_node.verify sumSetting sumParams = .ok () ∧
      right_node.verify sumSetting sumParams = .ok () ∧
      Adjacent (addIndex (ZMod fr) 1) (fun i z => z.map (· + i)) left_node right_node ∧
      ∀ node, proveParent (sumSystem 1) sumParams left_node right_node ≠ .ok node := by
  refine ⟨verify_degenerateNode _ (outcomeRows_isAugmented _) 0 1 [0] [0],
    verify_degenerateNode _ (outcomeRows_isAugmented _) 2 3 [1] [3], ?_, ?_⟩
  · constructor
    · show (0 : UInt64) ≠ 1
      decide
    · rfl
    · simp [degenerateNode]
    · rfl
    · rfl
    · rfl
  · intro node hprove
    obtain ⟨fold_l, fold_r, fold, nodes, h⟩ := (proveParent_eq_ok (sumSystem 1)).mp hprove
    exact zero_ne_one (Option.some.inj (allocNode_eq_ok.mp h.left).1)

end Example

end NexusVm.Nova.Circuits.Pcd
