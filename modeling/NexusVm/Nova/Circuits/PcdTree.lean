import NexusVm.Nova.Circuits.PcdAugmented

/-!
# Trees of satisfied nodes

A tree of satisfying assignments of the augmented circuit, where each child has the hash that its
parent checks, proves a run of the step circuit.  By induction on the tree the states of the root
are those at both ends of a run, and its indices differ by the number of the steps.

The hash must have no collision among the transcripts of the tree.  The trees have any shape; what
the builder of binary trees makes of a list of states is treated on its own.
-/

namespace NexusVm.Nova.Circuits.Pcd

open R1cs Cyclefold Synth

variable {n b : ℕ} {G1 G2 PP1 PP2 : Type} [Fact n.Prime] [Fact b.Prime] [AddCommGroup G1]
  [Module (ZMod n) G1] [AddCommGroup G2] [Module (ZMod b) G2]
  {c : Setting n b G1 G2 PP1 PP2} {SC : StepCircuit (ZMod n)}

/-- The values of an assignment of the augmented circuit. -/
structure Assignment (n b : ℕ) (G2 : Type) (SC : StepCircuit (ZMod n)) where
  aux : SC.Aux
  input : InputVar n b G2
  hash_input : ZMod n

namespace Assignment

variable (c) (a : Assignment n b G2 SC)

/-- The returned state. -/
def z_out : List (ZMod n) := (generateConstraints c SC a.aux a.input a.hash_input).value

/-- What is absorbed for the public hash. -/
def transcript : List (List (ZMod n)) := (body c SC a.aux a.input).value.1

/-- What is absorbed for the hash of the left child. -/
def transcriptLeft : List (List (ZMod n)) :=
  Pcd.transcript c a.input.vk a.input.i a.input.j a.input.z_i a.input.z_j a.input.nodes.1.U
    a.input.nodes.1.U_secondary

/-- What is absorbed for the hash of the right child. -/
def transcriptRight : List (List (ZMod n)) :=
  Pcd.transcript c a.input.vk (a.input.j + 1) a.input.k
    (SC.generateConstraints a.aux a.input.j a.input.z_j).value a.input.z_k a.input.nodes.2.U
    a.input.nodes.2.U_secondary

/-- The assignment satisfies the augmented circuit. -/
structure Satisfies : Prop where
  sized : a.input.Sized SC
  holds : (generateConstraints c SC a.aux a.input a.hash_input).holds

variable {c a}

theorem z_out_eq (h : a.Satisfies c) :
    a.z_out c = if a.input.i = a.input.j
      then (SC.generateConstraints a.aux a.input.j a.input.z_j).value else a.input.z_k :=
  value_generateConstraints h.sized

/-- The step that the assignment takes itself. -/
theorem Satisfies.step (h : a.Satisfies c) :
    SC.Step a.input.j a.input.z_j (SC.generateConstraints a.aux a.input.j a.input.z_j).value :=
  ⟨h.sized.z_j, a.aux, (holds_iff.mp h.holds).step, rfl⟩

/-- An assignment of the base case takes one step, from `z_i` at index `i`. -/
theorem Satisfies.base (h : a.Satisfies c) (hbase : a.input.i = a.input.j) :
    SC.Step a.input.i a.input.z_i (a.z_out c) ∧ a.input.k = a.input.i + 1 := by
  have haccepted := holds_iff.mp h.holds
  have hz : a.input.z_i = a.input.z_j := by
    have hall := haccepted.base_z hbase
    apply List.ext_getElem (h.sized.z_i.trans h.sized.z_j.symm)
    intro t h₁ h₂
    have hlt : t < (a.input.z_i.zip a.input.z_j).length := by
      rw [List.length_zip]
      exact lt_min h₁ h₂
    have hmem := hall _ (List.getElem_mem hlt)
    rwa [List.getElem_zip] at hmem
  have hk := haccepted.base_k hbase
  rw [← hbase] at hk
  refine ⟨?_, hk⟩
  rw [z_out_eq h, if_pos hbase, hz]
  have hstep := h.step
  rwa [← hbase] at hstep ⊢

/-- A child with the hash that its parent checks has the range and the states of the parent. -/
theorem eq_of_transcript {vk i j : ZMod n} {z_i z_j : List (ZMod n)} {U : RelaxedPrimaryVar n b}
    {U_secondary : RelaxedSecondaryVar b G2}
    (h : Pcd.transcript c vk i j z_i z_j U U_secondary = a.transcript c) :
    i = a.input.i ∧ j = a.input.k ∧ z_i = a.input.z_i ∧ z_j = a.z_out c := by
  obtain ⟨U', U_secondary', hbody⟩ := value_body c SC a.aux a.input a.hash_input
  rw [transcript, hbody] at h
  simp only [Pcd.transcript, List.cons.injEq, and_true] at h
  obtain ⟨-, hi, hj, hzi, hzj, -⟩ := h
  exact ⟨hi, hj, hzi, hzj⟩

end Assignment

/-! ## Trees and three steps -/

/-- A binary tree of assignments. -/
inductive Tree (n b : ℕ) (G2 : Type) (SC : StepCircuit (ZMod n))
  | leaf (a : Assignment n b G2 SC)
  | node (a : Assignment n b G2 SC) (left right : Tree n b G2 SC)

namespace Tree

/-- The assignment of the root. -/
def root : Tree n b G2 SC → Assignment n b G2 SC
  | leaf a => a
  | node a _ _ => a

/-- The number of steps that a tree takes; below a base case nothing counts. -/
def applications : Tree n b G2 SC → ℕ
  | leaf _ => 1
  | node a left right =>
      if a.input.i = a.input.j then 1 else left.applications + 1 + right.applications

variable (c)

/-- All assignments are satisfying, leaves are of the base case, and the second public input of the
instance of each child is the hash of the child. -/
def Satisfies : Tree n b G2 SC → Prop
  | leaf a => a.Satisfies c ∧ a.input.i = a.input.j
  | node a left right => a.Satisfies c ∧ left.Satisfies ∧ right.Satisfies ∧
      a.input.nodes.1.u.X.getD 1 0 = left.root.hash_input ∧
      a.input.nodes.2.u.X.getD 1 0 = right.root.hash_input

/-- Everything that is hashed in the tree. -/
def transcripts : Tree n b G2 SC → List (List (List (ZMod n)))
  | leaf a => [a.transcript c]
  | node a left right => a.transcript c :: a.transcriptLeft c :: a.transcriptRight c ::
      (left.transcripts ++ right.transcripts)

variable {c} {tree : Tree n b G2 SC}

theorem satisfies_root (h : tree.Satisfies c) : tree.root.Satisfies c := by
  cases tree with
  | leaf a => exact h.1
  | node a left right => exact h.1

theorem transcript_mem : tree.root.transcript c ∈ tree.transcripts c := by
  cases tree with
  | leaf a => exact List.mem_cons_self
  | node a left right => exact List.mem_cons_self

/-- The public hash of the root. -/
theorem hash_root (h : tree.Satisfies c) :
    tree.root.hash_input = hash c (tree.root.transcript c) :=
  (holds_iff.mp (satisfies_root h).holds).hash_input

/-- A sequence with the public hash of a tree is what its root absorbed, without collisions. -/
theorem eq_transcript_root {S : Set (List (List (ZMod n)))} (hinj : Set.InjOn (hash c) S)
    (h : tree.Satisfies c) (hsub : ∀ x ∈ tree.transcripts c, x ∈ S) {x : List (List (ZMod n))}
    (hx : x ∈ S) (heq : hash c x = tree.root.hash_input) : x = tree.root.transcript c := by
  apply hinj hx (hsub _ transcript_mem)
  rw [heq, hash_root h]

/-- The tree proves a run that starts at the index and the state of its root. -/
theorem steps (h : tree.Satisfies c)
    (hinj : Set.InjOn (hash c) {x | x ∈ tree.transcripts c}) :
    Steps SC.Step tree.root.input.i tree.applications tree.root.input.z_i (tree.root.z_out c) ∧
      tree.root.input.k = tree.root.input.i + tree.applications := by
  induction tree with
  | leaf a =>
      obtain ⟨hstep, hk⟩ := h.1.base h.2
      refine ⟨Steps.single hstep, ?_⟩
      rw [applications, Nat.cast_one]
      exact hk
  | node a left right ih_left ih_right =>
      obtain ⟨ha, hleft, hright, hX_left, hX_right⟩ := h
      rw [root, applications]
      split_ifs with hbase
      · obtain ⟨hstep, hk⟩ := ha.base hbase
        refine ⟨Steps.single hstep, ?_⟩
        rw [Nat.cast_one]
        exact hk
      · have haccepted := holds_iff.mp ha.holds
        have hmem_left : ∀ x ∈ left.transcripts c, x ∈ (node a left right).transcripts c := by
          intro x hx
          simp only [transcripts, List.mem_cons, List.mem_append]
          tauto
        have hmem_right : ∀ x ∈ right.transcripts c, x ∈ (node a left right).transcripts c := by
          intro x hx
          simp only [transcripts, List.mem_cons, List.mem_append]
          tauto
        have hl : a.transcriptLeft c = left.root.transcript c :=
          eq_transcript_root hinj hleft hmem_left (by simp [transcripts])
            ((haccepted.hash_l hbase).trans hX_left)
        have hr : a.transcriptRight c = right.root.transcript c :=
          eq_transcript_root hinj hright hmem_right (by simp [transcripts])
            ((haccepted.hash_r hbase).trans hX_right)
        obtain ⟨hi, hj, hz_i, hz_j⟩ := Assignment.eq_of_transcript hl
        obtain ⟨hj', hk, hz_next, hz_k⟩ := Assignment.eq_of_transcript hr
        obtain ⟨hsteps_left, hk_left⟩ := ih_left hleft (hinj.mono hmem_left)
        obtain ⟨hsteps_right, hk_right⟩ := ih_right hright (hinj.mono hmem_right)
        rw [← hi, ← hz_i, ← hz_j] at hsteps_left
        rw [← hj', ← hz_next, ← hz_k] at hsteps_right
        rw [← hj, ← hi] at hk_left
        rw [← hk, ← hj', hk_left] at hk_right
        have hout : a.z_out c = a.input.z_k := by rw [Assignment.z_out_eq ha, if_neg hbase]
        have hmiddle := ha.step
        rw [hk_left] at hmiddle hsteps_right
        have hindex : a.input.i + ((left.applications + 1 : ℕ) : ZMod n) =
            a.input.i + left.applications + 1 := by
          rw [Nat.cast_succ, add_assoc]
        rw [← hindex] at hsteps_right hk_right
        rw [hout]
        refine ⟨(hsteps_left.snoc hmiddle).append hsteps_right, ?_⟩
        rw [hk_right, add_assoc, ← Nat.cast_add]

end Tree

/-- **Soundness of a tree.**  In a tree of satisfying assignments without collisions of hashes, the
output of the root is obtained from its input by applying the step circuit at the indices
`i, ..., k - 1`, each once. -/
theorem tree_sound (c : Setting n b G1 G2 PP1 PP2) (SC : StepCircuit (ZMod n))
    (tree : Tree n b G2 SC) (h : tree.Satisfies c)
    (hinj : Set.InjOn (hash c) {x | x ∈ tree.transcripts c}) :
    Steps SC.Step tree.root.input.i tree.applications tree.root.input.z_i (tree.root.z_out c) ∧
      tree.root.input.k = tree.root.input.i + tree.applications ∧
      (tree.root.input.i.val + tree.applications < n →
        tree.root.input.k.val = tree.root.input.i.val + tree.applications) := by
  obtain ⟨hsteps, hk⟩ := Tree.steps h hinj
  refine ⟨hsteps, hk, fun hlt => ?_⟩
  have hcast : tree.root.input.k =
      ((tree.root.input.i.val + tree.applications : ℕ) : ZMod n) := by
    rw [hk, Nat.cast_add, ZMod.natCast_zmod_val]
  rw [hcast, ZMod.val_cast_of_lt hlt]

section Example

open Bn254

/-- A child whose instance has this hash. -/
def exampleChild (x : ZMod fr) : NodeVar fr fq Unit where
  U := (baseAccumulators (pointSetting (listOracle fr))).1
  U_secondary := (baseAccumulators (pointSetting (listOracle fr))).2
  u := ⟨⟨0, 0, true⟩, [1, x]⟩
  commitment_T := ⟨0, 0, true⟩
  proof_secondary := (allocProof .default, allocProof .default)

/-- A node on one number, with the hash that it outputs. -/
def exampleNode (i j k z_i z_j z_k x_l x_r : ZMod fr) :
    Assignment fr fq Unit (addIndex (ZMod fr) 1) :=
  let input : InputVar fr fq Unit := ⟨7, i, j, k, [z_i], [z_j], [z_k],
    (exampleChild x_l, exampleChild x_r), ⟨0, 0, true⟩, (),
    ((allocProof .default, allocProof .default), allocProof .default)⟩
  ⟨(), input, hash (pointSetting (listOracle fr))
    (body (pointSetting (listOracle fr)) (addIndex (ZMod fr) 1) () input).value.1⟩

/-- Two leaves and their parent: the steps at the indices `0`, `1` and `2`, from `5` to `8`. -/
def exampleTree : Tree fr fq Unit (addIndex (ZMod fr) 1) :=
  let left := exampleNode 0 0 1 5 5 5 1 1
  let right := exampleNode 2 2 3 6 6 6 1 1
  .node (exampleNode 0 1 3 5 5 8 left.hash_input right.hash_input) (.leaf left) (.leaf right)

theorem exampleLeaf_satisfies (i z : ZMod fr) :
    (exampleNode i i (i + 1) z z z 1 1).Satisfies (pointSetting (listOracle fr)) := by
  refine ⟨⟨rfl, rfl, rfl⟩, holds_iff.mpr ?_⟩
  have hbase : decide ((exampleNode i i (i + 1) z z z 1 1).input.i =
      (exampleNode i i (i + 1) z z z 1 1).input.j) = true := decide_eq_true rfl
  constructor
  · intro _ p hp
    rw [List.mem_singleton.mp hp]
  · trivial
  · intro _
    simp only [exampleNode]
  · intro h
    exact absurd rfl h
  · intro h
    exact absurd rfl h
  · rw [hbase]
    exact Setting.multifold_holds_iff.mpr nofun
  · rw [hbase]
    exact Setting.multifold_holds_iff.mpr nofun
  · rw [hbase]
    exact Setting.multifoldWithRelaxed_holds_iff.mpr nofun
  · simp only [exampleNode]

theorem exampleTree_satisfies : exampleTree.Satisfies (pointSetting (listOracle fr)) := by
  refine ⟨⟨⟨rfl, rfl, rfl⟩, holds_iff.mpr ?_⟩, ⟨exampleLeaf_satisfies 0 5, rfl⟩,
    ⟨exampleLeaf_satisfies 2 6, rfl⟩, rfl, rfl⟩
  constructor
  · intro h
    have hne : (0 : ZMod fr) ≠ 1 := zero_ne_one
    exact absurd h hne
  · trivial
  · intro h
    have hne : (0 : ZMod fr) ≠ 1 := zero_ne_one
    exact absurd h hne
  · intro _
    decide +kernel
  · intro _
    decide +kernel
  · exact Setting.multifold_holds_iff.mpr fun _ => by decide +kernel
  · exact Setting.multifold_holds_iff.mpr fun _ => by decide +kernel
  · exact Setting.multifoldWithRelaxed_holds_iff.mpr fun _ => by decide +kernel
  · simp only [exampleNode]

/-- No two sequences of the tree have one hash. -/
theorem exampleTree_injOn : Set.InjOn (hash (pointSetting (listOracle fr)))
    {x | x ∈ exampleTree.transcripts (pointSetting (listOracle fr))} := by
  have hall : ∀ x ∈ exampleTree.transcripts (pointSetting (listOracle fr)),
      ∀ y ∈ exampleTree.transcripts (pointSetting (listOracle fr)),
        hash (pointSetting (listOracle fr)) x = hash (pointSetting (listOracle fr)) y → x = y := by
    decide +kernel
  intro x hx y hy hxy
  exact hall x hx y hy hxy

/-- Three steps from `5` to `8`. -/
theorem tree_sound_three :
    Steps (addIndex (ZMod fr) 1).Step 0 3 [5] [8] ∧ (3 : ZMod fr) = 0 + (3 : ℕ) := by
  have hsound := tree_sound (pointSetting (listOracle fr)) (addIndex (ZMod fr) 1) exampleTree
    exampleTree_satisfies exampleTree_injOn
  exact ⟨hsound.1, hsound.2.1⟩

end Example
end NexusVm.Nova.Circuits.Pcd
