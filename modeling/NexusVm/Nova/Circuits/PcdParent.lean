import NexusVm.Nova.Circuits.PcdComplete

/-!
# Parents of nodes that do not meet

`prove_parent` does not compare the ranges and the states of its children.  Only the circuit of the
parent does, and its synthesis in the mode of a prover does not check that the constraints hold.
-/

namespace NexusVm.Nova.Circuits.Pcd

open R1cs Cyclefold Synth

variable {n b : ℕ} {G1 G2 PP1 PP2 : Type} [Fact n.Prime] [Fact b.Prime] [AddCommGroup G1]
  [Module (ZMod n) G1] [AddCommGroup G2] [Module (ZMod b) G2]
  {c : Setting n b G1 G2 PP1 PP2} {SC : StepCircuit (ZMod n)}

/-- An instance that does not start with one is not allocated. -/
theorem allocNode_eq_panic {U : RelaxedR1CSInstance (ZMod n) G1}
    {U_secondary : RelaxedR1CSInstance (ZMod b) G2} {u : R1CSInstance (ZMod n) G1}
    (proof : NIMFSProof b G1 G2) (h : u.X.head? ≠ some 1) :
    allocNode c U U_secondary u proof = .error .panic := by
  obtain ⟨commitment_W, X⟩ := u
  cases X with
  | nil => rfl
  | cons x X =>
      have hx : x ≠ 1 := fun hx => h (congrArg some hx)
      simp only [allocNode, Run.assert, List.length_cons, Nat.zero_lt_succ, if_true,
        List.getD_cons_zero, if_neg hx]
      rfl

/-- The fold of both children into one pair for each curve. -/
def parentFold (c : Setting n b G1 G2 PP1 PP2) (params : PublicParams (ZMod n) PP1 PP2)
    (left_node right_node : PCDNode n b G1 G2) :
    Run Cyclefold.Error (Setting.Folded n b G1 G2) := do
  let fold_l ← c.prove params.pp params.pp_secondary params.digest params.shape left_node.U
    left_node.W left_node.U_secondary left_node.W_secondary left_node.u left_node.w
  let fold_r ← c.prove params.pp params.pp_secondary params.digest params.shape right_node.U
    right_node.W right_node.U_secondary right_node.W_secondary right_node.u right_node.w
  c.proveWithRelaxed params.pp params.pp_secondary params.digest params.shape fold_l.U
    fold_l.W fold_l.U_secondary fold_l.W_secondary fold_r.U fold_r.W fold_r.U_secondary
    fold_r.W_secondary

variable {params : PublicParams (ZMod n) PP1 PP2} {left_node right_node : PCDNode n b G1 G2}

variable {node : PCDNode n b G1 G2}

/-- An accepted node is folded into its accumulators, whatever its instance starts with. -/
theorem exists_prove_node (hb : 2 ^ 127 ≤ b) (h : Verified c params node) :
    ∃ fold, c.prove params.pp params.pp_secondary params.digest params.shape node.U node.W
        node.U_secondary node.W_secondary node.u node.w = .ok fold ∧
      RelaxedSized params.shape fold.U fold.W ∧
      RelaxedSized c.secondary.shape fold.U_secondary fold.W_secondary :=
  Setting.exists_prove params.digest hb (foldable_lengths c.C1 params.shape params.pp)
    (foldable_sized c.C2 c.secondary.shape params.pp_secondary)
    (fun circuit _ => Setting.synthesize_sized circuit) (relaxedSized_of_satisfied h.primary)
    (relaxedSized_of_satisfied h.secondary) ⟨h.strict.lengthX, h.strict.lengthW⟩

variable (system : System c SC)

/-- **No error is returned** for accepted nodes, whether they meet or not: there is a parent if both
instances start with one, and a panic otherwise. -/
theorem proveParent_ok_or_panic (hb : 2 ^ 127 ≤ b) (hl : Verified c params left_node)
    (hr : Verified c params right_node) :
    (left_node.u.X.head? = some 1 ∧ right_node.u.X.head? = some 1 →
      ∃ node, proveParent system params left_node right_node = .ok node) ∧
    (¬ (left_node.u.X.head? = some 1 ∧ right_node.u.X.head? = some 1) →
      proveParent system params left_node right_node = .error .panic) := by
  obtain ⟨fold_l, hprove_l, hsized_l, hsized_l_secondary⟩ := exists_prove_node hb hl
  obtain ⟨fold_r, hprove_r, hsized_r, hsized_r_secondary⟩ := exists_prove_node hb hr
  obtain ⟨_, -, hrelaxed⟩ := Setting.exists_proveWithRelaxed params.digest hb
    (foldable_lengths c.C1 params.shape params.pp)
    (foldable_sized c.C2 c.secondary.shape params.pp_secondary)
    (fun circuit _ => Setting.synthesize_sized circuit) hsized_l hsized_l_secondary hsized_r
    hsized_r_secondary
  obtain ⟨fold, hprove, -⟩ := hrelaxed (.inr Setting.synthesize_sized)
  constructor
  · rintro ⟨hone_l, hone_r⟩
    have hleft : allocNode c left_node.U left_node.U_secondary left_node.u fold_l.proof = .ok _ :=
      allocNode_eq_ok.mpr ⟨hone_l, rfl⟩
    have hright : allocNode c right_node.U right_node.U_secondary right_node.u fold_r.proof =
        .ok _ := allocNode_eq_ok.mpr ⟨hone_r, rfl⟩
    exact ⟨_, (proveParent_eq_ok system).mpr ⟨fold_l, fold_r, fold, (_, _), hprove_l, hprove_r,
      hprove, hleft, hright, rfl⟩⟩
  · intro hone
    simp only [proveParent, hprove_l, hprove_r, hprove, bind, Except.bind]
    by_cases hone_l : left_node.u.X.head? = some 1
    · have hleft : allocNode c left_node.U left_node.U_secondary left_node.u fold_l.proof =
          .ok _ := allocNode_eq_ok.mpr ⟨hone_l, rfl⟩
      have hone_r : right_node.u.X.head? ≠ some 1 := fun h => hone ⟨hone_l, h⟩
      simp only [hleft, allocNode_eq_panic _ hone_r]
    · simp only [allocNode_eq_panic _ hone_l]

theorem proveParent_ne_error (hb : 2 ^ 127 ≤ b) (hl : Verified c params left_node)
    (hr : Verified c params right_node) (e : Cyclefold.Error) :
    proveParent system params left_node right_node ≠ .error (.error e) := by
  obtain ⟨hok, hpanic⟩ := proveParent_ok_or_panic system hb hl hr
  intro h
  by_cases hone : left_node.u.X.head? = some 1 ∧ right_node.u.X.head? = some 1
  · obtain ⟨node, hnode⟩ := hok hone
    cases h.symm.trans hnode
  · cases h.symm.trans (hpanic hone)

/-! ## When nodes that do not meet are rejected and two leaves -/

/-- Two nodes that do not meet are rejected with an error, and no node is returned that the verifier
rejects. -/
structure MeetingChecked [DecidableEq G1] [DecidableEq G2] (system : System c SC)
    (params : PublicParams (ZMod n) PP1 PP2) (left_node right_node : PCDNode n b G1 G2) : Prop where
  rejects : ¬ Meets SC left_node right_node →
    ∃ e, proveParent system params left_node right_node = .error (.error e)
  sound : ∀ node, proveParent system params left_node right_node = .ok node →
    node.verify c params = .ok ()

/-- What the circuit of a parent enforces for children that meet. -/
structure ParentHolds (c : Setting n b G1 G2 PP1 PP2) (SC : StepCircuit (ZMod n))
    (params : PublicParams (ZMod n) PP1 PP2) (left_node right_node : PCDNode n b G1 G2) :
    Prop where
  step : (SC.generateConstraints (SC.hint left_node.j.toNat left_node.z_j) left_node.j.toNat
    left_node.z_j).holds
  square : left_node.i ≠ left_node.j → SquareFits c params left_node right_node
  leaf : left_node.i = left_node.j → ∀ fold, parentFold c params left_node right_node = .ok fold →
    LeafAgain c SC params left_node right_node fold

/-- The conditions for one parent are those for its children. -/
theorem IsParent.holds_iff {fold_l fold_r fold : Setting.Folded n b G1 G2}
    {nodes : NodeVar n b G2 × NodeVar n b G2} (hb : 2 ^ 127 ≤ b) (hn : 2 ^ 127 ≤ n)
    (hshape : params.shape = system.shape) (hl : Verified c params left_node)
    (hr : Verified c params right_node) (hz : StatesSized SC left_node right_node)
    (hmeets : Meets SC left_node right_node)
    (h : IsParent system params left_node right_node node fold_l fold_r fold nodes) :
    Verified c params node ↔ ParentHolds c SC params left_node right_node := by
  have hfold : parentFold c params left_node right_node = .ok fold :=
    bind_eq_ok.mpr ⟨fold_l, h.proved_l, bind_eq_ok.mpr ⟨fold_r, h.proved_r, h.proved⟩⟩
  rw [h.verified_iff system hb hn hshape hl hr hz hmeets]
  constructor
  · rintro ⟨hstep, hsquare, hleaf⟩
    constructor
    · exact hstep
    · intro hne r hr
      obtain rfl := Except.ok.inj ((h.challenge system).symm.trans hr)
      exact hsquare hne
    · intro heq fold' hfold'
      obtain rfl := Except.ok.inj (hfold.symm.trans hfold')
      exact hleaf heq
  · intro hholds
    refine ⟨hholds.step, ?_, ?_⟩
    · intro hne
      exact hholds.square hne _ (h.challenge system)
    · intro heq
      exact hholds.leaf heq fold hfold

/-- **Nodes that do not meet.**  For two accepted nodes `prove_parent` rejects what does not meet,
and returns nothing that the verifier rejects, exactly if the nodes meet and, where both instances
start with one, so that it does not panic, the constraints of the parent hold: those of the step,
and for a left range that is not empty the one that the square of the challenge fits. -/
theorem proveParent_checked_iff [DecidableEq G1] [DecidableEq G2] (hb : 2 ^ 127 ≤ b)
    (hn : 2 ^ 127 ≤ n) (hshape : params.shape = system.shape)
    (hl : left_node.verify c params = .ok ()) (hr : right_node.verify c params = .ok ())
    (hz : StatesSized SC left_node right_node) :
    MeetingChecked system params left_node right_node ↔
      Meets SC left_node right_node ∧
      (left_node.u.X.head? = some 1 → right_node.u.X.head? = some 1 →
        ParentHolds c SC params left_node right_node) := by
  rw [verify_eq_ok] at hl hr
  constructor
  · intro hchecked
    have hmeets : Meets SC left_node right_node := by
      by_contra hunmet
      obtain ⟨e, he⟩ := hchecked.rejects hunmet
      exact proveParent_ne_error system hb hl hr e he
    refine ⟨hmeets, fun hone_l hone_r => ?_⟩
    obtain ⟨node, hnode⟩ := (proveParent_ok_or_panic system hb hl hr).1 ⟨hone_l, hone_r⟩
    obtain ⟨fold_l, fold_r, fold, nodes, h⟩ := (proveParent_eq_ok system).mp hnode
    exact (h.holds_iff system hb hn hshape hl hr hz hmeets).mp
      ((verify_eq_ok c).mp (hchecked.sound node hnode))
  · rintro ⟨hmeets, hholds⟩
    constructor
    · intro hunmet
      exact absurd hmeets hunmet
    · intro node hnode
      obtain ⟨fold_l, fold_r, fold, nodes, h⟩ := (proveParent_eq_ok system).mp hnode
      have hone_l := (allocNode_eq_ok.mp h.left).1
      have hone_r := (allocNode_eq_ok.mp h.right).1
      exact (verify_eq_ok c).mpr ((h.holds_iff system hb hn hshape hl hr hz hmeets).mpr
        (hholds hone_l hone_r))

section Example

open Bn254

/-- A leaf over one number. -/
noncomputable def sumLeaf (i : UInt64) (z : ZMod fr) : PCDNode fr fq Unit Unit :=
  proveLeaf (sumSystem 1) sumParams i [z]

theorem sumLeaf_verified {i : UInt64} (hi : i.toNat + 1 < 2 ^ 64) (z : ZMod fr) :
    Verified sumSetting sumParams (sumLeaf i z) ∧ (sumLeaf i z).j.toNat = i.toNat + 1 ∧
      (sumLeaf i z).z_j = [z + i.toNat] :=
  proveLeaf_verified (sumSystem 1) (addIndex_computes (ZMod fr) 1) rfl hi rfl

/-- The leaves that start at `0` and at `2` meet. -/
theorem proveParent_checked_leaves :
    MeetingChecked (sumSystem 1) sumParams (sumLeaf 0 0) (sumLeaf 2 1) := by
  obtain ⟨hl, hj, hz_j⟩ := sumLeaf_verified (i := 0) (by decide) 0
  obtain ⟨hr, -, hz_k⟩ := sumLeaf_verified (i := 2) (by decide) 1
  have hcomputes := addIndex_computes (ZMod fr) 1
  apply (proveParent_checked_iff (sumSystem 1) (by norm_num [fq]) (by norm_num [fr]) rfl
    ((verify_eq_ok sumSetting).mpr hl) ((verify_eq_ok sumSetting).mpr hr)
    ⟨rfl, by rw [hz_j]; rfl, by rw [hz_k]; rfl⟩).mpr
  constructor
  · constructor
    · rw [hj]
      rfl
    · rw [hcomputes.value_hint _ (by rw [hz_j]; rfl), hj, hz_j]
      simp [sumLeaf, proveLeaf]
  · intro _ _
    constructor
    · exact hcomputes.holds _ _ (by rw [hz_j]; rfl)
    · intro _
      exact squareFits_of_le (by norm_num [fr, fq]) _ _
    · intro heq
      have hi := congrArg UInt64.toNat heq
      rw [hj] at hi
      cases hi

/-- The leaves that start at `0` and at `5` do not meet.  They have a parent, and the verifier
rejects it. -/
theorem proveParent_unchecked :
    (sumLeaf 0 0).verify sumSetting sumParams = .ok () ∧
      (sumLeaf 5 0).verify sumSetting sumParams = .ok () ∧
      ¬ Meets (addIndex (ZMod fr) 1) (sumLeaf 0 0) (sumLeaf 5 0) ∧
      ∃ node, proveParent (sumSystem 1) sumParams (sumLeaf 0 0) (sumLeaf 5 0) = .ok node ∧
        node.verify sumSetting sumParams ≠ .ok () := by
  obtain ⟨hl, hj, hz_j⟩ := sumLeaf_verified (i := 0) (by decide) 0
  obtain ⟨hr, hk, hz_k⟩ := sumLeaf_verified (i := 5) (by decide) 0
  refine ⟨(verify_eq_ok _).mpr hl, (verify_eq_ok _).mpr hr, ?_, ?_⟩
  · intro hmeets
    have hnext := hmeets.next
    rw [hj] at hnext
    cases hnext
  · obtain ⟨node, hnode⟩ := (proveParent_ok_or_panic (sumSystem 1) (by norm_num [fq]) hl hr).1
      ⟨rfl, rfl⟩
    refine ⟨node, hnode, fun hverify => ?_⟩
    have hverified := (verify_eq_ok sumSetting).mp hverify
    obtain ⟨fold_l, fold_r, fold, nodes, h⟩ := (proveParent_eq_ok (sumSystem 1)).mp hnode
    have hinput := h.input (sumSystem 1) (by norm_num [fq]) rfl hl hr
      ⟨rfl, by rw [hz_j]; rfl, by rw [hz_k]; rfl⟩
    have hstrict := hverified.strict
    rw [h.eq] at hstrict
    have haccepted := (satisfied_synthesize_iff (sumSystem 1) rfl hinput.valid).mp hstrict
    have hne : (sumLeaf 0 0).i ≠ (sumLeaf 0 0).j := by
      intro heq
      have hi := congrArg UInt64.toNat heq
      rw [hj] at hi
      cases hi
    have hash_r : hash sumSetting (transcript sumSetting sumParams.digest
        ((sumLeaf 0 0).j.toNat + 1) (sumLeaf 5 0).j.toNat
        ((sumLeaf 0 0).z_j.map (· + (((sumLeaf 0 0).j.toNat : ℕ) : ZMod fr))) (sumLeaf 5 0).z_j
        nodes.2.U nodes.2.U_secondary) = nodes.2.u.X.getD 1 0 :=
      haccepted.hash_r ((base_iff (by norm_num [fr]) _).not.mpr hne)
    rw [hinput.right.U, hinput.right.U_secondary, hinput.right.u] at hash_r
    -- the sums that are hashed differ by two
    have hsum := hash_r.trans hr.hash.symm
    rw [hash_sumOracle, hash_sumOracle, hj, hk, hz_j, hz_k] at hsum
    have hi : (sumLeaf 5 0).i = 5 := rfl
    have hz_i : (sumLeaf 5 0).z_i = [0] := rfl
    have h0 : UInt64.toNat 0 = 0 := rfl
    have h5 : UInt64.toNat 5 = 5 := rfl
    simp only [transcript, hi, hz_i, h0, h5, List.map_cons, List.map_nil, List.sum_cons,
      List.sum_nil] at hsum
    have hcast : ((3 : ℕ) : ZMod fr) = (5 : ℕ) := by
      push_cast at hsum ⊢
      linear_combination hsum
    exact absurd (toNat_inj_of_cast (by norm_num [fr]) (by norm_num) (by norm_num) hcast)
      (by norm_num)

end Example

end NexusVm.Nova.Circuits.Pcd
