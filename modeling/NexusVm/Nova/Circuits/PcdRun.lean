import NexusVm.Nova.Circuits.Fold
import NexusVm.Nova.Circuits.PcdNode

/-!
# Trees that the prover builds

A leaf is accepted.  A parent of accepted children with adjacent ranges is accepted if both children
start with one and the square of the challenge fits in the other field, and not otherwise.
-/

namespace NexusVm.Nova.Circuits.Pcd

open R1cs Cyclefold Synth

variable {n b : ℕ} {G1 G2 PP1 PP2 : Type} [Fact n.Prime] [Fact b.Prime] [AddCommGroup G1]
  [Module (ZMod n) G1] [AddCommGroup G2] [Module (ZMod b) G2]
  {c : Setting n b G1 G2 PP1 PP2} {SC : StepCircuit (ZMod n)} (system : System c SC)
  {params : PublicParams (ZMod n) PP1 PP2} {f : ZMod n → List (ZMod n) → List (ZMod n)}

/-- The fold of both children of a node. -/
def InputVar.fold (c : Setting n b G1 G2 PP1 PP2) (input : InputVar n b G2)
    (should_enforce : Bool) : Synth (RelaxedPrimaryVar n b × RelaxedSecondaryVar b G2) :=
  let fold_l := (input.nodes.1.fold c input.vk should_enforce).value
  let fold_r := (input.nodes.2.fold c input.vk should_enforce).value
  c.multifoldWithRelaxed input.vk fold_l.1 fold_l.2 fold_r.1 fold_r.2 input.commitment_T
    input.commitment_T_secondary input.proof_secondary should_enforce

theorem length_fold {input : InputVar n b G2} (h : input.Valid SC) (should_enforce : Bool) :
    (input.fold c should_enforce).value.1.X.length = augmentedCircuitNumIo ∧
      (input.fold c should_enforce).value.2.X.length = secondaryNumIo := by
  obtain ⟨hl, hl_secondary⟩ := h.left.length_fold (c := c) input.vk should_enforce
  obtain ⟨hr, hr_secondary⟩ := h.right.length_fold (c := c) input.vk should_enforce
  exact Setting.length_multifoldWithRelaxed hl hr hl_secondary hr_secondary h.proof_E_0
    h.proof_E_1 h.proof_W

/-- What the last sponge absorbs: constant accumulators in the base case, and the folded ones
otherwise. -/
theorem value_body_select (aux : SC.Aux) {input : InputVar n b G2} (h : input.Valid SC) :
    (body c SC aux input).value.1 = transcript c input.vk input.i input.k input.z_i
      (if input.i = input.j then (SC.generateConstraints aux input.j input.z_j).value
        else input.z_k)
      (if input.i = input.j then (baseAccumulators c).1
        else (input.fold c !decide (input.i = input.j)).value.1)
      (if input.i = input.j then (baseAccumulators c).2
        else (input.fold c !decide (input.i = input.j)).value.2) := by
  obtain ⟨hlen, hlen_secondary⟩ := length_fold (c := c) h !decide (input.i = input.j)
  have hbase : (baseAccumulators c).1.X.length = augmentedCircuitNumIo :=
    List.length_replicate
  have hbase_secondary : (baseAccumulators c).2.X.length = secondaryNumIo :=
    List.length_replicate
  rw [InputVar.fold] at hlen hlen_secondary ⊢
  have hout : (generateConstraints c SC aux input 0).value = _ :=
    value_generateConstraints h.toSized
  rw [← hout]
  simp only [generateConstraints, body, value_bind, value_pure]
  rw [selectRelaxed_eq _ (hbase.trans hlen.symm),
    selectRelaxed_eq _ (hbase_secondary.trans hlen_secondary.symm)]
  simp only [decide_eq_true_eq]

/-- The last hash of a leaf. -/
theorem value_body_base (aux : SC.Aux) {input : InputVar n b G2} (h : input.Valid SC)
    (hi : input.i = input.j) : (body c SC aux input).value.1 =
      transcript c input.vk input.i input.k input.z_i
        (SC.generateConstraints aux input.j input.z_j).value (baseAccumulators c).1
        (baseAccumulators c).2 := by
  rw [value_body_select aux h, if_pos hi, if_pos hi, if_pos hi]

/-- The last hash of an inner node. -/
theorem value_body_fold (aux : SC.Aux) {input : InputVar n b G2} (h : input.Valid SC)
    (hi : input.i ≠ input.j) : (body c SC aux input).value.1 =
      transcript c input.vk input.i input.k input.z_i input.z_k (input.fold c true).value.1
        (input.fold c true).value.2 := by
  have hdecide : (!decide (input.i = input.j)) = true := by
    rw [decide_eq_false hi, Bool.not_false]
  rw [value_body_select aux h, if_neg hi, if_neg hi, if_neg hi, hdecide]

variable {z_i : List (ZMod n)}

theorem valid_allocBase {vk i : ZMod n} (hz : z_i.length = SC.arity) :
    (allocBase c vk i z_i : InputVar n b G2).Valid SC :=
  ⟨⟨hz, hz, hz⟩, baseNode_valid c, baseNode_valid c, rfl, rfl, rfl⟩

/-- The constraints of a leaf hold. -/
theorem accepted_allocBase (hf : SC.Computes f) {vk i hash_input : ZMod n}
    (hz : z_i.length = SC.arity)
    (h : hash_input = hash c (body c SC (SC.hint i z_i) (allocBase c vk i z_i)).value.1) :
    Accepted c SC (SC.hint i z_i) (allocBase c vk i z_i) hash_input := by
  have hbase : decide ((allocBase c vk i z_i).i = (allocBase c vk i z_i).j) = true :=
    decide_eq_true rfl
  constructor
  · intro _ z hz
    obtain ⟨k, hk, rfl⟩ := List.mem_iff_getElem.mp hz
    rw [List.getElem_zip]
    rfl
  · exact hf.holds i z_i hz
  · intro _
    rfl
  · intro hne
    exact absurd rfl hne
  · intro hne
    exact absurd rfl hne
  · rw [hbase]
    exact Setting.multifold_holds_iff.mpr nofun
  · rw [hbase]
    exact Setting.multifold_holds_iff.mpr nofun
  · rw [hbase]
    exact Setting.multifoldWithRelaxed_holds_iff.mpr nofun
  · exact h

/-- The instance of a synthesis is satisfied exactly if the circuit accepts the input. -/
theorem satisfied_synthesize_iff (hshape : params.shape = system.shape) {input : InputVar n b G2}
    (hvalid : input.Valid SC) :
    Satisfied c.C1 params.shape (synthesize system params input).1
        (synthesize system params input).2.1 params.pp ↔
      Accepted c SC (SC.hint input.j input.z_j) input
        (hash c (body c SC (SC.hint input.j input.z_j) input).value.1) := by
  rw [hshape, ← holds_iff]
  exact system.satisfied_iff c.C1 params.pp hvalid _

/-- The returned state of a synthesis. -/
theorem value_synthesize {input : InputVar n b G2} (h : input.Sized SC) :
    (synthesize system params input).2.2 =
      if input.i = input.j then
        (SC.generateConstraints (SC.hint input.j input.z_j) input.j input.z_j).value
      else input.z_k := by
  have hvalue : (generateConstraints c SC (SC.hint input.j input.z_j) input
      (hash c (body c SC (SC.hint input.j input.z_j) input).value.1)).value = _ :=
    value_generateConstraints h
  exact hvalue

/-- The default accumulators of the prover are the constants of the circuit. -/
theorem relaxedMap_newInstance (hshape : params.shape = system.shape) :
    relaxedMap c.cycle.affine1 (newInstance params.shape) =
      (baseAccumulators c : RelaxedPrimaryVar n b × RelaxedSecondaryVar b G2).1 := by
  rw [newInstance, hshape, system.isAugmented.numIo]
  rfl

/-- **A leaf**: it is accepted with the range of one step. -/
theorem proveLeaf_verified (hf : SC.Computes f) (hshape : params.shape = system.shape) {i : UInt64}
    (hi : i.toNat + 1 < 2 ^ 64) (hz : z_i.length = SC.arity) :
    Verified c params (proveLeaf system params i z_i) ∧
      (proveLeaf system params i z_i).j.toNat = i.toNat + 1 ∧
      (proveLeaf system params i z_i).z_j = f i.toNat z_i := by
  have hvalid : (allocBase c params.digest i.toNat z_i).Valid SC := valid_allocBase hz
  have hj : (i + 1).toNat = i.toNat + 1 := by
    rw [UInt64.toNat_add, UInt64.toNat_one, Nat.mod_eq_of_lt hi]
  have hout : (synthesize system params (allocBase c params.digest i.toNat z_i)).2.2 =
      (SC.generateConstraints (SC.hint i.toNat z_i) i.toNat z_i).value := by
    rw [value_synthesize system hvalid.toSized]
    exact if_pos rfl
  refine ⟨?_, hj, hout.trans (hf.value_hint _ hz)⟩
  constructor
  · have hnew : newInstance c.secondary.shape =
        (baseAccumulators c : RelaxedPrimaryVar n b × RelaxedSecondaryVar b G2).2 := by
      rw [newInstance, c.secondary.numIo]
      rfl
    show hash c (transcript c params.digest i.toNat (i + 1).toNat z_i
      (synthesize system params (allocBase c params.digest i.toNat z_i)).2.2
      (relaxedMap c.cycle.affine1 (newInstance params.shape)) (newInstance c.secondary.shape)) =
      hash c (body c SC (SC.hint i.toNat z_i) (allocBase c params.digest i.toNat z_i)).value.1
    rw [value_body_base _ hvalid rfl, relaxedMap_newInstance system hshape, hnew, hj, hout,
      Nat.cast_succ]
    rfl
  · exact Nat.one_lt_two
  · exact relaxedSatisfied_new c.C1 params.shape params.pp
  · exact relaxedSatisfied_new c.C2 c.secondary.shape params.pp_secondary
  · exact (satisfied_synthesize_iff system hshape hvalid).mpr (accepted_allocBase hf hz rfl)

/-! ## Parents -/

/-- What the circuit of a parent is given. -/
def parentInput (c : Setting n b G1 G2 PP1 PP2) (params : PublicParams (ZMod n) PP1 PP2)
    (left_node right_node : PCDNode n b G1 G2) (nodes : NodeVar n b G2 × NodeVar n b G2)
    (proof : NIMFSProof b G1 G2) : InputVar n b G2 where
  vk := params.digest
  i := left_node.i.toNat
  j := left_node.j.toNat
  k := right_node.j.toNat
  z_i := left_node.z_i
  z_j := left_node.z_j
  z_k := right_node.z_j
  nodes := nodes
  commitment_T := c.cycle.affine1 proof.commitment_T
  commitment_T_secondary := proof.proof_secondary
  proof_secondary :=
    ((allocProof proof.commitment_E_proof.1, allocProof proof.commitment_E_proof.2),
      allocProof proof.commitment_W_proof)

/-- What a parent consists of. -/
structure IsParent (system : System c SC) (params : PublicParams (ZMod n) PP1 PP2)
    (left_node right_node node : PCDNode n b G1 G2) (fold_l fold_r fold : Setting.Folded n b G1 G2)
    (nodes : NodeVar n b G2 × NodeVar n b G2) : Prop where
  proved_l : c.prove params.pp params.pp_secondary params.digest params.shape left_node.U
    left_node.W left_node.U_secondary left_node.W_secondary left_node.u left_node.w = .ok fold_l
  proved_r : c.prove params.pp params.pp_secondary params.digest params.shape right_node.U
    right_node.W right_node.U_secondary right_node.W_secondary right_node.u right_node.w =
      .ok fold_r
  proved : c.proveWithRelaxed params.pp params.pp_secondary params.digest params.shape fold_l.U
    fold_l.W fold_l.U_secondary fold_l.W_secondary fold_r.U fold_r.W fold_r.U_secondary
    fold_r.W_secondary = .ok fold
  left : allocNode c left_node.U left_node.U_secondary left_node.u fold_l.proof = .ok nodes.1
  right : allocNode c right_node.U right_node.U_secondary right_node.u fold_r.proof = .ok nodes.2
  eq :
    let out := synthesize system params (parentInput c params left_node right_node nodes fold.proof)
    node = ⟨left_node.i, right_node.j, left_node.z_i, right_node.z_j, fold.U, fold.W,
      fold.U_secondary, fold.W_secondary, out.1, out.2.1⟩

theorem proveParent_eq_ok {left_node right_node node : PCDNode n b G1 G2} :
    proveParent system params left_node right_node = .ok node ↔
      ∃ fold_l fold_r fold nodes,
        IsParent system params left_node right_node node fold_l fold_r fold nodes := by
  simp only [proveParent, bind_eq_ok]
  constructor
  · rintro ⟨fold_l, hl, fold_r, hr, fold, hfold, left, hleft, right, hright, hnode⟩
    exact ⟨fold_l, fold_r, fold, (left, right), hl, hr, hfold, hleft, hright,
      (Except.ok.inj hnode).symm⟩
  · rintro ⟨fold_l, fold_r, fold, ⟨left, right⟩, hl, hr, hfold, hleft, hright, rfl⟩
    exact ⟨fold_l, hl, fold_r, hr, fold, hfold, left, hleft, right, hright, rfl⟩

/-- The challenge with which the folds of two nodes are folded. -/
def parentChallenge (c : Setting n b G1 G2 PP1 PP2) (params : PublicParams (ZMod n) PP1 PP2)
    (left_node right_node : PCDNode n b G1 G2) : Run Cyclefold.Error (ZMod n) := do
  let fold_l ← c.prove params.pp params.pp_secondary params.digest params.shape left_node.U
    left_node.W left_node.U_secondary left_node.W_secondary left_node.u left_node.w
  let fold_r ← c.prove params.pp params.pp_secondary params.digest params.shape right_node.U
    right_node.W right_node.U_secondary right_node.W_secondary right_node.u right_node.w
  let cross ← (commit_T_with_relaxed c.C1 params.shape params.pp fold_l.U fold_l.W fold_r.U
    fold_r.W).mapError .r1cs
  .ok (c.relaxedChallenge params.digest fold_l.U fold_l.U_secondary fold_r.U cross.2).1

/-- The square of the challenge fits in the other field. -/
def SquareFits (c : Setting n b G1 G2 PP1 PP2) (params : PublicParams (ZMod n) PP1 PP2)
    (left_node right_node : PCDNode n b G1 G2) : Prop :=
  ∀ r, parentChallenge c params left_node right_node = .ok r → (r ^ 2).val < b

/-- When two nodes have a parent: both instances start with one, and the square of the challenge
fits in the other field. -/
structure Fits (c : Setting n b G1 G2 PP1 PP2) (params : PublicParams (ZMod n) PP1 PP2)
    (left_node right_node : PCDNode n b G1 G2) : Prop where
  left : left_node.u.X.head? = some 1
  right : right_node.u.X.head? = some 1
  square : SquareFits c params left_node right_node

/-- Two nodes with adjacent ranges, and states with the step between them. -/
structure Adjacent (SC : StepCircuit (ZMod n)) (f : ZMod n → List (ZMod n) → List (ZMod n))
    (left_node right_node : PCDNode n b G1 G2) : Prop where
  nonempty : left_node.i ≠ left_node.j
  next : right_node.i.toNat = left_node.j.toNat + 1
  step : right_node.z_i = f left_node.j.toNat left_node.z_j
  z_i : left_node.z_i.length = SC.arity
  z_j : left_node.z_j.length = SC.arity
  z_k : right_node.z_j.length = SC.arity

/-- Two nodes meet: the second one starts after the step that the circuit takes from the end of the
first one. -/
structure Meets (SC : StepCircuit (ZMod n)) (left_node right_node : PCDNode n b G1 G2) : Prop where
  next : right_node.i.toNat = left_node.j.toNat + 1
  step : right_node.z_i = (SC.generateConstraints (SC.hint left_node.j.toNat left_node.z_j)
    left_node.j.toNat left_node.z_j).value

/-- The states that the circuit of a parent is given have the length that it was set up with. -/
structure StatesSized (SC : StepCircuit (ZMod n)) (left_node right_node : PCDNode n b G1 G2) :
    Prop where
  z_i : left_node.z_i.length = SC.arity
  z_j : left_node.z_j.length = SC.arity
  z_k : right_node.z_j.length = SC.arity

omit [Fact b.Prime] [AddCommGroup G1] [Module (ZMod n) G1] [AddCommGroup G2] [Module (ZMod b) G2] in
theorem Adjacent.statesSized {left_node right_node : PCDNode n b G1 G2}
    (h : Adjacent SC f left_node right_node) : StatesSized SC left_node right_node :=
  ⟨h.z_i, h.z_j, h.z_k⟩

omit [Fact b.Prime] [AddCommGroup G1] [Module (ZMod n) G1] [AddCommGroup G2] [Module (ZMod b) G2] in
theorem Adjacent.meets (hf : SC.Computes f) {left_node right_node : PCDNode n b G1 G2}
    (h : Adjacent SC f left_node right_node) : Meets SC left_node right_node :=
  ⟨h.next, h.step.trans (hf.value_hint _ h.z_j).symm⟩

/-- A fold with which the circuit accepts a parent whose left range is empty: the circuit takes it
for a leaf, and hashes constant accumulators. -/
structure LeafAgain (c : Setting n b G1 G2 PP1 PP2) (SC : StepCircuit (ZMod n))
    (params : PublicParams (ZMod n) PP1 PP2) (left_node right_node : PCDNode n b G1 G2)
    (fold : Setting.Folded n b G1 G2) : Prop where
  states : left_node.z_i = left_node.z_j
  range : right_node.j.toNat = left_node.j.toNat + 1
  secondary : RelaxedSatisfied c.C2 c.secondary.shape fold.U_secondary fold.W_secondary
    params.pp_secondary
  hash : hash c (transcript c params.digest left_node.i.toNat right_node.j.toNat left_node.z_i
      right_node.z_j (relaxedMap c.cycle.affine1 fold.U) fold.U_secondary) =
    hash c (transcript c params.digest left_node.i.toNat right_node.j.toNat left_node.z_i
      (SC.generateConstraints (SC.hint left_node.j.toNat left_node.z_j) left_node.j.toNat
        left_node.z_j).value (baseAccumulators c).1 (baseAccumulators c).2)

section Parents

variable {left_node right_node node : PCDNode n b G1 G2}
  {fold_l fold_r fold : Setting.Folded n b G1 G2} {nodes : NodeVar n b G2 × NodeVar n b G2}

/-- The challenge of a parent. -/
theorem IsParent.challenge
    (h : IsParent system params left_node right_node node fold_l fold_r fold nodes) :
    parentChallenge c params left_node right_node =
      .ok (c.relaxedChallenge params.digest fold_l.U fold_l.U_secondary fold_r.U
        fold.proof.commitment_T).1 := by
  obtain ⟨cross, hcross, hat⟩ := bind_eq_ok.mp h.proved
  have hT : fold.proof.commitment_T = cross.2 := by
    simp only [Setting.proveWithRelaxedAt, bind_eq_ok] at hat
    obtain ⟨_, -, _, -, _, -, _, -, _, -, hat⟩ := hat
    cases hat
    rfl
  rw [hT]
  exact bind_eq_ok.mpr ⟨fold_l, h.proved_l, bind_eq_ok.mpr ⟨fold_r, h.proved_r,
    bind_eq_ok.mpr ⟨cross, hcross, rfl⟩⟩⟩

/-- Parents exist for accepted nodes that fit. -/
theorem exists_isParent (hb : 2 ^ 127 ≤ b) (hshape : params.shape = system.shape)
    (hl : Verified c params left_node) (hr : Verified c params right_node)
    (hfits : Fits c params left_node right_node) : ∃ node fold_l fold_r fold nodes,
      IsParent system params left_node right_node node fold_l fold_r fold nodes := by
  have hnumIo : params.shape.numIo = augmentedCircuitNumIo := by
    rw [hshape]
    exact system.isAugmented.numIo
  obtain ⟨fold_l, left, hprove_l, halloc_l, -, hsat_l, hsat_l_secondary⟩ :=
    exists_allocatedFold params.digest hb hnumIo hl.primary hl.secondary hl.strict hfits.left
  obtain ⟨fold_r, right, hprove_r, halloc_r, -, hsat_r, hsat_r_secondary⟩ :=
    exists_allocatedFold params.digest hb hnumIo hr.primary hr.secondary hr.strict hfits.right
  obtain ⟨cross, hcross, hfold⟩ := exists_proveWithRelaxed_satisfied params.digest hb hsat_l
    hsat_l_secondary hsat_r hsat_r_secondary
  have hchallenge := hfits.square _ (bind_eq_ok.mpr ⟨fold_l, hprove_l, bind_eq_ok.mpr
    ⟨fold_r, hprove_r, bind_eq_ok.mpr ⟨cross, mapError_eq_ok.mpr hcross, rfl⟩⟩⟩)
  obtain ⟨fold, hprove, -, -, -⟩ := hfold hchallenge
  exact ⟨_, fold_l, fold_r, fold, (left, right), hprove_l, hprove_r, hprove, halloc_l, halloc_r,
    rfl⟩

/-- Indices of the machine are equal if they are in the field. -/
theorem toNat_inj_of_cast (hn : 2 ^ 127 ≤ n) {i j : ℕ} (hi : i ≤ 2 ^ 64) (hj : j ≤ 2 ^ 64)
    (h : (i : ZMod n) = j) : i = j := by
  have hval := congrArg ZMod.val h
  rwa [ZMod.val_cast_of_lt (by omega), ZMod.val_cast_of_lt (by omega)] at hval

omit [AddCommGroup G1] [Module (ZMod n) G1] [AddCommGroup G2] [Module (ZMod b) G2] [Fact b.Prime] in
/-- The circuit takes exactly the empty left ranges for leaves. -/
theorem base_iff (hn : 2 ^ 127 ≤ n) (left_node : PCDNode n b G1 G2) :
    ((left_node.i.toNat : ℕ) : ZMod n) = left_node.j.toNat ↔ left_node.i = left_node.j := by
  constructor
  · intro h
    exact UInt64.toNat.inj (toNat_inj_of_cast hn left_node.i.toNat_lt.le left_node.j.toNat_lt.le h)
  · intro h
    rw [h]

/-- What the circuit of a parent is given, and what it makes of the children. -/
structure IsParent.Input (c : Setting n b G1 G2 PP1 PP2) (SC : StepCircuit (ZMod n))
    (params : PublicParams (ZMod n) PP1 PP2) (left_node right_node : PCDNode n b G1 G2)
    (fold_l fold_r fold : Setting.Folded n b G1 G2) (nodes : NodeVar n b G2 × NodeVar n b G2) :
    Prop where
  left : AllocatedFold c params.digest left_node.U left_node.U_secondary left_node.u fold_l nodes.1
  right : AllocatedFold c params.digest right_node.U right_node.U_secondary right_node.u fold_r
    nodes.2
  valid : (parentInput c params left_node right_node nodes fold.proof).Valid SC
  fold : ∀ should_enforce,
    (parentInput c params left_node right_node nodes fold.proof).fold c should_enforce =
      ⟨(relaxedMap c.cycle.affine1 fold.U, fold.U_secondary), should_enforce = true →
        (((c.relaxedChallenge params.digest fold_l.U fold_l.U_secondary fold_r.U
          fold.proof.commitment_T).1 : ZMod n) ^ 2).val < b⟩

theorem IsParent.input (hb : 2 ^ 127 ≤ b) (hshape : params.shape = system.shape)
    (hl : Verified c params left_node) (hr : Verified c params right_node)
    (hz : StatesSized SC left_node right_node)
    (h : IsParent system params left_node right_node node fold_l fold_r fold nodes) :
    IsParent.Input c SC params left_node right_node fold_l fold_r fold nodes := by
  have hnumIo : params.shape.numIo = augmentedCircuitNumIo := by
    rw [hshape]
    exact system.isAugmented.numIo
  obtain ⟨hallocated_l, -, -⟩ := allocatedFold_satisfied hb hnumIo hl.primary hl.secondary
    hl.strict h.proved_l h.left
  obtain ⟨hallocated_r, -, -⟩ := allocatedFold_satisfied hb hnumIo hr.primary hr.secondary
    hr.strict h.proved_r h.right
  obtain ⟨hE_0, hE_1, hW⟩ := proofSized_proveWithRelaxed h.proved
  constructor
  · exact hallocated_l
  · exact hallocated_r
  · exact ⟨⟨hz.z_i, hz.z_j, hz.z_k⟩, hallocated_l.valid, hallocated_r.valid, hE_0, hE_1, hW⟩
  · intro should_enforce
    have hfold := Setting.multifoldWithRelaxed_proveWithRelaxed hb h.proved should_enforce
    have hfold_l : nodes.1.fold c params.digest should_enforce = _ := hallocated_l.fold _
    have hfold_r : nodes.2.fold c params.digest should_enforce = _ := hallocated_r.fold _
    simp only [InputVar.fold, parentInput, hfold_l, hfold_r]
    exact hfold

/-- What the circuit of a parent enforces, for accepted children that meet: the step, and for a left
range that is not empty that the square of the challenge fits. -/
theorem IsParent.accepted_iff (hb : 2 ^ 127 ≤ b) (hn : 2 ^ 127 ≤ n)
    (hshape : params.shape = system.shape) (hl : Verified c params left_node)
    (hr : Verified c params right_node) (hz : StatesSized SC left_node right_node)
    (hmeets : Meets SC left_node right_node)
    (h : IsParent system params left_node right_node node fold_l fold_r fold nodes) :
    let input := parentInput c params left_node right_node nodes fold.proof
    Accepted c SC (SC.hint input.j input.z_j) input
        (hash c (body c SC (SC.hint input.j input.z_j) input).value.1) ↔
      (SC.generateConstraints (SC.hint input.j input.z_j) input.j input.z_j).holds ∧
      (left_node.i ≠ left_node.j → (((c.relaxedChallenge params.digest fold_l.U fold_l.U_secondary
        fold_r.U fold.proof.commitment_T).1 : ZMod n) ^ 2).val < b) ∧
      (left_node.i = left_node.j → left_node.z_i = left_node.z_j ∧
        right_node.j.toNat = left_node.j.toNat + 1) := by
  intro input
  have hinput := h.input system hb hshape hl hr hz
  have hbase : input.i = input.j ↔ left_node.i = left_node.j := base_iff hn left_node
  have hdecide : (!decide (input.i = input.j)) = true ↔ left_node.i ≠ left_node.j := by
    rw [Bool.not_eq_true', decide_eq_false_iff_not, hbase]
  have hk : input.k = input.j + 1 ↔ right_node.j.toNat = left_node.j.toNat + 1 := by
    have hcast : input.j + 1 = ((left_node.j.toNat + 1 : ℕ) : ZMod n) := (Nat.cast_succ _).symm
    rw [hcast]
    constructor
    · exact toNat_inj_of_cast hn right_node.j.toNat_lt.le left_node.j.toNat_lt
    · exact congrArg (Nat.cast : ℕ → ZMod n)
  have hfold_l : ∀ e, input.nodes.1.fold c input.vk e =
      ⟨(relaxedMap c.cycle.affine1 fold_l.U, fold_l.U_secondary), True⟩ := hinput.left.fold
  have hfold_r : ∀ e, input.nodes.2.fold c input.vk e =
      ⟨(relaxedMap c.cycle.affine1 fold_r.U, fold_r.U_secondary), True⟩ := hinput.right.fold
  have hfold : ∀ e, (input.fold c e).holds ↔ (e = true →
      (((c.relaxedChallenge params.digest fold_l.U fold_l.U_secondary fold_r.U
        fold.proof.commitment_T).1 : ZMod n) ^ 2).val < b) := by
    intro e
    rw [show input.fold c e = _ from hinput.fold e]
  constructor
  · intro haccepted
    refine ⟨haccepted.step, ?_, ?_⟩
    · intro hne
      exact (hfold _).mp haccepted.fold (hdecide.mpr hne)
    · intro heq
      constructor
      · apply List.ext_getElem (hz.z_i.trans hz.z_j.symm)
        intro k hk_i hk_j
        have hlt : k < (left_node.z_i.zip left_node.z_j).length := by
          rw [List.length_zip]
          exact lt_min hk_i hk_j
        have hpair := haccepted.base_z (hbase.mpr heq) _ (List.getElem_mem hlt)
        rwa [List.getElem_zip] at hpair
      · exact hk.mp (haccepted.base_k (hbase.mpr heq))
  · rintro ⟨hstep, hsquare, hleaf⟩
    constructor
    · intro heq z hmem
      obtain ⟨k, hlt, rfl⟩ := List.mem_iff_getElem.mp hmem
      have hstates : input.z_i = input.z_j := (hleaf (hbase.mp heq)).1
      rw [List.getElem_zip]
      simp only [hstates]
    · exact hstep
    · intro heq
      exact hk.mpr (hleaf (hbase.mp heq)).2
    · intro _
      show hash c (transcript c params.digest left_node.i.toNat left_node.j.toNat left_node.z_i
        left_node.z_j nodes.1.U nodes.1.U_secondary) = nodes.1.u.X.getD 1 0
      rw [hinput.left.U, hinput.left.U_secondary, hinput.left.u]
      exact hl.hash
    · intro _
      show hash c (transcript c params.digest (left_node.j.toNat + 1) right_node.j.toNat
        (SC.generateConstraints (SC.hint left_node.j.toNat left_node.z_j) left_node.j.toNat
          left_node.z_j).value right_node.z_j nodes.2.U nodes.2.U_secondary) =
        nodes.2.u.X.getD 1 0
      have hnext : ((right_node.i.toNat : ℕ) : ZMod n) = left_node.j.toNat + 1 := by
        rw [hmeets.next, Nat.cast_succ]
      rw [hinput.right.U, hinput.right.U_secondary, hinput.right.u, ← hmeets.step, ← hnext]
      exact hr.hash
    · rw [hfold_l]
      trivial
    · rw [hfold_r]
      trivial
    · exact (hfold _).mpr fun he => hsquare (hdecide.mp he)
    · rfl

/-- The folded primary pair of a parent is satisfied, whether the square of the challenge fits or
not, and the secondary one if it fits. -/
theorem IsParent.folded (hb : 2 ^ 127 ≤ b) (hshape : params.shape = system.shape)
    (hl : Verified c params left_node) (hr : Verified c params right_node)
    (h : IsParent system params left_node right_node node fold_l fold_r fold nodes) :
    RelaxedSatisfied c.C1 params.shape fold.U fold.W params.pp ∧
      ((((c.relaxedChallenge params.digest fold_l.U fold_l.U_secondary fold_r.U
          fold.proof.commitment_T).1 : ZMod n) ^ 2).val < b →
        RelaxedSatisfied c.C2 c.secondary.shape fold.U_secondary fold.W_secondary
          params.pp_secondary) := by
  have hnumIo : params.shape.numIo = augmentedCircuitNumIo := by
    rw [hshape]
    exact system.isAugmented.numIo
  obtain ⟨-, hsat_l, hsat_l_secondary⟩ := allocatedFold_satisfied hb hnumIo hl.primary
    hl.secondary hl.strict h.proved_l h.left
  obtain ⟨-, hsat_r, hsat_r_secondary⟩ := allocatedFold_satisfied hb hnumIo hr.primary
    hr.secondary hr.strict h.proved_r h.right
  constructor
  · -- for the secondary pairs their lengths suffice
    obtain ⟨_, -, hfold⟩ := Setting.exists_proveWithRelaxed params.digest hb
      (foldable_satisfied c.C1 params.shape params.pp)
      (foldable_sized c.C2 c.secondary.shape params.pp_secondary)
      (fun circuit _ => Setting.synthesize_sized circuit) hsat_l
      (relaxedSized_of_satisfied hsat_l_secondary) hsat_r
      (relaxedSized_of_satisfied hsat_r_secondary)
    obtain ⟨fold', hproved, hsat, -⟩ := hfold (.inr Setting.synthesize_sized)
    obtain rfl := Except.ok.inj (h.proved.symm.trans hproved)
    exact hsat
  · intro hsquare
    obtain ⟨cross, hcross, hrelaxed⟩ := exists_proveWithRelaxed_satisfied params.digest hb hsat_l
      hsat_l_secondary hsat_r hsat_r_secondary
    have hchallenge := Except.ok.inj ((h.challenge system).symm.trans (bind_eq_ok.mpr
      ⟨fold_l, h.proved_l, bind_eq_ok.mpr ⟨fold_r, h.proved_r, bind_eq_ok.mpr
        ⟨cross, mapError_eq_ok.mpr hcross, rfl⟩⟩⟩))
    rw [hchallenge] at hsquare
    obtain ⟨fold', hproved, -, hsat_secondary, -⟩ := hrelaxed hsquare
    obtain rfl := Except.ok.inj (h.proved.symm.trans hproved)
    exact hsat_secondary

/-- **When a parent of accepted children that meet is accepted.** -/
theorem IsParent.verified_iff (hb : 2 ^ 127 ≤ b) (hn : 2 ^ 127 ≤ n)
    (hshape : params.shape = system.shape) (hl : Verified c params left_node)
    (hr : Verified c params right_node) (hz : StatesSized SC left_node right_node)
    (hmeets : Meets SC left_node right_node)
    (h : IsParent system params left_node right_node node fold_l fold_r fold nodes) :
    Verified c params node ↔
      (SC.generateConstraints (SC.hint left_node.j.toNat left_node.z_j) left_node.j.toNat
        left_node.z_j).holds ∧
      (left_node.i ≠ left_node.j → (((c.relaxedChallenge params.digest fold_l.U fold_l.U_secondary
        fold_r.U fold.proof.commitment_T).1 : ZMod n) ^ 2).val < b) ∧
      (left_node.i = left_node.j → LeafAgain c SC params left_node right_node fold) := by
  have hinput := h.input system hb hshape hl hr hz
  have haccepted := h.accepted_iff system hb hn hshape hl hr hz hmeets
  have hsat := satisfied_synthesize_iff system hshape hinput.valid
  obtain ⟨hprimary, hsecondary⟩ := h.folded system hb hshape hl hr
  have hbody := fun heq : left_node.i = left_node.j =>
    value_body_base (c := c) (SC.hint left_node.j.toNat left_node.z_j) hinput.valid
      ((base_iff hn left_node).mpr heq)
  rw [h.eq]
  constructor
  · intro hverified
    obtain ⟨hstep, hsquare, hleaf⟩ := haccepted.mp (hsat.mp hverified.strict)
    refine ⟨hstep, hsquare, ?_⟩
    intro heq
    constructor
    · exact (hleaf heq).1
    · exact (hleaf heq).2
    · exact hverified.secondary
    · exact hverified.hash.trans (congrArg (Circuits.hash c) (hbody heq))
  · rintro ⟨hstep, hsquare, hleaf⟩
    have hcircuit := haccepted.mpr ⟨hstep, hsquare, fun heq =>
      ⟨(hleaf heq).states, (hleaf heq).range⟩⟩
    constructor
    · show hash c (transcript c params.digest left_node.i.toNat right_node.j.toNat left_node.z_i
        right_node.z_j (relaxedMap c.cycle.affine1 fold.U) fold.U_secondary) =
        hash c (body c SC _ (parentInput c params left_node right_node nodes fold.proof)).value.1
      by_cases heq : left_node.i = left_node.j
      · exact (hleaf heq).hash.trans (congrArg (Circuits.hash c) (hbody heq).symm)
      · rw [value_body_fold _ hinput.valid ((base_iff hn left_node).not.mpr heq), hinput.fold]
        rfl
    · exact Nat.one_lt_two
    · exact hprimary
    · by_cases heq : left_node.i = left_node.j
      · exact (hleaf heq).secondary
      · exact hsecondary (hsquare heq)
    · exact hsat.mpr hcircuit

/-- A parent of accepted children with adjacent ranges is accepted exactly if the square of the
challenge fits. -/
theorem IsParent.verified_iff_square (hb : 2 ^ 127 ≤ b) (hn : 2 ^ 127 ≤ n) (hf : SC.Computes f)
    (hshape : params.shape = system.shape) (hl : Verified c params left_node)
    (hr : Verified c params right_node) (hadjacent : Adjacent SC f left_node right_node)
    (h : IsParent system params left_node right_node node fold_l fold_r fold nodes) :
    Verified c params node ↔ (((c.relaxedChallenge params.digest fold_l.U fold_l.U_secondary
      fold_r.U fold.proof.commitment_T).1 : ZMod n) ^ 2).val < b := by
  rw [h.verified_iff system hb hn hshape hl hr hadjacent.statesSized (hadjacent.meets hf)]
  constructor
  · intro hcondition
    exact hcondition.2.1 hadjacent.nonempty
  · intro hsquare
    exact ⟨hf.holds _ _ hadjacent.z_j, fun _ => hsquare,
      fun heq => absurd heq hadjacent.nonempty⟩

/-- **A parent**: accepted children with adjacent ranges have an accepted parent exactly if they
fit. -/
theorem proveParent_iff (hb : 2 ^ 127 ≤ b) (hn : 2 ^ 127 ≤ n) (hf : SC.Computes f)
    (hshape : params.shape = system.shape) (hl : Verified c params left_node)
    (hr : Verified c params right_node) (hadjacent : Adjacent SC f left_node right_node) :
    (∃ node, proveParent system params left_node right_node = .ok node ∧ Verified c params node ∧
      node.i = left_node.i ∧ node.j = right_node.j ∧ node.z_i = left_node.z_i ∧
      node.z_j = right_node.z_j) ↔ Fits c params left_node right_node := by
  constructor
  · rintro ⟨node, hprove, hverified, -⟩
    obtain ⟨fold_l, fold_r, fold, nodes, h⟩ := (proveParent_eq_ok system).mp hprove
    have hsquare := (h.verified_iff_square system hb hn hf hshape hl hr hadjacent).mp hverified
    constructor
    · exact (allocNode_eq_ok.mp h.left).1
    · exact (allocNode_eq_ok.mp h.right).1
    · intro r hr
      obtain rfl := Except.ok.inj ((h.challenge system).symm.trans hr)
      exact hsquare
  · intro hfits
    obtain ⟨node, fold_l, fold_r, fold, nodes, h⟩ :=
      exists_isParent system hb hshape hl hr hfits
    have hsquare := hfits.square _ (h.challenge system)
    refine ⟨node, (proveParent_eq_ok system).mpr ⟨fold_l, fold_r, fold, nodes, h⟩,
      (h.verified_iff_square system hb hn hf hshape hl hr hadjacent).mpr hsquare, ?_⟩
    rw [h.eq]
    exact ⟨rfl, rfl, rfl, rfl⟩

/-- A built parent starts with one. -/
theorem proveParent_one (h : proveParent system params left_node right_node = .ok node) :
    node.u.X.head? = some 1 := by
  obtain ⟨fold_l, fold_r, fold, nodes, hparent⟩ := (proveParent_eq_ok system).mp h
  rw [hparent.eq]
  rfl

end Parents

/-! ## Trees -/

/-- The shape of a binary tree. -/
inductive Shape
  | leaf
  | node (left right : Shape)

namespace Shape

/-- Each node takes one step. -/
def size : Shape → ℕ
  | leaf => 1
  | node left right => left.size + 1 + right.size

/-- The complete tree over `2 ^ m` leaves. -/
def complete : ℕ → Shape
  | 0 => leaf
  | m + 1 => node (complete m) (complete m)

theorem size_complete (m : ℕ) : (complete m).size + 1 = 2 ^ (m + 1) := by
  induction m with
  | zero => rfl
  | succ m ih =>
      rw [complete, size, pow_succ]
      omega

theorem size_pos (shape : Shape) : 0 < shape.size := by
  cases shape with
  | leaf => exact Nat.one_pos
  | node left right =>
      rw [size]
      omega

end Shape

variable (params f)

/-- A tree of this shape, from the index `i` and the state `z`: the right child starts after the
step of its parent. -/
def build : Shape → UInt64 → List (ZMod n) → Run Cyclefold.Error (PCDNode n b G1 G2)
  | .leaf, i, z => .ok (proveLeaf system params i z)
  | .node left right, i, z => do
      let left_node ← build left i z
      let right_node ← build right (left_node.j + 1) (f left_node.j.toNat left_node.z_j)
      proveParent system params left_node right_node

/-- The squares of all challenges fit. -/
def FitsAlong : Shape → UInt64 → List (ZMod n) → Prop
  | .leaf, _, _ => True
  | .node left right, i, z => FitsAlong left i z ∧
      ∀ left_node, build system params f left i z = .ok left_node →
        FitsAlong right (left_node.j + 1) (f left_node.j.toNat left_node.z_j) ∧
        ∀ right_node, build system params f right (left_node.j + 1)
            (f left_node.j.toNat left_node.z_j) = .ok right_node →
          SquareFits c params left_node right_node

/-- What a built node of so many steps fulfills. -/
structure Built (c : Setting n b G1 G2 PP1 PP2) (params : PublicParams (ZMod n) PP1 PP2)
    (f : ZMod n → List (ZMod n) → List (ZMod n)) (first : UInt64) (z : List (ZMod n)) (size : ℕ)
    (node : PCDNode n b G1 G2) : Prop where
  verified : Verified c params node
  one : node.u.X.head? = some 1
  i : node.i = first
  j : node.j.toNat = first.toNat + size
  z_i : node.z_i = z
  z_j : node.z_j = applyFrom f first.toNat size z

variable {params f}

/-- The squares fit if the other field is not smaller. -/
theorem squareFits_of_le (h : n ≤ b) (left_node right_node : PCDNode n b G1 G2) :
    SquareFits c params left_node right_node := fun r _ => (ZMod.val_lt (r ^ 2)).trans_le h

theorem fitsAlong_of_le (h : n ≤ b) (shape : Shape) (i : UInt64) (z : List (ZMod n)) :
    FitsAlong system params f shape i z := by
  induction shape generalizing i z with
  | leaf => trivial
  | node left right ih_left ih_right =>
      exact ⟨ih_left i z, fun left_node _ => ⟨ih_right _ _, fun right_node _ =>
        squareFits_of_le h left_node right_node⟩⟩

/-- **A tree**: it is accepted with the range and the states of its steps. -/
theorem build_built (hb : 2 ^ 127 ≤ b) (hn : 2 ^ 127 ≤ n) (hf : SC.Computes f)
    (hshape : params.shape = system.shape) {shape : Shape} {i : UInt64} {z : List (ZMod n)}
    (hz : z.length = SC.arity) (hi : i.toNat + shape.size < 2 ^ 64)
    (hfits : FitsAlong system params f shape i z) :
    ∃ node, build system params f shape i z = .ok node ∧
      Built c params f i z shape.size node := by
  induction shape generalizing i z with
  | leaf =>
      obtain ⟨hverified, hj, hz_j⟩ := proveLeaf_verified system hf hshape hi hz
      refine ⟨_, rfl, hverified, rfl, rfl, hj, rfl, hz_j.trans ?_⟩
      rw [Shape.size, applyFrom, applyFrom, Nat.cast_zero, add_zero]
  | node left right ih_left ih_right =>
      rw [Shape.size] at hi
      obtain ⟨left_node, hbuild_l, hl⟩ := ih_left hz (by omega) hfits.1
      obtain ⟨hfits_r, hsquare⟩ := hfits.2 left_node hbuild_l
      have hlen_l : left_node.z_j.length = SC.arity := by
        rw [hl.z_j]
        exact hf.length_applyFrom _ _ hz
      have hlen : (f left_node.j.toNat left_node.z_j).length = SC.arity := hf.length _ hlen_l
      have hnext : (left_node.j + 1).toNat = left_node.j.toNat + 1 := by
        rw [UInt64.toNat_add, UInt64.toNat_one, Nat.mod_eq_of_lt]
        rw [hl.j]
        omega
      obtain ⟨right_node, hbuild_r, hr⟩ := ih_right hlen (by rw [hnext, hl.j]; omega) hfits_r
      have hadjacent : Adjacent SC f left_node right_node := by
        constructor
        · intro heq
          have hj := hl.j
          have hpos := left.size_pos
          rw [← heq, hl.i] at hj
          omega
        · rw [hr.i, hnext]
        · exact hr.z_i
        · rw [hl.z_i, hz]
        · exact hlen_l
        · rw [hr.z_j]
          exact hf.length_applyFrom _ _ hlen
      obtain ⟨node, hprove, hverified, hnode_i, hnode_j, hnode_z_i, hnode_z_j⟩ :=
        (proveParent_iff system hb hn hf hshape hl.verified hr.verified hadjacent).mpr
          ⟨hl.one, hr.one, hsquare right_node hbuild_r⟩
      refine ⟨node, bind_eq_ok.mpr ⟨left_node, hbuild_l, bind_eq_ok.mpr ⟨right_node, hbuild_r,
        hprove⟩⟩, hverified, proveParent_one system hprove, hnode_i.trans hl.i, ?_,
        hnode_z_i.trans hl.z_i, ?_⟩
      · rw [hnode_j, hr.j, hnext, hl.j, Shape.size]
        omega
      · have hcast : ((i.toNat : ℕ) : ZMod n) + left.size = (left_node.j.toNat : ZMod n) := by
          rw [hl.j, Nat.cast_add]
        rw [hnode_z_j, hr.z_j, Shape.size, applyFrom_add, applyFrom, Nat.cast_succ, ← add_assoc,
          hcast, hnext, Nat.cast_succ, hl.z_j]

end NexusVm.Nova.Circuits.Pcd
