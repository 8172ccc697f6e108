import NexusVm.Nova.Circuits.Params

/-!
# Allocated folds

The prover folds an instance and allocates it with the proof.  On satisfied pairs the circuit then
computes the same fold, and nothing that it enforces fails.
-/

namespace NexusVm.Nova.Circuits

open R1cs Cyclefold Synth

variable {n b : ℕ} {G1 G2 PP1 PP2 : Type} [Fact n.Prime] [Fact b.Prime] [AddCommGroup G1]
  [Module (ZMod n) G1] [AddCommGroup G2] [Module (ZMod b) G2]
  {c : Setting n b G1 G2 PP1 PP2} {pp : PP1} {pp_secondary : PP2} {vk : ZMod n}
  {shape : R1CSShape (ZMod n)}

/-- Every trace is allocated with the right length. -/
theorem proofSized_synthesize (circuit : Circuit b G1) (commitment_T : G2) :
    Setting.ProofSized
      (allocProof ⟨(c.synthesize circuit pp_secondary).1, commitment_T⟩) := rfl

theorem proofSized_foldTrace {shape_secondary : R1CSShape (ZMod b)} {ro : c.ro.State}
    {acc : RelaxedR1CSInstance (ZMod b) G2 × RelaxedR1CSWitness (ZMod b)} {circuit : Circuit b G1}
    {extra : List (ZMod n)} {round : Setting.Round c}
    (h : c.foldTrace shape_secondary pp_secondary ro acc (c.synthesize circuit pp_secondary) extra =
      .ok round) : Setting.ProofSized (allocProof round.proof) := by
  obtain ⟨T, commitment_T, -, -, hproof, -⟩ := Setting.foldTrace_eq_ok h
  rw [hproof]
  exact proofSized_synthesize circuit commitment_T

variable {u : R1CSInstance (ZMod n) G1} {w : R1CSWitness (ZMod n)}
  {U_secondary : RelaxedR1CSInstance (ZMod b) G2} {U : RelaxedR1CSInstance (ZMod n) G1}
  {W_secondary : RelaxedR1CSWitness (ZMod b)} {W : RelaxedR1CSWitness (ZMod n)}

theorem proofSized_prove {fold : Setting.Folded n b G1 G2}
    (h : c.prove pp pp_secondary vk shape U W U_secondary W_secondary u w = .ok fold) :
    Setting.ProofSized (allocProof fold.proof.commitment_E_proof.1) ∧
      Setting.ProofSized (allocProof fold.proof.commitment_W_proof) := by
  obtain ⟨cross, -, hat⟩ := bind_eq_ok.mp h
  simp only [Setting.proveAt, bind_eq_ok] at hat
  obtain ⟨_, -, round_E, hE, round_W, hW, hat⟩ := hat
  cases hat
  exact ⟨proofSized_foldTrace hE, proofSized_foldTrace hW⟩

theorem proofSized_proveWithRelaxed {U1 U2 : RelaxedR1CSInstance (ZMod n) G1}
    {W1 W2 : RelaxedR1CSWitness (ZMod n)}
    {U1_secondary U2_secondary : RelaxedR1CSInstance (ZMod b) G2}
    {W1_secondary W2_secondary : RelaxedR1CSWitness (ZMod b)} {fold : Setting.Folded n b G1 G2}
    (h : c.proveWithRelaxed pp pp_secondary vk shape U1 W1 U1_secondary W1_secondary U2 W2
      U2_secondary W2_secondary = .ok fold) :
    Setting.ProofSized (allocProof fold.proof.commitment_E_proof.1) ∧
      Setting.ProofSized (allocProof fold.proof.commitment_E_proof.2) ∧
      Setting.ProofSized (allocProof fold.proof.commitment_W_proof) := by
  obtain ⟨cross, -, hat⟩ := bind_eq_ok.mp h
  simp only [Setting.proveWithRelaxedAt, bind_eq_ok] at hat
  obtain ⟨_, -, round_0, h0, round_1, h1, round_W, hW, _, -, hat⟩ := hat
  cases hat
  exact ⟨proofSized_foldTrace h0, proofSized_foldTrace h1, proofSized_foldTrace hW⟩

variable {node : NodeVar n b G2}

/-- What an allocated instance is, and when its allocation does not panic. -/
theorem allocNode_eq_ok {proof : NIMFSProof b G1 G2} :
    allocNode c U U_secondary u proof = .ok node ↔ u.X.head? = some 1 ∧
      node = ⟨relaxedMap c.cycle.affine1 U, U_secondary, strictMap c.cycle.affine1 u,
        c.cycle.affine1 proof.commitment_T,
        (allocProof proof.commitment_E_proof.1, allocProof proof.commitment_W_proof)⟩ := by
  simp only [allocNode, bind_eq_ok, assert_eq_ok, Except.ok.injEq, exists_const]
  obtain ⟨commitment_W, X⟩ := u
  cases X with
  | nil => simp
  | cons x X =>
      simp only [List.length_cons, Nat.zero_lt_succ, true_and, List.getD_cons_zero,
        List.head?_cons, Option.some.injEq, List.drop_succ_cons, List.drop_zero]
      constructor
      · rintro ⟨rfl, rfl⟩
        exact ⟨rfl, rfl⟩
      · rintro ⟨rfl, rfl⟩
        exact ⟨rfl, rfl⟩

/-- A native fold with what the circuit makes of it. -/
structure AllocatedFold (c : Setting n b G1 G2 PP1 PP2) (vk : ZMod n)
    (U : RelaxedR1CSInstance (ZMod n) G1) (U_secondary : RelaxedR1CSInstance (ZMod b) G2)
    (u : R1CSInstance (ZMod n) G1) (fold : Setting.Folded n b G1 G2) (node : NodeVar n b G2) :
    Prop where
  U : node.U = relaxedMap c.cycle.affine1 U
  U_secondary : node.U_secondary = U_secondary
  u : node.u = strictMap c.cycle.affine1 u
  valid : node.Valid
  fold : ∀ should_enforce, node.fold c vk should_enforce =
    ⟨(relaxedMap c.cycle.affine1 fold.U, fold.U_secondary), True⟩

/-- An instance that can be folded and allocated. -/
theorem allocatedFold (hb : 2 ^ 127 ≤ b) (hshape : shape.numIo = augmentedCircuitNumIo)
    {fold : Setting.Folded n b G1 G2} (hU : U.X.length = shape.numIo)
    (hU_secondary : U_secondary.X.length = c.secondary.shape.numIo) (hu : u.X.length = shape.numIo)
    (hfold : c.prove pp pp_secondary vk shape U W U_secondary W_secondary u w = .ok fold)
    (hnode : allocNode c U U_secondary u fold.proof = .ok node) :
    AllocatedFold c vk U U_secondary u fold node := by
  obtain ⟨hone, rfl⟩ := allocNode_eq_ok.mp hnode
  obtain ⟨hE, hW⟩ := proofSized_prove hfold
  constructor
  · rfl
  · rfl
  · rfl
  · constructor
    · exact hU.trans hshape
    · exact hU_secondary.trans c.secondary.numIo
    · exact hu.trans hshape
    · exact hone
    · exact hE
    · exact hW
  · intro should_enforce
    exact Setting.multifold_prove hb hfold should_enforce

variable (vk) in
/-- Satisfied pairs are folded and allocated. -/
theorem exists_allocatedFold (hb : 2 ^ 127 ≤ b) (hshape : shape.numIo = augmentedCircuitNumIo)
    (hU : RelaxedSatisfied c.C1 shape U W pp)
    (hU_secondary : RelaxedSatisfied c.C2 c.secondary.shape U_secondary W_secondary pp_secondary)
    (hu : Satisfied c.C1 shape u w pp) (hone : u.X.head? = some 1) :
    ∃ fold node, c.prove pp pp_secondary vk shape U W U_secondary W_secondary u w = .ok fold ∧
      allocNode c U U_secondary u fold.proof = .ok node ∧
      AllocatedFold c vk U U_secondary u fold node ∧
      RelaxedSatisfied c.C1 shape fold.U fold.W pp ∧
      RelaxedSatisfied c.C2 c.secondary.shape fold.U_secondary fold.W_secondary pp_secondary := by
  obtain ⟨fold, hfold, hsat, hsat_secondary⟩ := Setting.exists_prove vk hb
    (foldable_satisfied c.C1 shape pp) (foldable_satisfied c.C2 c.secondary.shape pp_secondary)
    Setting.synthesize_trace hU hU_secondary ⟨hu, hone⟩
  have hnode : allocNode c U U_secondary u fold.proof = .ok _ :=
    allocNode_eq_ok.mpr ⟨hone, rfl⟩
  exact ⟨fold, _, hfold, hnode, allocatedFold hb hshape hU.lengthX hU_secondary.lengthX hu.lengthX
    hfold hnode, hsat, hsat_secondary⟩

/-- The folds of satisfied pairs are satisfied, and allocated with their proofs. -/
theorem allocatedFold_satisfied (hb : 2 ^ 127 ≤ b) (hshape : shape.numIo = augmentedCircuitNumIo)
    {fold : Setting.Folded n b G1 G2} (hU : RelaxedSatisfied c.C1 shape U W pp)
    (hU_secondary : RelaxedSatisfied c.C2 c.secondary.shape U_secondary W_secondary pp_secondary)
    (hu : Satisfied c.C1 shape u w pp)
    (hfold : c.prove pp pp_secondary vk shape U W U_secondary W_secondary u w = .ok fold)
    (hnode : allocNode c U U_secondary u fold.proof = .ok node) :
    AllocatedFold c vk U U_secondary u fold node ∧
      RelaxedSatisfied c.C1 shape fold.U fold.W pp ∧
      RelaxedSatisfied c.C2 c.secondary.shape fold.U_secondary fold.W_secondary pp_secondary := by
  obtain ⟨fold', node', hfold', hnode', hallocated, hsat, hsat_secondary⟩ :=
    exists_allocatedFold vk hb hshape hU hU_secondary hu (allocNode_eq_ok.mp hnode).1
  obtain rfl := Except.ok.inj (hfold.symm.trans hfold')
  obtain rfl := Except.ok.inj (hnode.symm.trans hnode')
  exact ⟨hallocated, hsat, hsat_secondary⟩

variable (vk) in
/-- Satisfied relaxed pairs are folded, if the square of the challenge fits in the other field. -/
theorem exists_proveWithRelaxed_satisfied (hb : 2 ^ 127 ≤ b)
    {U1 U2 : RelaxedR1CSInstance (ZMod n) G1} {W1 W2 : RelaxedR1CSWitness (ZMod n)}
    {U1_secondary U2_secondary : RelaxedR1CSInstance (ZMod b) G2}
    {W1_secondary W2_secondary : RelaxedR1CSWitness (ZMod b)}
    (hU1 : RelaxedSatisfied c.C1 shape U1 W1 pp)
    (hU1_secondary : RelaxedSatisfied c.C2 c.secondary.shape U1_secondary W1_secondary pp_secondary)
    (hU2 : RelaxedSatisfied c.C1 shape U2 W2 pp)
    (hU2_secondary :
      RelaxedSatisfied c.C2 c.secondary.shape U2_secondary W2_secondary pp_secondary) :
    ∃ cross, commit_T_with_relaxed c.C1 shape pp U1 W1 U2 W2 = .ok cross ∧
      ((((c.relaxedChallenge vk U1 U1_secondary U2 cross.2).1 : ZMod n) ^ 2).val < b →
        ∃ fold, c.proveWithRelaxed pp pp_secondary vk shape U1 W1 U1_secondary W1_secondary U2 W2
            U2_secondary W2_secondary = .ok fold ∧
          RelaxedSatisfied c.C1 shape fold.U fold.W pp ∧
          RelaxedSatisfied c.C2 c.secondary.shape fold.U_secondary fold.W_secondary pp_secondary ∧
          fold.proof.commitment_T = cross.2) := by
  obtain ⟨cross, hcross, hfold⟩ := Setting.exists_proveWithRelaxed vk hb
    (foldable_satisfied c.C1 shape pp) (foldable_satisfied c.C2 c.secondary.shape pp_secondary)
    Setting.synthesize_trace hU1 hU1_secondary hU2 hU2_secondary
  exact ⟨cross, hcross, fun hsquare => hfold (Or.inl hsquare)⟩

/-! ## Folds of numbers -/

section Numbers

open Bn254

/-- The strict pair after `m` steps, for the two rows of an outcome. -/
def countStrict (m : ℕ) : R1CSInstance (ZMod fr) (ZMod fr) × R1CSWitness (ZMod fr) :=
  (⟨countSetting.C1.commit () [0, (m : ZMod fr)], [1, (m : ZMod fr)]⟩, ⟨[0, (m : ZMod fr)]⟩)

theorem satisfied_countStrict (m : ℕ) : Satisfied countSetting.C1 (outcomeRows (ZMod fr))
    (countStrict m).1 (countStrict m).2 () :=
  ⟨rfl, rfl, rowsHold_outcomeRows.mpr ⟨rfl, rfl⟩, rfl⟩

/-- Satisfied accumulators for these rows. -/
structure CountAcc where
  U : RelaxedR1CSInstance (ZMod fr) (ZMod fr)
  W : RelaxedR1CSWitness (ZMod fr)
  U_secondary : RelaxedR1CSInstance (ZMod fq) (ZMod fq)
  W_secondary : RelaxedR1CSWitness (ZMod fq)
  primary : RelaxedSatisfied countSetting.C1 (outcomeRows (ZMod fr)) U W ()
  secondary : RelaxedSatisfied countSetting.C2 countSetting.secondary.shape U_secondary W_secondary
    ()

/-- The default accumulators. -/
def CountAcc.new : CountAcc where
  U := newInstance (outcomeRows (ZMod fr))
  W := zeroWitness (outcomeRows (ZMod fr))
  U_secondary := newInstance countSetting.secondary.shape
  W_secondary := zeroWitness countSetting.secondary.shape
  primary := relaxedSatisfied_new _ _ _
  secondary := relaxedSatisfied_new _ _ _

/-- A fold of the strict pair after `m` steps into accumulators, with its allocation. -/
structure CountFold (acc : CountAcc) (m : ℕ) where
  next : CountAcc
  proof : NIMFSProof fq (ZMod fr) (ZMod fq)
  node : NodeVar fr fq (ZMod fq)
  prove : countSetting.prove () () 7 (outcomeRows (ZMod fr)) acc.U acc.W acc.U_secondary
    acc.W_secondary (countStrict m).1 (countStrict m).2 =
      .ok ⟨proof, next.U, next.W, next.U_secondary, next.W_secondary⟩
  alloc : allocNode countSetting acc.U acc.U_secondary (countStrict m).1 proof = .ok node
  allocated : AllocatedFold countSetting 7 acc.U acc.U_secondary (countStrict m).1
    ⟨proof, next.U, next.W, next.U_secondary, next.W_secondary⟩ node

theorem nonempty_countFold (acc : CountAcc) (m : ℕ) : Nonempty (CountFold acc m) := by
  have hb : 2 ^ 127 ≤ fq := by norm_num [fq]
  obtain ⟨fold, node, hfold, hnode, hallocated, hsat, hsat_secondary⟩ :=
    exists_allocatedFold (7 : ZMod fr) hb rfl acc.primary acc.secondary (satisfied_countStrict m)
      rfl
  exact ⟨⟨⟨fold.U, fold.W, fold.U_secondary, fold.W_secondary, hsat, hsat_secondary⟩, fold.proof,
    node, hfold, hnode, hallocated⟩⟩

/-- The fold of a strict pair, which always succeeds. -/
noncomputable def CountAcc.fold (acc : CountAcc) (m : ℕ) : CountFold acc m :=
  (nonempty_countFold acc m).some

/-- The index counts the steps below the order of the field. -/
theorem cast_ne_zero {m : ℕ} (hm : m + 1 < fr) : ((m + 1 : ℕ) : ZMod fr) ≠ 0 := by
  rw [Ne, ZMod.natCast_eq_zero_iff]
  intro hdvd
  have := Nat.le_of_dvd m.succ_pos hdvd
  omega

theorem val_pred {m : ℕ} (hm : m < fr) : (((m + 1 : ℕ) : ZMod fr) - 1).val = m := by
  rw [Nat.cast_succ, add_sub_cancel_right, ZMod.val_cast_of_lt hm]

end Numbers

end NexusVm.Nova.Circuits
