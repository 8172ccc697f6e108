import NexusVm.Nova.Cyclefold.Agree

/-!
# Folds of satisfied pairs

On satisfied pairs the native prover returns, and the folded pairs are satisfied.
-/

namespace NexusVm.Nova.Cyclefold

open R1cs

section Fold

variable {F C PP : Type} [Field F] [AddCommGroup C] [Module F C]

/-- Properties of pairs with which folds return and which they keep.  Honest runs are shown to
succeed for any such properties, of the lengths or of the equations. -/
structure Foldable (S : CommitmentScheme F C PP) (shape : R1CSShape F) (pp : PP)
    (Relaxed : RelaxedR1CSInstance F C → RelaxedR1CSWitness F → Prop)
    (Strict : R1CSInstance F C → R1CSWitness F → Prop) : Prop where
  strict : ∀ U₁ W₁ U₂ W₂, Relaxed U₁ W₁ → Strict U₂ W₂ →
    ∃ cross, commit_T S shape pp U₁ W₁ U₂ W₂ = .ok cross ∧ ∀ r, ∃ W,
      W₁.fold W₂ cross.1 r = .ok W ∧ Relaxed (U₁.fold U₂ cross.2 r) W
  relaxed : ∀ U₁ W₁ U₂ W₂, Relaxed U₁ W₁ → Relaxed U₂ W₂ →
    ∃ cross, commit_T_with_relaxed S shape pp U₁ W₁ U₂ W₂ = .ok cross ∧ ∀ r, ∃ W,
      W₁.foldWithRelaxed W₂ cross.1 r = .ok W ∧ Relaxed (U₁.foldWithRelaxed U₂ cross.2 r) W

/-- A relaxed pair with vectors of the lengths of the shape. -/
structure RelaxedSized (shape : R1CSShape F) (U : RelaxedR1CSInstance F C)
    (W : RelaxedR1CSWitness F) : Prop where
  lengthX : U.X.length = shape.numIo
  lengthW : W.W.length = shape.numVars
  lengthE : W.E.length = shape.numConstraints

/-- A strict pair with vectors of the lengths of the shape, and a leading one. -/
structure StrictSized (shape : R1CSShape F) (u : R1CSInstance F C) (w : R1CSWitness F) :
    Prop where
  lengthX : u.X.length = shape.numIo
  lengthW : w.W.length = shape.numVars
  one : u.X.head? = some 1

theorem relaxedSized_of_satisfied {S : CommitmentScheme F C PP} {shape : R1CSShape F} {pp : PP}
    {U : RelaxedR1CSInstance F C} {W : RelaxedR1CSWitness F}
    (h : RelaxedSatisfied S shape U W pp) : RelaxedSized shape U W :=
  ⟨h.lengthX, h.lengthW, h.lengthE⟩

variable {S : CommitmentScheme F C PP} {shape : R1CSShape F} {pp : PP}

variable {W₁ : RelaxedR1CSWitness F} {U₁ : RelaxedR1CSInstance F C}

variable (pp) in
/-- The cross term with a strict pair is the one with it as a relaxed pair. -/
theorem commit_T_eq_ok {u : R1CSInstance F C} {w : R1CSWitness F} (h₁ : RelaxedSized shape U₁ W₁)
    (h₂ : StrictSized shape u w) : ∃ T, commit_T S shape pp U₁ W₁ u w = .ok (T, S.commit pp T) ∧
      T = crossTerm shape (U₁.X ++ W₁.W) (u.relaxed.X ++ w.W) (U₁.X.getD 0 0)
        (u.relaxed.X.getD 0 0) ∧ u.X.getD 0 0 = 1 := by
  have hone : u.X.getD 0 0 = 1 := by
    rw [List.getD_eq_getElem?_getD, ← List.head?_eq_getElem?, h₂.one]
    rfl
  have hpos : 0 < u.X.length := by
    rw [h₂.lengthX]
    exact shape.numIo_pos
  have hX : u.relaxed.X.length = shape.numIo := h₂.lengthX
  have hW : (RelaxedR1CSWitness.fromR1csWitness shape w).W.length = shape.numVars := h₂.lengthW
  have hcross : commit_T_with_relaxed S shape pp U₁ W₁ u.relaxed (.fromR1csWitness shape w) = _ :=
    commit_T_with_relaxed_eq h₁.lengthX h₁.lengthW hX hW
  rw [← commit_T_eq S shape pp hpos hone] at hcross
  exact ⟨_, hcross, rfl, hone⟩

variable (pp) in
/-- The cross term with a strict pair of the right lengths, whatever its first entry is. -/
theorem exists_commit_T {u : R1CSInstance F C} {w : R1CSWitness F} (h₁ : RelaxedSized shape U₁ W₁)
    (hX : u.X.length = shape.numIo) (hW : w.W.length = shape.numVars) :
    ∃ T, commit_T S shape pp U₁ W₁ u w = .ok (T, S.commit pp T) ∧
      T.length = shape.numConstraints := by
  have hpos : (Run.assert (0 < U₁.X.length) : Run R1cs.Error Unit) = .ok () := by
    rw [assert_eq_ok, h₁.lengthX]
    exact shape.numIo_pos
  simp only [commit_T, multiplyVec_eq shape.dimsA h₁.lengthX h₁.lengthW,
    multiplyVec_eq shape.dimsB h₁.lengthX h₁.lengthW,
    multiplyVec_eq shape.dimsC h₁.lengthX h₁.lengthW, multiplyVec_eq shape.dimsA hX hW,
    multiplyVec_eq shape.dimsB hX hW, multiplyVec_eq shape.dimsC hX hW, hpos, bind, Except.bind]
  refine ⟨_, rfl, ?_⟩
  rw [List.length_map, List.length_range, List.length_zipWith,
    SparseMatrix.length_multiplyVecUnchecked shape.dimsA,
    SparseMatrix.length_multiplyVecUnchecked shape.dimsB, min_self]

/-- Pairs of the right lengths can be folded, whatever the public input starts with. -/
theorem foldable_lengths (S : CommitmentScheme F C PP) (shape : R1CSShape F) (pp : PP) :
    Foldable S shape pp (RelaxedSized shape)
      (fun u w => u.X.length = shape.numIo ∧ w.W.length = shape.numVars) where
  strict U₁ W₁ u w h₁ h₂ := by
    obtain ⟨T, hT, hcross⟩ := exists_commit_T (S := S) pp h₁ h₂.1 h₂.2
    have hlen : T.length = W₁.E.length := by rw [hcross, h₁.lengthE]
    have hW : W₁.W.length = w.W.length := h₁.lengthW.trans h₂.2.symm
    refine ⟨_, hT, fun r => ⟨_, RelaxedR1CSWitness.fold_eq hW h₁.lengthE hlen, ?_, ?_, ?_⟩⟩
    · rw [RelaxedR1CSInstance.fold, List.length_zipWith, h₁.lengthX, h₂.1, min_self]
    · rw [length_comb_of_eq hW, h₁.lengthW]
    · rw [length_foldE _ hlen, h₁.lengthE]
      rw [h₁.lengthE]
      exact List.length_replicate.symm
  relaxed U₁ W₁ U₂ W₂ h₁ h₂ := by
    have hW : W₁.W.length = W₂.W.length := h₁.lengthW.trans h₂.lengthW.symm
    have hE : W₁.E.length = W₂.E.length := h₁.lengthE.trans h₂.lengthE.symm
    refine ⟨_, commit_T_with_relaxed_eq h₁.lengthX h₁.lengthW h₂.lengthX h₂.lengthW, fun r =>
      ⟨_, foldWithRelaxed_eq_ok.mpr ⟨hW, hE, rfl⟩, ?_, ?_, ?_⟩⟩
    · rw [RelaxedR1CSInstance.foldWithRelaxed, List.length_zipWith, h₁.lengthX, h₂.lengthX,
        min_self]
    · rw [length_comb_of_eq hW, h₁.lengthW]
    · rw [length_foldE hE (by rw [length_crossTerm, h₁.lengthE]), h₁.lengthE]

/-- Pairs of the right lengths can be folded. -/
theorem foldable_sized (S : CommitmentScheme F C PP) (shape : R1CSShape F) (pp : PP) :
    Foldable S shape pp (RelaxedSized shape) (StrictSized shape) where
  strict U₁ W₁ u w h₁ h₂ :=
    (foldable_lengths S shape pp).strict U₁ W₁ u w h₁ ⟨h₂.lengthX, h₂.lengthW⟩
  relaxed := (foldable_lengths S shape pp).relaxed

/-- Satisfied pairs can be folded, and their folds are satisfied. -/
theorem foldable_satisfied (S : CommitmentScheme F C PP) (shape : R1CSShape F) (pp : PP) :
    Foldable S shape pp (fun U W => RelaxedSatisfied S shape U W pp)
      (fun u w => Satisfied S shape u w pp ∧ u.X.head? = some 1) where
  strict U₁ W₁ u w h₁ h₂ := by
    obtain ⟨T, hT, hcross, hone⟩ := commit_T_eq_ok (S := S) pp
      (relaxedSized_of_satisfied h₁) ⟨h₂.1.lengthX, h₂.1.lengthW, h₂.2⟩
    have hlen : T.length = W₁.E.length := by rw [hcross, length_crossTerm, h₁.lengthE]
    refine ⟨_, hT, fun r => ⟨_, RelaxedR1CSWitness.fold_eq
      (h₁.lengthW.trans h₂.1.lengthW.symm) h₁.lengthE hlen, ?_⟩⟩
    rw [RelaxedR1CSInstance.fold_eq]
    exact h₁.fold (h₂.1.relaxed hone) hcross r
  relaxed U₁ W₁ U₂ W₂ h₁ h₂ :=
    ⟨_, commit_T_with_relaxed_eq h₁.lengthX h₁.lengthW h₂.lengthX h₂.lengthW, fun r =>
      ⟨_, foldWithRelaxed_eq_ok.mpr ⟨h₁.lengthW.trans h₂.lengthW.symm,
        h₁.lengthE.trans h₂.lengthE.symm, rfl⟩, h₁.fold h₂ rfl r⟩⟩

end Fold

namespace Setting

variable {n b : ℕ} {G1 G2 PP1 PP2 : Type} [Fact n.Prime] [Fact b.Prime] [AddCommGroup G1]
  [Module (ZMod n) G1] [AddCommGroup G2] [Module (ZMod b) G2]
  {c : Setting n b G1 G2 PP1 PP2} {pp : PP1} {pp_secondary : PP2}

/-- Every trace has the lengths of the shape. -/
theorem synthesize_sized (circuit : Circuit b G1) :
    StrictSized c.secondary.shape (c.synthesize circuit pp_secondary).1
      (c.synthesize circuit pp_secondary).2 := by
  constructor
  · rw [c.secondary.numIo]
    rfl
  · exact c.secondary.length_witness circuit
  · rfl

/-- The trace of a true sum is satisfied and starts with one. -/
theorem synthesize_trace (circuit : Circuit b G1)
    (h : circuit.gOut = circuit.g1 + circuit.r.val • circuit.g2) :
    Satisfied c.C2 c.secondary.shape (c.synthesize circuit pp_secondary).1
      (c.synthesize circuit pp_secondary).2 pp_secondary ∧
    (c.synthesize circuit pp_secondary).1.X.head? = some 1 := by
  refine ⟨?_, rfl⟩
  constructor
  · exact c.secondary.length_witness circuit
  · rw [c.secondary.numIo]
    rfl
  · exact c.secondary.rows circuit h
  · rfl

section Folds

variable {vk : ZMod n} {shape : R1CSShape (ZMod n)}
  {Relaxed1 : RelaxedR1CSInstance (ZMod n) G1 → RelaxedR1CSWitness (ZMod n) → Prop}
  {Strict1 : R1CSInstance (ZMod n) G1 → R1CSWitness (ZMod n) → Prop}
  {Relaxed2 : RelaxedR1CSInstance (ZMod b) G2 → RelaxedR1CSWitness (ZMod b) → Prop}
  {Strict2 : R1CSInstance (ZMod b) G2 → R1CSWitness (ZMod b) → Prop}

/-- A round on an accumulator and a trace that can be folded. -/
theorem exists_foldTrace (h2 : Foldable c.C2 c.secondary.shape pp_secondary Relaxed2 Strict2)
    (ro : c.ro.State) (acc : RelaxedR1CSInstance (ZMod b) G2 × RelaxedR1CSWitness (ZMod b))
    (circuit : Circuit b G1) (extra : List (ZMod n)) (hacc : Relaxed2 acc.1 acc.2)
    (htrace : Strict2 (c.synthesize circuit pp_secondary).1
      (c.synthesize circuit pp_secondary).2) :
    ∃ round, c.foldTrace c.secondary.shape pp_secondary ro acc
        (c.synthesize circuit pp_secondary) extra = .ok round ∧ Relaxed2 round.U round.W := by
  obtain ⟨cross, hcross, hfold⟩ := h2.strict _ _ _ _ hacc htrace
  obtain ⟨W, hW, hkept⟩ := hfold (c.squeezeAfter ro
    [strictElementsSecondary (strictMap c.cycle.affine2 (c.synthesize circuit pp_secondary).1),
      nativePointElements (c.cycle.affine2 cross.2), extra]).1
  exact ⟨_, bind_eq_ok.mpr ⟨cross, mapError_eq_ok.mpr hcross,
    bind_eq_ok.mpr ⟨W, mapError_eq_ok.mpr hW, rfl⟩⟩, hkept⟩

/-- The last round on accumulators that can be folded. -/
theorem exists_proveSecondary (h2 : Foldable c.C2 c.secondary.shape pp_secondary Relaxed2 Strict2)
    (ro : c.ro.State) (extra : List (ZMod n)) {U1 U2 : RelaxedR1CSInstance (ZMod b) G2}
    {W1 W2 : RelaxedR1CSWitness (ZMod b)} (hU1 : Relaxed2 U1 W1) (hU2 : Relaxed2 U2 W2) :
    ∃ last, c.proveSecondary pp_secondary ro extra U1 W1 U2 W2 = .ok last ∧
      Relaxed2 last.2.1 last.2.2 := by
  obtain ⟨cross, hcross, hfold⟩ := h2.relaxed _ _ _ _ hU1 hU2
  obtain ⟨W, hW, hkept⟩ := hfold (c.squeezeAfter ro
    [extra, relaxedElementsSecondary (relaxedMap c.cycle.affine2 U1),
      relaxedElementsSecondary (relaxedMap c.cycle.affine2 U2),
      nativePointElements (c.cycle.affine2 cross.2)]).1
  exact ⟨_, bind_eq_ok.mpr ⟨cross, hcross, bind_eq_ok.mpr ⟨W, hW, rfl⟩⟩, hkept⟩

/-- A challenge as a number and as a scalar. -/
theorem val_smul_eq {bits : ℕ} (hbits : bits < b) (P : G1) :
    ((bits : ZMod b)).val • P = (bits : ZMod n) • P := by
  rw [ZMod.val_cast_of_lt hbits, Nat.cast_smul_eq_nsmul]

variable {W_secondary : RelaxedR1CSWitness (ZMod b)} {U_secondary : RelaxedR1CSInstance (ZMod b) G2}
  {w : R1CSWitness (ZMod n)}

/-- The fold of a strict pair from a challenge on, for any cross term. -/
theorem exists_proveAt (h2 : Foldable c.C2 c.secondary.shape pp_secondary Relaxed2 Strict2)
    (htrace : ∀ circuit : Circuit b G1, circuit.gOut = circuit.g1 + circuit.r.val • circuit.g2 → Strict2 (c.synthesize circuit pp_secondary).1 (c.synthesize circuit pp_secondary).2)
    {squeezed : ℕ × c.ro.State} (hbits : squeezed.1 < b) {T : List (ZMod n)} (commitment_T : G1)
    (U : RelaxedR1CSInstance (ZMod n) G1) {W W' : RelaxedR1CSWitness (ZMod n)}
    (u : R1CSInstance (ZMod n) G1) (hW' : W.fold w T (squeezed.1 : ZMod n) = .ok W')
    (hU_secondary : Relaxed2 U_secondary W_secondary) :
    ∃ folded, c.proveAt pp_secondary squeezed T commitment_T U W U_secondary W_secondary u w =
        .ok folded ∧ folded.U = U.fold u commitment_T (squeezed.1 : ZMod n) ∧ folded.W = W' ∧
      Relaxed2 folded.U_secondary folded.W_secondary ∧
      folded.proof.commitment_T = commitment_T := by
  have hscalar : (castFieldElement (squeezed.1 : ZMod b) : ZMod n) = (squeezed.1 : ZMod n) :=
    castFieldElement_natCast hbits
  obtain ⟨round_E, hround_E, hsat_E⟩ := exists_foldTrace h2 squeezed.2 (U_secondary, W_secondary)
    ⟨U.commitment_E, commitment_T, (U.fold u commitment_T (squeezed.1 : ZMod n)).commitment_E,
      squeezed.1⟩
    [(squeezed.1 : ZMod n)] hU_secondary (htrace _ (by
        rw [val_smul_eq (n := n) hbits]
        rfl))
  obtain ⟨round_W, hround_W, hsat_W⟩ := exists_foldTrace h2 round_E.randomOracle
    (round_E.U, round_E.W) ⟨U.commitment_W, u.commitment_W,
      (U.fold u commitment_T (squeezed.1 : ZMod n)).commitment_W, squeezed.1⟩
    (castFieldElementUnique round_E.r) hsat_E (htrace _ (by
        rw [val_smul_eq (n := n) hbits]
        rfl))
  refine ⟨⟨⟨commitment_T, (round_E.proof, .default), round_W.proof, 0⟩,
    U.fold u commitment_T (squeezed.1 : ZMod n), W', round_W.U, round_W.W⟩, ?_, rfl, rfl, hsat_W,
    rfl⟩
  simp only [proveAt, hscalar]
  exact bind_eq_ok.mpr ⟨W', mapError_eq_ok.mpr hW', bind_eq_ok.mpr ⟨round_E, hround_E,
    bind_eq_ok.mpr ⟨round_W, hround_W, rfl⟩⟩⟩

variable (vk) in
/-- **A fold of a strict pair**: the prover returns pairs that can be folded. -/
theorem exists_prove (hb : 2 ^ 127 ≤ b) (h1 : Foldable c.C1 shape pp Relaxed1 Strict1)
    (h2 : Foldable c.C2 c.secondary.shape pp_secondary Relaxed2 Strict2)
    (htrace : ∀ circuit : Circuit b G1, circuit.gOut = circuit.g1 + circuit.r.val • circuit.g2 → Strict2 (c.synthesize circuit pp_secondary).1 (c.synthesize circuit pp_secondary).2)
    {U : RelaxedR1CSInstance (ZMod n) G1} {W : RelaxedR1CSWitness (ZMod n)}
    {u : R1CSInstance (ZMod n) G1} (hU : Relaxed1 U W)
    (hU_secondary : Relaxed2 U_secondary W_secondary) (hu : Strict1 u w) :
    ∃ folded, c.prove pp pp_secondary vk shape U W U_secondary W_secondary u w = .ok folded ∧
      Relaxed1 folded.U folded.W ∧ Relaxed2 folded.U_secondary folded.W_secondary := by
  obtain ⟨cross, hcross, hfold⟩ := h1.strict _ _ _ _ hU hu
  have hbits : ∀ inputs, (c.squeezeAfter c.ro.new inputs).1 < b := fun inputs =>
    (c.squeezeAfter_lt c.ro.new inputs).trans_le hb
  obtain ⟨W', hW', hsat⟩ := hfold _
  obtain ⟨folded, hfolded, hfolded_U, hfolded_W, hsat_W, -⟩ := exists_proveAt h2 htrace (hbits _)
    cross.2 U u hW' hU_secondary
  refine ⟨folded, bind_eq_ok.mpr ⟨cross, mapError_eq_ok.mpr hcross, hfolded⟩, ?_, hsat_W⟩
  rwa [hfolded_U, hfolded_W]

/-- The first challenge of a fold of relaxed pairs, for a commitment to their cross term. -/
def relaxedChallenge (c : Setting n b G1 G2 PP1 PP2) (vk : ZMod n)
    (U1 : RelaxedR1CSInstance (ZMod n) G1) (U1_secondary : RelaxedR1CSInstance (ZMod b) G2)
    (U2 : RelaxedR1CSInstance (ZMod n) G1) (commitment_T : G1) : ℕ × c.ro.State :=
  c.squeezeAfter c.ro.new
    [[vk], relaxedElements (relaxedMap c.cycle.affine1 U1),
      relaxedElements (relaxedMap c.cycle.affine1 U2),
      relaxedElementsSecondary (relaxedMap c.cycle.affine2 U1_secondary),
      pointElements (c.cycle.affine1 commitment_T)]

variable (vk) in
/-- **A fold of relaxed pairs**: the prover returns pairs that can be folded, if the square of the
challenge fits in the other field or every trace can be folded. -/
theorem exists_proveWithRelaxed (hb : 2 ^ 127 ≤ b) (h1 : Foldable c.C1 shape pp Relaxed1 Strict1)
    (h2 : Foldable c.C2 c.secondary.shape pp_secondary Relaxed2 Strict2)
    (htrace : ∀ circuit : Circuit b G1, circuit.gOut = circuit.g1 + circuit.r.val • circuit.g2 →
      Strict2 (c.synthesize circuit pp_secondary).1 (c.synthesize circuit pp_secondary).2)
    {U1 U2 : RelaxedR1CSInstance (ZMod n) G1} {W1 W2 : RelaxedR1CSWitness (ZMod n)}
    {U1_secondary U2_secondary : RelaxedR1CSInstance (ZMod b) G2}
    {W1_secondary W2_secondary : RelaxedR1CSWitness (ZMod b)} (hU1 : Relaxed1 U1 W1)
    (hU1_secondary : Relaxed2 U1_secondary W1_secondary) (hU2 : Relaxed1 U2 W2)
    (hU2_secondary : Relaxed2 U2_secondary W2_secondary) :
    ∃ cross, commit_T_with_relaxed c.C1 shape pp U1 W1 U2 W2 = .ok cross ∧
      ((((c.relaxedChallenge vk U1 U1_secondary U2 cross.2).1 : ZMod n) ^ 2).val < b ∨
          (∀ circuit : Circuit b G1, Strict2 (c.synthesize circuit pp_secondary).1
            (c.synthesize circuit pp_secondary).2) →
        ∃ folded, c.proveWithRelaxed pp pp_secondary vk shape U1 W1 U1_secondary W1_secondary U2 W2
            U2_secondary W2_secondary = .ok folded ∧
          Relaxed1 folded.U folded.W ∧ Relaxed2 folded.U_secondary folded.W_secondary ∧
          folded.proof.commitment_T = cross.2) := by
  obtain ⟨cross, hcross, hfold⟩ := h1.relaxed _ _ _ _ hU1 hU2
  refine ⟨cross, hcross, fun hsquare => ?_⟩
  obtain ⟨squeezed, hsqueezed⟩ : ∃ squeezed, squeezed =
    c.relaxedChallenge vk U1 U1_secondary U2 cross.2 := ⟨_, rfl⟩
  rw [← hsqueezed] at hsquare
  have hbits : squeezed.1 < b := by
    rw [hsqueezed]
    exact (c.squeezeAfter_lt _ _).trans_le hb
  have hscalar : (castFieldElement (squeezed.1 : ZMod b) : ZMod n) = (squeezed.1 : ZMod n) :=
    castFieldElement_natCast hbits
  obtain ⟨W', hW', hkept⟩ := hfold (squeezed.1 : ZMod n)
  obtain ⟨round_0, hround_0, hkept_0⟩ := exists_foldTrace h2 squeezed.2 (U1_secondary, W1_secondary)
    ⟨U1.commitment_E, cross.2, U1.commitment_E + (squeezed.1 : ZMod n) • cross.2, squeezed.1⟩
    [(squeezed.1 : ZMod n)] hU1_secondary (htrace _ (by rw [val_smul_eq (n := n) hbits]))
  have htrace_1 : Strict2
      (c.synthesize ⟨U1.commitment_E + (squeezed.1 : ZMod n) • cross.2, U2.commitment_E,
        (U1.foldWithRelaxed U2 cross.2 (squeezed.1 : ZMod n)).commitment_E,
        castFieldElement ((squeezed.1 : ZMod n) ^ 2)⟩ pp_secondary).1
      (c.synthesize ⟨U1.commitment_E + (squeezed.1 : ZMod n) • cross.2, U2.commitment_E,
        (U1.foldWithRelaxed U2 cross.2 (squeezed.1 : ZMod n)).commitment_E,
        castFieldElement ((squeezed.1 : ZMod n) ^ 2)⟩ pp_secondary).2 := by
    rcases hsquare with hsquare | hall
    · apply htrace
      rw [castFieldElement, val_smul_eq (n := n) hsquare, ZMod.natCast_zmod_val]
      rfl
    · exact hall _
  obtain ⟨round_1, hround_1, hkept_1⟩ := exists_foldTrace h2 round_0.randomOracle
    (round_0.U, round_0.W) _ (castFieldElementUnique round_0.r) hkept_0 htrace_1
  obtain ⟨round_W, hround_W, hkept_W⟩ := exists_foldTrace h2 round_1.randomOracle
    (round_1.U, round_1.W) ⟨U1.commitment_W, U2.commitment_W,
      (U1.foldWithRelaxed U2 cross.2 (squeezed.1 : ZMod n)).commitment_W, squeezed.1⟩
    (castFieldElementUnique round_1.r) hkept_1
    (htrace _ (by
      rw [val_smul_eq (n := n) hbits]
      rfl))
  obtain ⟨last, hlast, hkept_last⟩ := exists_proveSecondary h2 round_W.randomOracle
    (castFieldElementUnique round_W.r) hkept_W hU2_secondary
  refine ⟨⟨⟨cross.2, (round_0.proof, round_1.proof), round_W.proof, last.1⟩,
    U1.foldWithRelaxed U2 cross.2 (squeezed.1 : ZMod n), W', last.2.1, last.2.2⟩,
    bind_eq_ok.mpr ⟨cross, mapError_eq_ok.mpr hcross, ?_⟩, hkept, hkept_last, rfl⟩
  rw [relaxedChallenge] at hsqueezed
  simp only [proveWithRelaxedAt, ← hsqueezed, hscalar]
  exact bind_eq_ok.mpr ⟨W', mapError_eq_ok.mpr hW', bind_eq_ok.mpr ⟨round_0, hround_0,
    bind_eq_ok.mpr ⟨round_1, hround_1, bind_eq_ok.mpr ⟨round_W, hround_W,
      bind_eq_ok.mpr ⟨last, mapError_eq_ok.mpr hlast, rfl⟩⟩⟩⟩⟩

end Folds

end Setting

end NexusVm.Nova.Cyclefold
