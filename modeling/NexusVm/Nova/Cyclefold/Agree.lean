import NexusVm.Nova.Cyclefold.Multifold

/-!
# The fold in the circuit equals the native fold

`nova/src/gadgets/cyclefold/nova` folds primary instances by checking traces of the secondary
circuit, whose points and scalars are given as public inputs.  On the values that the native
prover used, each trace parses to the scalar and the points that the circuit expects, the folds of
the secondary accumulator are the native ones, and the challenges are squeezed from the same
sponge.  So both multifolds compute what the prover returned.

The one condition that is left is on the challenge of two relaxed instances: its square is moved
to the other field as a number and must fit there.  Nothing is said about instances that no prover
made; what an accepting circuit binds is the subject of the modules on the secondary circuit.
-/

namespace NexusVm.Nova.Cyclefold

open R1cs Synth

section Bits

variable {b : ℕ} [Fact b.Prime] {G2 : Type} [AddCommGroup G2] [Module (ZMod b) G2]

theorem zipWith_mul_comm (r : ZMod b) (as bs : List (ZMod b)) :
    List.zipWith (fun x1 x2 => x1 + x2 * r) as bs = List.zipWith (fun x y => x + r * y) as bs := by
  simp only [mul_comm]

/-- A strict instance folded by the bits of the challenge. -/
theorem foldInput_strict (acc : RelaxedSecondaryVar b G2) (u : SecondaryVar b G2)
    (commitment_T : G2) (bits : ℕ) :
    foldInput acc ⟨u, none, commitment_T, bits, bits⟩ =
      acc.fold u commitment_T (bits : ZMod b) := by
  simp only [foldInput, RelaxedR1CSInstance.fold, Nat.cast_smul_eq_nsmul, zipWith_mul_comm]

/-- A relaxed instance folded by the bits of the challenge and of its square. -/
theorem foldInput_relaxed (acc U : RelaxedSecondaryVar b G2) (commitment_T : G2) (bits : ℕ) :
    foldInput acc ⟨⟨U.commitment_W, U.X⟩, some U.commitment_E, commitment_T, bits, bits⟩ =
      acc.foldWithRelaxed U commitment_T (bits : ZMod b) := by
  have hsquare : ((bits : ZMod b) ^ 2).val • U.commitment_E =
      (bits : ZMod b) ^ 2 • U.commitment_E := by
    rw [← Nat.cast_smul_eq_nsmul (ZMod b), ZMod.natCast_zmod_val]
  simp only [foldInput, RelaxedR1CSInstance.foldWithRelaxed, hsquare, Nat.cast_smul_eq_nsmul,
    zipWith_mul_comm]

end Bits

/-- A number below the modulus keeps its value. -/
theorem castFieldElement_natCast {m k : ℕ} {bits : ℕ} (h : bits < m) :
    (castFieldElement (bits : ZMod m) : ZMod k) = (bits : ZMod k) := by
  rw [castFieldElement, ZMod.val_cast_of_lt h]

/-- The bits that are compared agree exactly if the number fits in the other field. -/
theorem zip_toBitsLe_iff {n b : ℕ} [Fact n.Prime] [Fact b.Prime] (hb : 2 < b) (hn : n ≤ b ^ 2)
    (x : ZMod n) :
    (∀ bits ∈ (toBitsLe x).zip (toBitsLe (castFieldElement x : ZMod b)), bits.1 = bits.2) ↔
      x.val < b := by
  have hval : (castFieldElement x : ZMod b).val = x.val % b := by
    rw [castFieldElement, ZMod.val_natCast]
  have hbits : (∀ bits ∈ (toBitsLe x).zip (toBitsLe (castFieldElement x : ZMod b)),
      bits.1 = bits.2) ↔ ∀ i < min n.size b.size, x.val.testBit i = (x.val % b).testBit i := by
    rw [List.forall_mem_iff_forall_getElem]
    simp [toBitsLe, hval]
  rw [hbits]
  constructor
  · intro h
    have hmod : x.val ≡ x.val % b [MOD 2 ^ min n.size b.size] := by
      apply Nat.eq_of_testBit_eq
      intro i
      rw [Nat.testBit_mod_two_pow, Nat.testBit_mod_two_pow]
      by_cases hi : i < min n.size b.size
      · rw [h i hi]
      · simp [hi]
    have hdvd : 2 ^ min n.size b.size ∣ b * (x.val / b) := by
      have hsub := (Nat.modEq_iff_dvd' (Nat.mod_le x.val b)).mp hmod.symm
      rwa [Nat.sub_eq_of_eq_add (Nat.div_add_mod x.val b).symm] at hsub
    have hodd : Nat.Coprime (2 ^ min n.size b.size) b := by
      apply Nat.Coprime.pow_left
      exact (Nat.coprime_primes Nat.prime_two (Fact.out : b.Prime)).mpr hb.ne
    have hquot : 2 ^ min n.size b.size ∣ x.val / b := hodd.dvd_of_dvd_mul_left hdvd
    have hlt : x.val / b < 2 ^ min n.size b.size := by
      have hx := ZMod.val_lt x
      rcases min_choice n.size b.size with hmin | hmin
      · rw [hmin]
        exact (Nat.div_le_self _ _).trans_lt (hx.trans (Nat.lt_size_self n))
      · rw [hmin]
        have hsq : x.val < b * b := by
          rw [← pow_two]
          exact hx.trans_le hn
        exact (Nat.div_lt_of_lt_mul hsq).trans (Nat.lt_size_self b)
    have hzero : x.val / b = 0 := Nat.eq_zero_of_dvd_of_lt hquot hlt
    exact (Nat.div_eq_zero_iff_lt (by omega)).mp hzero
  · intro h i _
    rw [Nat.mod_eq_of_lt h]

namespace Setting

variable {n b : ℕ} {G1 G2 PP1 PP2 : Type} [Fact n.Prime] [Fact b.Prime] [AddCommGroup G1]
  [Module (ZMod n) G1] [AddCommGroup G2] [Module (ZMod b) G2]
  {c : Setting n b G1 G2 PP1 PP2}

theorem squeezeAfter_lt (ro : c.ro.State) (inputs : List (List (ZMod n))) :
    (c.squeezeAfter ro inputs).1 < 2 ^ 127 :=
  c.ro.squeezeBits_lt _

/-- The circuit reconstructs the public input of a trace. -/
theorem fromAllocatedInput_synthesize (g1 g2 gOut : G1) (r : ZMod b) (pp_secondary : PP2)
    (commitment_T : G2) :
    fromAllocatedInput
      (allocProof ⟨(c.synthesize ⟨g1, g2, gOut, r⟩ pp_secondary).1, commitment_T⟩).U
      (c.cycle.affine1 g1) (c.cycle.affine1 g2) = (c.synthesize ⟨g1, g2, gOut, r⟩ pp_secondary).1 :=
  rfl

/-- The scalar and the sum of a trace come back. -/
theorem parseSecondaryIo_synthesize (g1 g2 gOut : G1) (r : ZMod b) (pp_secondary : PP2) :
    parseSecondaryIo (c.synthesize ⟨g1, g2, gOut, r⟩ pp_secondary).1 =
      (r, c.cycle.affine1 gOut) :=
  Prod.ext rfl (parseProjective_intoProjective (c.cycle.affine1_normal gOut))

/-! ## Rounds, a strict instance and a relaxed instance -/

variable {pp_secondary : PP2}

variable {extra : List (ZMod n)}

/-- What a round computes. -/
theorem foldTrace_eq_ok {shape_secondary : R1CSShape (ZMod b)} {ro : c.ro.State}
    {acc : RelaxedR1CSInstance (ZMod b) G2 × RelaxedR1CSWitness (ZMod b)}
    {trace : R1CSInstance (ZMod b) G2 × R1CSWitness (ZMod b)} {round : Round c}
    (h : c.foldTrace shape_secondary pp_secondary ro acc trace extra = .ok round) :
    ∃ T commitment_T, commit_T c.C2 shape_secondary pp_secondary acc.1 acc.2 trace.1 trace.2 =
        .ok (T, commitment_T) ∧
      acc.2.fold trace.2 T ((c.challenge ro trace.1 commitment_T extra).1 : ZMod b) =
        .ok round.W ∧
      round.proof = ⟨trace.1, commitment_T⟩ ∧
      round.r = ((c.challenge ro trace.1 commitment_T extra).1 : ZMod b) ∧
      round.randomOracle = (c.challenge ro trace.1 commitment_T extra).2 ∧
      round.U = acc.1.fold trace.1 commitment_T round.r := by
  simp only [foldTrace] at h
  obtain ⟨⟨T, commitment_T⟩, hT, h⟩ := bind_eq_ok.mp h
  obtain ⟨W, hW, h⟩ := bind_eq_ok.mp h
  cases h
  exact ⟨T, commitment_T, mapError_eq_ok.mp hT, mapError_eq_ok.mp hW, rfl, rfl, rfl, rfl⟩

/-- The allocated accumulator after a round. -/
theorem foldInput_round {round : Round c} {acc : RelaxedSecondaryVar b G2}
    {u : SecondaryVar b G2} {commitment_T : G2} {bits : ℕ} (hr : round.r = (bits : ZMod b))
    (hU : round.U = acc.fold u commitment_T round.r) :
    foldInput acc ⟨u, none, commitment_T, bits, bits⟩ = round.U := by
  rw [foldInput_strict, hU, hr]

variable {folded : Folded n b G1 G2} {squeezed : ℕ × c.ro.State}

/-- What the circuit computes from the values that the prover used. -/
theorem multifoldAt_proveAt (hb : 2 ^ 127 ≤ b) (hsqueezed : squeezed.1 < 2 ^ 127)
    {T : List (ZMod n)} {commitment_T : G1} {U : RelaxedR1CSInstance (ZMod n) G1}
    {W : RelaxedR1CSWitness (ZMod n)} {U_secondary : RelaxedR1CSInstance (ZMod b) G2}
    {W_secondary : RelaxedR1CSWitness (ZMod b)} {u : R1CSInstance (ZMod n) G1}
    {w : R1CSWitness (ZMod n)}
    (h : c.proveAt pp_secondary squeezed T commitment_T U W U_secondary W_secondary u w = .ok folded)
    (should_enforce : Bool) :
    c.multifoldAt squeezed (relaxedMap c.cycle.affine1 U) U_secondary
        (strictMap c.cycle.affine1 u) (c.cycle.affine1 commitment_T)
        (allocProof folded.proof.commitment_E_proof.1, allocProof folded.proof.commitment_W_proof)
        should_enforce = ⟨(relaxedMap c.cycle.affine1 folded.U, folded.U_secondary), True⟩ := by
  have hscalar : (castFieldElement (squeezed.1 : ZMod b) : ZMod n) = (squeezed.1 : ZMod n) :=
    castFieldElement_natCast (hsqueezed.trans_le hb)
  simp only [proveAt, bind_eq_ok, hscalar] at h
  obtain ⟨folded_W, -, round_E, hE, round_W, hW, h⟩ := h
  cases h
  obtain ⟨T_E, commitment_T_E, -, -, hproof_E, hr_E, hro_E, hU_E⟩ := foldTrace_eq_ok hE
  obtain ⟨T_W, commitment_T_W, -, -, hproof_W, hr_W, hro_W, hU_W⟩ := foldTrace_eq_ok hW
  clear hE hW
  rw [hro_E] at hr_W hro_W
  simp only at hr_E hr_W hU_E hU_W
  rw [hr_E] at hr_W
  have hfold_E := foldInput_round hr_E hU_E
  have hfold_W := foldInput_round hr_W hU_W
  simp only [multifoldAt, hproof_E, hproof_W, relaxedMap, strictMap,
    fromAllocatedInput_synthesize, parseSecondaryIo_synthesize]
  simp only [allocProof, foldVar, List.foldl_cons, List.foldl_nil, hfold_E, hfold_W]
  apply Synth.ext
  · rfl
  · simp

/-- What the last round of a fold of relaxed pairs computes. -/
theorem proveSecondary_eq_ok {ro : c.ro.State} {U1 U2 : RelaxedR1CSInstance (ZMod b) G2}
    {W1 W2 : RelaxedR1CSWitness (ZMod b)}
    {last : G2 × RelaxedR1CSInstance (ZMod b) G2 × RelaxedR1CSWitness (ZMod b)}
    (h : c.proveSecondary pp_secondary ro extra U1 W1 U2 W2 = .ok last) :
    last.2.1 = U1.foldWithRelaxed U2 last.1 ((c.squeezeAfter ro
      [extra, relaxedElementsSecondary (relaxedMap c.cycle.affine2 U1),
        relaxedElementsSecondary (relaxedMap c.cycle.affine2 U2),
        nativePointElements (c.cycle.affine2 last.1)]).1 : ZMod b) := by
  simp only [proveSecondary, bind_eq_ok] at h
  obtain ⟨cross, -, W, -, h⟩ := h
  cases h
  rfl

/-- What the circuit computes from the values that the prover used.  The only constraint that can
fail compares the square of the challenge in the two fields. -/
theorem multifoldWithRelaxedAt_proveWithRelaxedAt (hb : 2 ^ 127 ≤ b)
    (hsqueezed : squeezed.1 < 2 ^ 127) {T : List (ZMod n)} {commitment_T : G1}
    {U1 U2 : RelaxedR1CSInstance (ZMod n) G1} {W1 W2 : RelaxedR1CSWitness (ZMod n)}
    {U1_secondary U2_secondary : RelaxedR1CSInstance (ZMod b) G2}
    {W1_secondary W2_secondary : RelaxedR1CSWitness (ZMod b)}
    (h : c.proveWithRelaxedAt pp_secondary squeezed T commitment_T U1 W1 U1_secondary W1_secondary U2 W2 U2_secondary W2_secondary = .ok folded)
    (should_enforce : Bool) :
    c.multifoldWithRelaxedAt squeezed (relaxedMap c.cycle.affine1 U1) U1_secondary
        (relaxedMap c.cycle.affine1 U2) U2_secondary (c.cycle.affine1 commitment_T)
        folded.proof.proof_secondary
        ((allocProof folded.proof.commitment_E_proof.1,
          allocProof folded.proof.commitment_E_proof.2),
          allocProof folded.proof.commitment_W_proof) should_enforce =
      ⟨(relaxedMap c.cycle.affine1 folded.U, folded.U_secondary),
        should_enforce = true → ((squeezed.1 : ZMod n) ^ 2).val < b⟩ := by
  have hscalar : (castFieldElement (squeezed.1 : ZMod b) : ZMod n) = (squeezed.1 : ZMod n) :=
    castFieldElement_natCast (hsqueezed.trans_le hb)
  simp only [proveWithRelaxedAt, bind_eq_ok, mapError_eq_ok, hscalar] at h
  obtain ⟨folded_W, -, round_0, h0, round_1, h1, round_W, hW, last, hlast, h⟩ := h
  cases h
  obtain ⟨T_0, commitment_T_0, -, -, hproof_0, hr_0, hro_0, hU_0⟩ := foldTrace_eq_ok h0
  obtain ⟨T_1, commitment_T_1, -, -, hproof_1, hr_1, hro_1, hU_1⟩ := foldTrace_eq_ok h1
  obtain ⟨T_W, commitment_T_W, -, -, hproof_W, hr_W, hro_W, hU_W⟩ := foldTrace_eq_ok hW
  have hlast_U := proveSecondary_eq_ok hlast
  clear h0 h1 hW hlast
  simp only at hr_0 hr_1 hr_W hU_0 hU_1 hU_W hro_0 hro_1 hro_W
  rw [hro_0, hr_0] at hr_1 hro_1
  rw [hro_1, hr_1] at hr_W hro_W
  rw [hro_W, hr_W] at hlast_U
  have hfold_0 := foldInput_round hr_0 hU_0
  have hfold_1 := foldInput_round hr_1 hU_1
  have hfold_W := foldInput_round hr_W hU_W
  simp only [multifoldWithRelaxedAt, hproof_0, hproof_1, hproof_W, relaxedMap,
    fromAllocatedInput_synthesize, parseSecondaryIo_synthesize]
  simp only [allocProof, foldVar, List.foldl_cons, List.foldl_nil, hfold_0, hfold_1, hfold_W,
    foldInput_relaxed]
  apply Synth.ext
  · simp only [value_bind, value_pure]
    rw [hlast_U]
    rfl
  · have htwo : 2 < b := lt_of_lt_of_le (by decide) hb
    have hbits := zip_toBitsLe_iff htwo c.cycle.order_le ((squeezed.1 : ZMod n) ^ 2)
    simp only [holds_bind, holds_conditionalEnforceEqual, holds_pure, holds_forM, ← hbits,
      implies_true, true_and, and_true, eq_iff_iff]
    exact ⟨fun hall henforce bits hmem => hall bits hmem henforce,
      fun hall bits hmem henforce => hall henforce bits hmem⟩

end Setting

end NexusVm.Nova.Cyclefold
