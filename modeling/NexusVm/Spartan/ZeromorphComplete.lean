import NexusVm.Spartan.Zeromorph
import Mathlib.Data.List.DropRight
import Mathlib.Tactic.NormNum

/-!
# Completeness of Zeromorph

A commitment is the value of the polynomial at the trapdoor, and both polynomials of the proof
vanish at the challenge.

Setup, commitment, proof and verification are those of the source, over any groups with a pairing
and any transcript.  The challenges that are left out are zero and the roots of unity of small
two-power order, at which the source divides by zero.  Soundness of the scheme is not treated.
-/

namespace NexusVm.Spartan

open Nova Univariate UnivariatePolynomials

section Polynomials

variable {F : Type} [Field F] {U : UnivariatePolynomials F}

theorem zipIdx_map_range {α : Type} (p : ℕ → α) (n : ℕ) :
    ((List.range (n + 1)).map p).zipIdx = ((List.range n).map p).zipIdx ++ [(p n, n)] := by
  rw [List.range_succ, List.map_append, List.zipIdx_append, List.length_map, List.length_range,
    List.map_singleton, List.zipIdx_singleton, Nat.zero_add]

theorem combineQuotients_succ (p : ℕ → U.Poly) (coefficients : List F) (n : ℕ) :
    combineQuotients U ((List.range (n + 1)).map p) coefficients =
      U.add (combineQuotients U ((List.range n).map p) coefficients)
        (U.scale (p n) (coefficients.getD n 0)) := by
  rw [combineQuotients, zipIdx_map_range, List.foldl_append]
  rfl

theorem value_combineQuotients (p : ℕ → U.Poly) (coefficients : List F) (n : ℕ) (t : F) :
    value (combineQuotients U ((List.range n).map p) coefficients) t =
      ∑ k ∈ Finset.range n, value (p k) t * coefficients.getD k 0 := by
  induction n with
  | zero =>
      rw [Finset.sum_range_zero]
      exact value_from [] t
  | succ n ih => rw [combineQuotients_succ, value_add, value_scale, ih, Finset.sum_range_succ]

theorem below_combineQuotients {p : ℕ → U.Poly} {N n : ℕ} (h : ∀ k < n, Below (p k) N)
    (coefficients : List F) :
    Below (combineQuotients U ((List.range n).map p) coefficients) N := by
  induction n with
  | zero => exact below_from (Nat.zero_le N)
  | succ n ih =>
      rw [combineQuotients_succ]
      exact (ih fun k hk => h k (by omega)).add ((h n n.lt_succ_self).scale _)

/-- The quotients of a polynomial at a point, as multilinear tables and as what the code keeps of
them. -/
structure TruncatedQuotients (u : List F) (n : ℕ) (Z : List F) (q : ℕ → List F) (p : ℕ → U.Poly) :
    Prop where
  quotients : Quotients u n Z q
  univar : ∀ k < n, (multilinearToUnivar U ⟨k, q k⟩ : Run Empty _) = .ok (p k)
  below : ∀ k < n, Below (p k) (2 ^ k)
  value_eq : ∀ k < n, ∀ t, value (p k) t = uniAt k (q k) t

/-- **`get_truncated_quotients`** returns the quotients. -/
theorem getTruncatedQuotients_eq {n : ℕ} {Z u : List F} (hZ : Z.length = 2 ^ n)
    (hu : u.length = n) : ∃ (q : ℕ → List F) (p : ℕ → U.Poly), TruncatedQuotients u n Z q p ∧
      (getTruncatedQuotients U ⟨n, Z⟩ u : Run Empty _) = .ok ((List.range n).map p) := by
  subst hu
  obtain ⟨q, hloop, hq⟩ := quotientsLoop_eq (E := Empty) (r := u) (le_refl u.length) hZ
  have hunivar : ∀ k, ∃ p : U.Poly, k < u.length →
      (multilinearToUnivar U ⟨k, q k⟩ : Run Empty _) = .ok p ∧ Below p (2 ^ k) ∧
        ∀ t, value p t = uniAt k (q k) t := by
    intro k
    by_cases hk : k < u.length
    · obtain ⟨p, hp⟩ := multilinearToUnivar_eq (E := Empty) (U := U) (hq.sizes k hk)
      exact ⟨p, fun _ => hp⟩
    · exact ⟨U.fromCoefficientsVec [], fun hlt => absurd hlt hk⟩
  choose p hp using hunivar
  refine ⟨q, p, ⟨hq, fun k hk => (hp k hk).1, fun k hk => (hp k hk).2.1,
    fun k hk => (hp k hk).2.2⟩, ?_⟩
  refine bind_eq_ok.mpr ⟨_, hloop, mapM_eq_ok_iff.mpr ?_⟩
  rw [List.forall₂_map_left_iff, List.forall₂_map_right_iff, List.forall₂_same]
  intro k hk
  exact (hp k (List.mem_range.mp hk)).1

variable {n : ℕ} {Z u : List F} {q : ℕ → List F} {p : ℕ → U.Poly}

theorem TruncatedQuotients.below_all (h : TruncatedQuotients u n Z q p) :
    ∀ k < n, Below (p k) (2 ^ n) := by
  intro k hk
  exact (h.below k hk).mono (Nat.pow_le_pow_right two_pos hk.le)

/-- **`shift_and_combine_with_powers`** on the quotients. -/
theorem shiftAndCombineWithPowers_eq (h : TruncatedQuotients u n Z q p) (y : F) : ∃ qHat : U.Poly,
    (shiftAndCombineWithPowers U ((List.range n).map p) y n : Run Empty _) = .ok qHat ∧
      Below qHat (2 ^ n) ∧
        ∀ t, value qHat t = ∑ k ∈ Finset.range n, value (p k) t * zetaCoefficient n t y k := by
  have hlen : ((List.range n).map p).length = n := by rw [List.length_map, List.length_range]
  have hpolys : ∀ j (hj : j < ((List.range n).map p).length),
      Below (((List.range n).map p)[j]) (2 ^ (0 + j)) := by
    intro j hj
    rw [List.getElem_map, List.getElem_range, Nat.zero_add]
    exact h.below j (hlen ▸ hj)
  have hzero : Below (U.fromCoefficientsVec (List.replicate (2 ^ n) 0)) (2 ^ n) :=
    below_from (List.length_replicate).le
  obtain ⟨qHat, hrun, hbelow, hvalue⟩ := combineLoop_eq (E := Empty) y (k := 0)
    (by rw [hlen, Nat.zero_add]) hpolys hzero
  rw [pow_zero] at hrun
  refine ⟨qHat, hrun, hbelow, fun t => ?_⟩
  rw [hvalue, value_from, polyValue_replicate_zero, zero_add, hlen, sum_map_range]
  apply Finset.sum_congr rfl
  intro k hk
  rw [List.map_map, getD_map_range _ (Finset.mem_range.mp hk), Nat.zero_add, Function.comp_apply]

variable [DecidableEq F]

/-- **`Z_x` vanishes at the challenge.** -/
theorem polyZx_eq (h : TruncatedQuotients u n Z q p) (hu : u.length = n) {f : U.Poly}
    (hf : (multilinearToUnivar U ⟨n, Z⟩ : Run Empty _) = .ok f) (hbelow : Below f (2 ^ n))
    (hvalue : ∀ t, value f t = uniAt n Z t) {x : F} (hx : GoodPoint n x) : ∃ Zx : U.Poly,
      (polyZx U ⟨n, Z⟩ ((List.range n).map p) u (valueAt Z u) x : Run Empty _) = .ok Zx ∧
        Below Zx (2 ^ n) ∧ value Zx x = 0 ∧ ∀ t, value Zx t = value f t -
          valueAt Z u * cyclotomic n 0 x -
            ∑ k ∈ Finset.range n, value (p k) t * zxCoefficient n x u k := by
  subst hu
  have hsum : ∀ t, value (combineQuotients U ((List.range u.length).map p)
      ((List.range u.length).map (zxCoefficient u.length x u))) t =
        ∑ k ∈ Finset.range u.length, value (p k) t * zxCoefficient u.length x u k := by
    intro t
    rw [value_combineQuotients]
    apply Finset.sum_congr rfl
    intro k hk
    rw [getD_map_range _ (Finset.mem_range.mp hk)]
  have hconstant : Below (U.fromCoefficientsVec [valueAt Z u * cyclotomic u.length 0 x])
      (2 ^ u.length) := below_from Nat.one_le_two_pow
  have hall : ∀ t, value (U.sub (U.sub f (U.fromCoefficientsVec
      [valueAt Z u * cyclotomic u.length 0 x])) (combineQuotients U ((List.range u.length).map p)
        ((List.range u.length).map (zxCoefficient u.length x u)))) t =
      value f t - valueAt Z u * cyclotomic u.length 0 x -
        ∑ k ∈ Finset.range u.length, value (p k) t * zxCoefficient u.length x u k := by
    intro t
    rw [value_sub, value_sub, value_from, hsum]
    simp [polyValue]
  refine ⟨_, bind_eq_ok.mpr ⟨f, hf, bind_eq_ok.mpr ⟨_, evalCyclotomic_eq (Nat.zero_le _) hx,
    bind_eq_ok.mpr ⟨_, getZxCoefficients_eq hx, rfl⟩⟩⟩,
    (hbelow.sub hconstant).sub (below_combineQuotients h.below_all _), ?_, hall⟩
  -- the identity of the quotients at the challenge
  have hquotients := h.quotients.univariate x
  have hterms : ∀ k ∈ Finset.range u.length, value (p k) x * zxCoefficient u.length x u k =
      (x ^ 2 ^ k * cyclotomic u.length (k + 1) x - u.getD k 0 * cyclotomic u.length k x) *
        uniAt k (q k) x := by
    intro k hk
    rw [h.value_eq k (Finset.mem_range.mp hk), zxCoefficient, mul_comm]
  rw [hall, hvalue, hquotients, Finset.sum_congr rfl hterms, List.take_length]
  ring

/-- **`zeta_x` vanishes at the challenge.** -/
theorem polyZetaX_eq (h : TruncatedQuotients u n Z q p) {x y : F} (hx : x ≠ 0) {qHat : U.Poly}
    (hqHat : (shiftAndCombineWithPowers U ((List.range n).map p) y n : Run Empty _) = .ok qHat)
    (hbelow : Below qHat (2 ^ n)) (hvalue : ∀ t, value qHat t =
      ∑ k ∈ Finset.range n, value (p k) t * zetaCoefficient n t y k) : ∃ zetaX : U.Poly,
      (polyZetaX U ((List.range n).map p) y x n : Run Empty _) = .ok zetaX ∧
        Below zetaX (2 ^ n) ∧ value zetaX x = 0 ∧ ∀ t, value zetaX t = value qHat t -
          ∑ k ∈ Finset.range n, value (p k) t * zetaCoefficient n x y k := by
  have hall : ∀ t, value (U.sub qHat (combineQuotients U ((List.range n).map p)
      ((List.range n).map (zetaCoefficient n x y)))) t = value qHat t -
        ∑ k ∈ Finset.range n, value (p k) t * zetaCoefficient n x y k := by
    intro t
    rw [value_sub, value_combineQuotients]
    congr 1
    apply Finset.sum_congr rfl
    intro k hk
    rw [getD_map_range _ (Finset.mem_range.mp hk)]
  refine ⟨_, bind_eq_ok.mpr ⟨qHat, hqHat, bind_eq_ok.mpr ⟨_, getZetaXCoefficients_eq hx y, rfl⟩⟩,
    hbelow.sub (below_combineQuotients h.below_all _), ?_, hall⟩
  rw [hall, hvalue, sub_self]

end Polynomials

section Keys

variable {F G1 G2 GT : Type} [Field F] [AddCommGroup G1] [AddCommGroup G2] [AddCommGroup GT]
  [Module F G1] [Module F G2] [Module F GT]

/-- The exponent of the trapdoor in the shifted powers. -/
def shiftExponent (max n : ℕ) : ℕ := 2 ^ max - 2 ^ n + 1

/-- The keys that `setup` and `trim` make of a trapdoor. -/
structure TrapdoorKeys (max n : ℕ) (beta : F) (g : G1) (h : G2) (ck : ZeromorphCommitterKey G1)
    (vk : ZeromorphVerifierKey G1 G2) : Prop where
  numVars : ck.numVars = n
  length_powers : ck.powersOfTauG.length = 2 ^ n
  powers : ∀ i < 2 ^ n, ck.powersOfTauG.getD i 0 = beta ^ i • g
  length_shifted : ck.shiftedPowersOfTauG.length = 2 ^ n - 1
  shifted : ∀ i < 2 ^ n - 1,
    ck.shiftedPowersOfTauG.getD i 0 = (beta ^ shiftExponent max n * beta ^ i) • g
  verifier : vk = ⟨n, g, h, beta • h, beta ^ shiftExponent max n • h⟩

theorem getD_map_smul {V : Type} [AddCommGroup V] [Module F V] (l : List F) (v : V) (i : ℕ) :
    (l.map (· • v)).getD i 0 = l.getD i 0 • v := by
  rw [List.getD_eq_getElem?_getD, List.getD_eq_getElem?_getD, List.getElem?_map]
  cases l[i]? with
  | none => exact (zero_smul F v).symm
  | some a => rfl

theorem getD_powers (beta : F) {n i : ℕ} (hi : i < n) :
    ((List.range n).map (beta ^ ·)).getD i 0 = beta ^ i := getD_map_range _ hi

/-- The SRS of a trapdoor. -/
structure TrapdoorSRS (max : ℕ) (beta : F) (g : G1) (h : G2) (srs : ZeromorphSRS G1 G2) : Prop where
  length_powers : srs.powersOfTauG.length = 2 ^ max
  powers : ∀ i < 2 ^ max, srs.powersOfTauG.getD i 0 = beta ^ i • g
  h_eq : srs.h = h
  length_shifts : srs.shiftPowersOfTauH.length = max + 1
  shifts : ∀ n, 1 ≤ n → n ≤ max →
    srs.shiftPowersOfTauH.getD n 0 = beta ^ shiftExponent max n • h

/-- **`setup`** with at least one variable. -/
theorem setup_eq {max : ℕ} (hmax : 1 ≤ max) (beta : F) (g : G1) (h : G2) :
    ∃ srs, setup max beta g h = .ok srs ∧ TrapdoorSRS max beta g h srs := by
  have htwo : 2 ^ 1 ≤ 2 ^ max := Nat.pow_le_pow_right two_pos hmax
  have hdegree : 2 ^ max - 1 + 1 = 2 ^ max := by omega
  refine ⟨_, bind_eq_ok.mpr ⟨(), failIf_eq_ok.mpr (by omega), rfl⟩, ?_, ?_, rfl, ?_, ?_⟩
  · show (List.map _ (List.take _ (List.map _ (List.range _)))).length = _
    rw [List.length_map, List.length_take, List.length_map, List.length_range]
    omega
  · intro i hi
    show (List.map (· • g) (List.take _ (List.map (beta ^ ·) (List.range _)))).getD i 0 = _
    rw [getD_map_smul, List.getD_eq_getElem?_getD, List.getElem?_take, if_pos (by omega),
      ← List.getD_eq_getElem?_getD, getD_powers beta (by omega)]
  · show (List.map _ (_ :: List.map _ (List.range' 1 max))).length = _
    rw [List.length_map, List.length_cons, List.length_map, List.length_range']
  · intro n hn hle
    have hpow : 2 ^ n ≤ 2 ^ max := Nat.pow_le_pow_right two_pos hle
    have hone := Nat.two_pow_pos n
    obtain ⟨k, rfl⟩ : ∃ k, n = k + 1 := ⟨n - 1, by omega⟩
    have hentry : (List.range' 1 max)[k]? = some (k + 1) := by
      rw [List.getElem?_range' (by omega), one_mul, add_comm]
    show (List.map (· • h) (_ :: List.map _ (List.range' 1 max))).getD (k + 1) 0 = _
    rw [getD_map_smul, List.getD_cons_succ, List.getD_eq_getElem?_getD, List.getElem?_map, hentry,
      Option.map_some, Option.getD_some, getD_powers beta (by omega), hdegree, shiftExponent]

/-- **`trim`** to a number of variables of the SRS. -/
theorem trim_eq {E : Type} {max n : ℕ} (hn : 1 ≤ n) (hle : n ≤ max) {beta : F} {g : G1} {h : G2}
    {srs : ZeromorphSRS G1 G2} (hsrs : TrapdoorSRS max beta g h srs) :
    ∃ ck vk, (trim srs n : Run E _) = .ok (ck, vk) ∧ TrapdoorKeys max n beta g h ck vk := by
  have hpow : 2 ^ n ≤ 2 ^ max := Nat.pow_le_pow_right two_pos hle
  have hone := Nat.two_pow_pos n
  have hlen := hsrs.length_powers
  have hdegree : srs.maxDegree = 2 ^ max - 1 := by rw [ZeromorphSRS.maxDegree, hlen]
  have hdrop : 2 ^ max - 1 - (2 ^ n - 1) + 1 = shiftExponent max n := by
    rw [shiftExponent]
    omega
  have hself : shiftExponent max max = 1 := by rw [shiftExponent, Nat.sub_self]
  refine ⟨_, _, bind_eq_ok.mpr ⟨(), assert_eq_ok.mpr (by omega), bind_eq_ok.mpr
    ⟨(), assert_eq_ok.mpr (by rw [hsrs.length_shifts]; omega), rfl⟩⟩, rfl, ?_, ?_, ?_, ?_, ?_⟩
  · show (List.take _ _).length = _
    rw [List.length_take]
    omega
  · intro i hi
    show (List.take _ _).getD i 0 = _
    rw [List.getD_eq_getElem?_getD, List.getElem?_take, if_pos (by omega),
      ← List.getD_eq_getElem?_getD, hsrs.powers i (by omega)]
  · show (List.drop _ _).length = _
    rw [List.length_drop, hdegree, hlen]
    omega
  · intro i hi
    show (List.drop _ _).getD i 0 = _
    rw [List.getD_eq_getElem?_getD, List.getElem?_drop, ← List.getD_eq_getElem?_getD, hdegree,
      hdrop, hsrs.powers _ (by rw [shiftExponent]; omega), pow_add]
  · rw [hsrs.powers 0 (by omega), hsrs.h_eq, hsrs.length_shifts, Nat.add_sub_cancel,
      hsrs.shifts max (hn.trans hle) (le_refl max), hself, hsrs.shifts n hn hle, pow_zero, pow_one,
      one_smul]

variable {U : UnivariatePolynomials F} (K : KzgGroups F G1 G2 GT U)

variable {p : U.Poly}

/-- **A commitment is the value at the trapdoor.** -/
theorem kzgCommit_value {powers : List G1} {N : ℕ} (hN : 0 < N) (hlen : powers.length = N)
    {c beta : F} {g : G1} (hpowers : ∀ i < N, powers.getD i 0 = (c * beta ^ i) • g) (hp : Below p N) :
    K.kzgCommit powers p = .ok ((c * value p beta) • g) := by
  have hdegree := hp.degree_lt hN
  rw [K.kzgCommit_eq powers p (by omega), hlen, value_eq_sum hp, Finset.mul_sum, Finset.sum_smul]
  congr 1
  apply Finset.sum_congr rfl
  intro i hi
  rw [hpowers i (Finset.mem_range.mp hi), smul_smul]
  congr 1
  ring

variable {max n : ℕ} {beta : F} {g : G1} {h : G2} {ck : ZeromorphCommitterKey G1}
  {vk : ZeromorphVerifierKey G1 G2}

theorem TrapdoorKeys.commit (hkeys : TrapdoorKeys max n beta g h ck vk) (hp : Below p (2 ^ n)) :
    K.kzgCommit ck.powersOfTauG p = .ok (value p beta • g) := by
  have hpowers : ∀ i < 2 ^ n, ck.powersOfTauG.getD i 0 = ((1 : F) * beta ^ i) • g := by
    intro i hi
    rw [hkeys.powers i hi, one_mul]
  rw [kzgCommit_value K (Nat.two_pow_pos n) hkeys.length_powers hpowers hp, one_mul]

theorem TrapdoorKeys.commitShifted (hkeys : TrapdoorKeys max n beta g h ck vk) (hn : 1 ≤ n)
    (hp : Below p (2 ^ n - 1)) : K.kzgCommit ck.shiftedPowersOfTauG p =
      .ok ((beta ^ shiftExponent max n * value p beta) • g) := by
  have htwo : 2 ^ 1 ≤ 2 ^ n := Nat.pow_le_pow_right two_pos hn
  exact kzgCommit_value K (by omega) hkeys.length_shifted hkeys.shifted hp

theorem sumCommitments_succ (C : ℕ → G1) (coefficients : List F) (n : ℕ) :
    sumCommitments ((List.range (n + 1)).map C) coefficients =
      sumCommitments ((List.range n).map C) coefficients + coefficients.getD n 0 • C n := by
  rw [sumCommitments, zipIdx_map_range, List.foldl_append]
  rfl

/-- The combination of the commitments commits to the combination. -/
theorem sumCommitments_eq (a : ℕ → F) (g : G1) (coefficients : List F) (n : ℕ) :
    sumCommitments ((List.range n).map fun k => a k • g) coefficients =
      (∑ k ∈ Finset.range n, a k * coefficients.getD k 0) • g := by
  induction n with
  | zero => rw [Finset.sum_range_zero, zero_smul]; rfl
  | succ n ih =>
      rw [sumCommitments_succ, ih, Finset.sum_range_succ, add_smul, smul_smul,
        mul_comm (a n)]

/-- A combination of commitments to the quotients with coefficients of the code. -/
theorem sumCommitments_map (a c : ℕ → F) (g : G1) (n : ℕ) :
    sumCommitments ((List.range n).map fun k => a k • g) ((List.range n).map c) =
      (∑ k ∈ Finset.range n, a k * c k) • g := by
  rw [sumCommitments_eq]
  congr 1
  apply Finset.sum_congr rfl
  intro k hk
  rw [getD_map_range _ (Finset.mem_range.mp hk)]

end Keys

/-! ## Completeness -/

section Complete

variable {F G1 G2 GT : Type} [Field F] [AddCommGroup G1] [AddCommGroup G2] [AddCommGroup GT]
  [Module F G1] [Module F G2] [Module F GT] {U : UnivariatePolynomials F}
  (K : KzgGroups F G1 G2 GT U) {T : Transcript F G1} {max n : ℕ} {beta : F} {g : G1} {h : G2}
  {ck : ZeromorphCommitterKey G1} {vk : ZeromorphVerifierKey G1 G2} {Z u : List F}
  {q : ℕ → List F} {p : ℕ → U.Poly}

/-- What the prover has after the last challenge, for the quotients of its polynomial. -/
structure HonestPhase (n : ℕ) (beta : F) (g : G1) (p : ℕ → U.Poly) (qHat : U.Poly) (st : T.State)
    (phase : CommitPhase U T) : Prop where
  quotients : phase.quotients = (List.range n).map p
  commitments : phase.commitments = (List.range n).map fun k => value (p k) beta • g
  combined : (shiftAndCombineWithPowers U ((List.range n).map p) phase.y n : Run Empty _) = .ok qHat
  below : Below qHat (2 ^ n)
  value_eq : ∀ t, value qHat t =
    ∑ k ∈ Finset.range n, value (p k) t * zetaCoefficient n t phase.y k
  cQHat : phase.cQHat = value qHat beta • g
  challenges : ∃ st', quotientChallenge phase.commitments st = (phase.y, st') ∧
    lastChallenges phase.cQHat st' = ((phase.x, phase.z), phase.st)

/-- A commitment that is passed on is not computed again. -/
theorem commitPhase_given {poly : DensePolynomial F} {c : G1} (hc : commit K poly ck = .ok c)
    (u : List F) (eval : F) (st : T.State) :
    commitPhase K (some c) poly u eval ck st = commitPhase K none poly u eval ck st := by
  unfold commitPhase
  rw [hc]

/-- **The prover reaches its last challenge.** -/
theorem commitPhase_eq (hkeys : TrapdoorKeys max n beta g h ck vk)
    (hquotients : TruncatedQuotients u n Z q p)
    (htruncated : (getTruncatedQuotients U ⟨n, Z⟩ u : Run Empty _) = .ok ((List.range n).map p))
    {c : G1} {given : Option G1} (hc : commit K ⟨n, Z⟩ ck = .ok c)
    (hgiven : given = none ∨ given = some c) (eval : F) (st : T.State) :
    ∃ phase qHat, commitPhase K given ⟨n, Z⟩ u eval ck st = .ok phase ∧
      HonestPhase n beta g p qHat (absorbClaim c u eval st) phase := by
  have hlen : ((List.range n).map p).length = n := by rw [List.length_map, List.length_range]
  have hcommitments : ((List.range n).map p).mapM (K.kzgCommit ck.powersOfTauG) =
      .ok ((List.range n).map fun k => value (p k) beta • g) := by
    rw [mapM_eq_ok_iff, List.forall₂_map_left_iff, List.forall₂_map_right_iff, List.forall₂_same]
    intro k hk
    exact hkeys.commit K (hquotients.below_all k (List.mem_range.mp hk))
  rcases hy : quotientChallenge ((List.range n).map fun k => value (p k) beta • g)
    (absorbClaim c u eval st) with ⟨y, st'⟩
  obtain ⟨qHat, hqHat, hbelow, hvalue⟩ := shiftAndCombineWithPowers_eq hquotients y
  rcases hx : lastChallenges (value qHat beta • g) st' with ⟨⟨x, z⟩, st''⟩
  refine ⟨⟨_, _, y, _, x, z, st''⟩, qHat, ?_,
    ⟨rfl, rfl, hqHat, hbelow, hvalue, rfl, st', hy, hx⟩⟩
  have hcommit : commitPhase K given ⟨n, Z⟩ u eval ck st =
      commitPhase K none ⟨n, Z⟩ u eval ck st := by
    rcases hgiven with rfl | rfl
    · rfl
    · exact commitPhase_given K hc u eval st
  rw [hcommit]
  refine bind_eq_ok.mpr ⟨c, hc, bind_eq_ok.mpr ⟨_, htruncated, bind_eq_ok.mpr
    ⟨(), assert_eq_ok.mpr hkeys.numVars.symm, bind_eq_ok.mpr ⟨(), assert_eq_ok.mpr hlen,
      bind_eq_ok.mpr ⟨_, hcommitments, ?_⟩⟩⟩⟩⟩
  rw [hy]
  refine bind_eq_ok.mpr ⟨qHat, hqHat, bind_eq_ok.mpr ⟨_, hkeys.commit K hbelow, ?_⟩⟩
  rw [hx]

variable [DecidableEq F] [DecidableEq GT]

omit [DecidableEq F] [DecidableEq GT] in
/-- **The pairing equation**: the commitment to the quotient at a root. -/
theorem pairing_quotient {Zx zetaX : U.Poly} {x : F} (z s : F) (hZx : value Zx x = 0)
    (hzeta : value zetaX x = 0) :
    K.pairing ((value zetaX beta + z * value Zx beta) • g) (s • h) =
      K.pairing ((s * value (U.add (quotientUnivarByLinearFactor U zetaX x)
        (U.scale (quotientUnivarByLinearFactor U Zx x) z)) beta) • g) ((beta - x) • h) := by
  have hZxMul := quotient_mul Zx x beta
  have hzetaMul := quotient_mul zetaX x beta
  rw [hZx, sub_zero] at hZxMul
  rw [hzeta, sub_zero] at hzetaMul
  rw [K.pairing_smul, K.pairing_smul, value_add, value_scale, ← hZxMul, ← hzetaMul]
  congr 1
  ring

/-- **The verifier accepts** what the prover sends after its last challenge. -/
theorem prove_verify (hn : 1 ≤ n) (hkeys : TrapdoorKeys max n beta g h ck vk) (hu : u.length = n)
    (hquotients : TruncatedQuotients u n Z q p) {f : U.Poly}
    (hf : (multilinearToUnivar U ⟨n, Z⟩ : Run Empty _) = .ok f) (hbelow : Below f (2 ^ n))
    (hvalue : ∀ t, value f t = uniAt n Z t) {given : Option G1} {st : T.State}
    {phase : CommitPhase U T} {qHat : U.Poly}
    (hrun : commitPhase K given ⟨n, Z⟩ u (valueAt Z u) ck st = .ok phase)
    (hphase : HonestPhase n beta g p qHat (absorbClaim (value f beta • g) u (valueAt Z u) st) phase)
    (hx : GoodPoint n phase.x) : ∃ Zx zetaX proof,
      (polyZx U ⟨n, Z⟩ phase.quotients u (valueAt Z u) phase.x : Run Empty _) = .ok Zx ∧
        (polyZetaX U phase.quotients phase.y phase.x n : Run Empty _) = .ok zetaX ∧
          value Zx phase.x = 0 ∧ value zetaX phase.x = 0 ∧
          prove K given ⟨n, Z⟩ u (valueAt Z u) ck st = .ok (proof, phase.st) ∧
            verify K (value f beta • g) proof vk st u (valueAt Z u) = .ok phase.st := by
  obtain ⟨Zx, hZx, hZxBelow, hZxZero, hZxValue⟩ := polyZx_eq hquotients hu hf hbelow hvalue hx
  obtain ⟨zetaX, hzeta, hzetaBelow, hzetaZero, hzetaValue⟩ :=
    polyZetaX_eq hquotients hx.ne_zero hphase.combined hphase.below hphase.value_eq
  rw [← hphase.quotients] at hZx hzeta
  have hsize : 2 ^ n - 1 + 1 = 2 ^ n := Nat.sub_add_cancel Nat.one_le_two_pow
  have hquotient : Below (U.add (quotientUnivarByLinearFactor U zetaX phase.x)
      (U.scale (quotientUnivarByLinearFactor U Zx phase.x) phase.z)) (2 ^ n - 1) := by
    rw [← hsize] at hZxBelow hzetaBelow
    exact (hzetaBelow.quotient _).add ((hZxBelow.quotient _).scale _)
  refine ⟨Zx, zetaX, _, hZx, hzeta, hZxZero, hzetaZero,
    bind_eq_ok.mpr ⟨phase, hrun, bind_eq_ok.mpr ⟨(), assert_eq_ok.mpr hx.ne_zero,
      bind_eq_ok.mpr ⟨Zx, hZx, bind_eq_ok.mpr ⟨zetaX, hzeta, bind_eq_ok.mpr
        ⟨_, hkeys.commitShifted K hn hquotient, rfl⟩⟩⟩⟩⟩, ?_⟩
  obtain ⟨st', hy, hlast⟩ := hphase.challenges
  have hCZx : value f beta • g - (valueAt Z u * cyclotomic n 0 phase.x) • g -
      sumCommitments phase.commitments ((List.range n).map (zxCoefficient n phase.x u)) =
        value Zx beta • g := by
    rw [hphase.commitments, sumCommitments_map, hZxValue, sub_smul, sub_smul]
  have hCzeta : phase.cQHat - sumCommitments phase.commitments
      ((List.range n).map (zetaCoefficient n phase.x phase.y)) = value zetaX beta • g := by
    rw [hphase.commitments, hphase.cQHat, sumCommitments_map, hzetaValue, sub_smul]
  have hzx : (getZxCoefficients phase.x u : Run PCSError _) =
      .ok ((List.range n).map (zxCoefficient n phase.x u)) := by
    subst hu
    exact getZxCoefficients_eq hx
  have hlen : ∀ c : ℕ → F, phase.commitments.length ≤ ((List.range n).map c).length := by
    intro c
    rw [hphase.commitments, List.length_map, List.length_map]
  rw [hkeys.verifier]
  refine bind_eq_ok.mpr ⟨(), assert_eq_ok.mpr hu, ?_⟩
  dsimp only
  rw [hy]
  dsimp only
  rw [hlast, hu]
  refine bind_eq_ok.mpr ⟨(), assert_eq_ok.mpr hx.ne_zero, bind_eq_ok.mpr
    ⟨_, evalCyclotomic_eq (Nat.zero_le n) hx, bind_eq_ok.mpr
      ⟨_, combineCommitments_eq_ok hzx (hlen _), bind_eq_ok.mpr
        ⟨_, combineCommitments_eq_ok (getZetaXCoefficients_eq hx.ne_zero phase.y) (hlen _),
          bind_eq_ok.mpr ⟨(), failIf_eq_ok.mpr (not_not.mpr ?_), rfl⟩⟩⟩⟩⟩
  rw [hCZx, hCzeta, smul_smul, ← add_smul, ← sub_smul]
  exact pairing_quotient K phase.z _ hZxZero hzetaZero

/-- **Zeromorph is complete**: for every trapdoor, size of the SRS and number of variables the
quotients are those of the multilinear polynomial, and at the challenges for which the coefficients
exist both divided polynomials vanish and the verifier accepts the proof. -/
theorem zeromorph_complete (T : Transcript F G1) (hn : 1 ≤ n) (hmax : n ≤ max) (beta : F) (g : G1)
    (h : G2) (hZ : Z.length = 2 ^ n) (hu : u.length = n) (st : T.State) :
    ∃ srs ck vk c, setup max beta g h = .ok srs ∧ (trim srs n : Run Empty _) = .ok (ck, vk) ∧
      commit K ⟨n, Z⟩ ck = .ok c ∧
      ((⟨n, Z⟩ : DensePolynomial F).evaluate u : Run Empty F) = .ok (valueAt Z u) ∧
      ∀ given : Option G1, given = none ∨ given = some c → ∃ phase : CommitPhase U T,
        commitPhase K given ⟨n, Z⟩ u (valueAt Z u) ck st = .ok phase ∧
        (∃ q : ℕ → List F, (∀ k < n, (q k).length = 2 ^ k) ∧
          (∀ w : List F, w.length = n → valueAt Z w - valueAt Z u =
            ∑ k ∈ Finset.range n, (w.getD k 0 - u.getD k 0) * valueAt (q k) (w.take k)) ∧
          (getTruncatedQuotients U ⟨n, Z⟩ u : Run Empty _) = .ok phase.quotients ∧
          ((List.range n).mapM fun k => multilinearToUnivar U ⟨k, q k⟩ : Run Empty _) =
            .ok phase.quotients) ∧
        (GoodPoint n phase.x → ∃ Zx zetaX proof,
          (polyZx U ⟨n, Z⟩ phase.quotients u (valueAt Z u) phase.x : Run Empty _) = .ok Zx ∧
          (polyZetaX U phase.quotients phase.y phase.x n : Run Empty _) = .ok zetaX ∧
          value Zx phase.x = 0 ∧ value zetaX phase.x = 0 ∧
          prove K given ⟨n, Z⟩ u (valueAt Z u) ck st = .ok (proof, phase.st) ∧
          verify K c proof vk st u (valueAt Z u) = .ok phase.st) := by
  obtain ⟨srs, hsetup, hsrs⟩ := setup_eq (hn.trans hmax) beta g h
  obtain ⟨ck, vk, htrim, hkeys⟩ := trim_eq (E := Empty) hn hmax hsrs
  obtain ⟨f, hf, hbelow, hvalue⟩ := multilinearToUnivar_eq (E := Empty) (U := U) hZ
  obtain ⟨q, p, hquotients, htruncated⟩ := getTruncatedQuotients_eq (U := U) hZ hu
  have hcommit : commit K ⟨n, Z⟩ ck = .ok (value f beta • g) :=
    bind_eq_ok.mpr ⟨f, hf, hkeys.commit K hbelow⟩
  refine ⟨srs, ck, vk, _, hsetup, htrim, hcommit, evaluate_eq hu hZ, fun given hgiven => ?_⟩
  obtain ⟨phase, qHat, hrun, hphase⟩ :=
    commitPhase_eq K hkeys hquotients htruncated hcommit hgiven (valueAt Z u) st
  refine ⟨phase, hrun, ⟨q, hquotients.quotients.sizes, ?_, ?_, ?_⟩, fun hx => ?_⟩
  · intro w hw
    have hmultilinear := hquotients.quotients.multilinear w hw
    rw [← hu, List.take_length, hu] at hmultilinear
    rw [hmultilinear, add_sub_cancel_left]
  · rw [htruncated, hphase.quotients]
  · rw [hphase.quotients, mapM_eq_ok_iff, List.forall₂_map_right_iff, List.forall₂_same]
    intro k hk
    exact hquotients.univar k (List.mem_range.mp hk)
  · exact prove_verify K hn hkeys hu hquotients hf hbelow hvalue hrun hphase hx

end Complete

/-! ## Commitments by their exponents -/

section Exponents

variable {F : Type} [Field F] [DecidableEq F]

/-- Coefficients without the zeros at the end. -/
def trimmed (cs : List F) : List F := cs.rdropWhile (· = 0)

theorem getD_trimmed (cs : List F) (i : ℕ) : (trimmed cs).getD i 0 = cs.getD i 0 := by
  induction cs using List.reverseRecOn with
  | nil => rfl
  | append_singleton cs c ih =>
      rw [trimmed, List.rdropWhile_concat]
      by_cases hc : c = 0
      · rw [if_pos (by simpa using hc)]
        rw [trimmed] at ih
        rw [ih, hc]
        simp only [List.getD_eq_getElem?_getD, List.getElem?_append, List.getElem?_singleton]
        split_ifs with hlt hzero
        · rfl
        · rw [List.getElem?_eq_none (by omega)]
          rfl
        · rw [List.getElem?_eq_none (by omega)]
      · rw [if_neg (by simpa using hc)]

theorem getLast?_trimmed (cs : List F) : (trimmed cs).getLast? ≠ some 0 := by
  intro hlast
  have hne : trimmed cs ≠ [] := by
    intro hnil
    rw [hnil] at hlast
    cases hlast
  have hnot := List.rdropWhile_last_not (fun c : F => decide (c = 0)) cs hne
  rw [List.getLast?_eq_some_getLast hne] at hlast
  apply hnot
  rw [decide_eq_true_eq]
  exact Option.some.inj hlast

/-- The polynomial with these coefficients below a degree. -/
def ofEntries (n : ℕ) (f : ℕ → F) : { cs : List F // cs.getLast? ≠ some 0 } :=
  ⟨trimmed ((List.range n).map f), getLast?_trimmed _⟩

theorem getD_ofEntries {n : ℕ} {f : ℕ → F} (hf : ∀ i, n ≤ i → f i = 0) (i : ℕ) :
    (ofEntries n f).1.getD i 0 = f i := by
  show (trimmed _).getD i 0 = _
  rw [getD_trimmed]
  by_cases hi : i < n
  · exact getD_map_range f hi
  · rw [List.getD_eq_default _ _ (by rw [List.length_map, List.length_range]; omega),
      hf i (by omega)]

variable (F) in
/-- Polynomials as trimmed lists. -/
def trimmedPolynomials : UnivariatePolynomials F where
  Poly := { cs : List F // cs.getLast? ≠ some 0 }
  coeffs p := p.1
  fromCoefficientsVec cs := ⟨trimmed cs, getLast?_trimmed cs⟩
  add p q := ofEntries (max p.1.length q.1.length) fun i => p.1.getD i 0 + q.1.getD i 0
  sub p q := ofEntries (max p.1.length q.1.length) fun i => p.1.getD i 0 - q.1.getD i 0
  scale p c := ofEntries p.1.length fun i => p.1.getD i 0 * c
  leading p := p.2
  coeff_from cs i := getD_trimmed cs i
  coeff_add p q i := by
    apply getD_ofEntries
    intro j hj
    rw [List.getD_eq_default _ _ (by omega), List.getD_eq_default _ _ (by omega), add_zero]
  coeff_sub p q i := by
    apply getD_ofEntries
    intro j hj
    rw [List.getD_eq_default _ _ (by omega), List.getD_eq_default _ _ (by omega), sub_zero]
  coeff_scale p c i := by
    apply getD_ofEntries
    intro j hj
    rw [List.getD_eq_default _ _ hj, zero_mul]

variable (F) in
/-- The groups by their exponents: the pairing is the product. -/
def exponentGroups : KzgGroups F F F F (trimmedPolynomials F) where
  pairing P Q := P * Q
  kzgCommit powers p :=
    if (trimmedPolynomials F).degree p + 1 ≤ powers.length then
      .ok ((List.range powers.length).map fun i => p.1.getD i 0 * powers.getD i 0).sum
    else .error .panic
  pairing_smul a b P Q := by
    rw [smul_eq_mul, smul_eq_mul, smul_eq_mul]
    ring
  kzgCommit_eq powers p h := by
    rw [if_pos h, sum_map_range]
    rfl

/-- A transcript with one challenge. -/
def constantTranscript {C : Type} (x : F) : Transcript F C where
  State := Unit
  appendMessage _ _ _ := ()
  challengeScalar _ _ := (x, ())

omit [DecidableEq F] in
/-- The challenge of the phase is the one of the transcript. -/
theorem commitPhase_constant {G1 G2 GT : Type} [AddCommGroup G1] [AddCommGroup G2]
    [AddCommGroup GT] [Module F G1] [Module F G2] [Module F GT] {U : UnivariatePolynomials F}
    {K : KzgGroups F G1 G2 GT U} {x : F} {c : G1} {poly : DensePolynomial F} {u : List F}
    {eval : F} {ck : ZeromorphCommitterKey G1} {phase : CommitPhase U (constantTranscript x)}
    (h : commitPhase K (some c) poly u eval ck () = .ok phase) : phase.x = x := by
  obtain ⟨_, -, h⟩ := bind_eq_ok.mp h
  obtain ⟨_, -, h⟩ := bind_eq_ok.mp h
  obtain ⟨_, -, h⟩ := bind_eq_ok.mp h
  obtain ⟨_, -, h⟩ := bind_eq_ok.mp h
  obtain ⟨_, -, h⟩ := bind_eq_ok.mp h
  obtain ⟨_, -, h⟩ := bind_eq_ok.mp h
  obtain ⟨_, -, h⟩ := bind_eq_ok.mp h
  obtain rfl := Except.ok.inj h
  rfl

end Exponents

/-- A polynomial in one variable under an SRS for two. -/
theorem zeromorph_accepts : ∃ srs ck vk c proof,
    setup 2 (3 : ℚ) (1 : ℚ) (1 : ℚ) = .ok srs ∧ (trim srs 1 : Run Empty _) = .ok (ck, vk) ∧
      commit (exponentGroups ℚ) ⟨1, [4, 7]⟩ ck = .ok c ∧
      prove (T := constantTranscript 2) (exponentGroups ℚ) (some c) ⟨1, [4, 7]⟩ [5]
        (valueAt [4, 7] [5]) ck () = .ok (proof, ()) ∧
      verify (T := constantTranscript 2) (exponentGroups ℚ) c proof vk () [5]
        (valueAt [4, 7] [5]) = .ok () := by
  have hone : 1 ≤ 2 := one_le_two
  obtain ⟨srs, ck, vk, c, hsetup, htrim, hcommit, -, hgiven⟩ :=
    zeromorph_complete (exponentGroups ℚ) (constantTranscript 2) (le_refl 1) hone 3 1 1
      (Z := [4, 7]) (u := [5]) rfl rfl ()
  obtain ⟨phase, hrun, -, hgood⟩ := hgiven (some c) (Or.inr rfl)
  have hpoint : GoodPoint 1 phase.x := by
    rw [commitPhase_constant hrun]
    constructor
    · exact two_ne_zero
    · intro k hk
      rcases Nat.le_one_iff_eq_zero_or_eq_one.mp hk with rfl | rfl
      · norm_num
      · norm_num
  obtain ⟨-, -, proof, -, -, -, -, hprove, hverify⟩ := hgood hpoint
  exact ⟨srs, ck, vk, c, proof, hsetup, htrim, hcommit, hprove, hverify⟩

end NexusVm.Spartan
