import NexusVm.Univariate
import NexusVm.Spartan.Transcript

/-!
# The algebra of Zeromorph

`spartan/src/polycommitments/zeromorph/algebra.rs`: the univariate polynomials of a multilinear one,
its quotients, and the coefficients at the challenges.  Univariate polynomials and their commitments
come from other crates.
-/

namespace NexusVm.Spartan

open Nova Univariate

/-- `ark_poly::univariate::DensePolynomial`: coefficients without a leading zero. -/
structure UnivariatePolynomials (F : Type) [Field F] where
  Poly : Type
  coeffs : Poly → List F
  fromCoefficientsVec : List F → Poly
  add : Poly → Poly → Poly
  sub : Poly → Poly → Poly
  scale : Poly → F → Poly
  leading : ∀ p, (coeffs p).getLast? ≠ some 0
  coeff_from : ∀ cs i, (coeffs (fromCoefficientsVec cs)).getD i 0 = cs.getD i 0
  coeff_add : ∀ p q i, (coeffs (add p q)).getD i 0 = (coeffs p).getD i 0 + (coeffs q).getD i 0
  coeff_sub : ∀ p q i, (coeffs (sub p q)).getD i 0 = (coeffs p).getD i 0 - (coeffs q).getD i 0
  coeff_scale : ∀ p c i, (coeffs (scale p c)).getD i 0 = (coeffs p).getD i 0 * c

section Model

variable {F : Type} [Field F] (U : UnivariatePolynomials F)

/-- `DensePolynomial::degree`, zero for the zero polynomial. -/
def UnivariatePolynomials.degree (p : U.Poly) : ℕ := (U.coeffs p).length - 1

/-- `reverse_n_bits`. -/
def reverseNBits (n x : ℕ) : ℕ :=
  (List.range n).foldl
    (fun result i => if x.testBit i then result ||| 1 <<< (n - 1 - i) else result) 0

/-- The coefficients of `multilinear_to_univar`; the vector has its full size from the first entry
on. -/
def univarCoeffs (n : ℕ) (Z : List F) : List F :=
  Z.zipIdx.foldl (fun coeffVec (c, i) => coeffVec.set (reverseNBits n i) c)
    (List.replicate (2 ^ n) 0)

/-- `multilinear_to_univar`. -/
def multilinearToUnivar {E : Type} (p : DensePolynomial F) : Run E U.Poly := do
  let unipoly := U.fromCoefficientsVec (univarCoeffs p.numVars p.Z)
  Run.assert (U.degree unipoly < 2 ^ p.numVars)
  .ok unipoly

/-- `poly_sub`: entries of the first vector without a partner stay. -/
def polySub {E : Type} (p q : DensePolynomial F) : Run E (DensePolynomial F) := do
  Run.assert (p.numVars = q.numVars)
  denseNew ((List.range p.Z.length).map fun i => p.Z.getD i 0 - q.Z.getD i 0)

/-- `poly_add`. -/
def polyAdd {E : Type} (p q : DensePolynomial F) : Run E (DensePolynomial F) := do
  Run.assert (p.numVars = q.numVars)
  denseNew ((List.range p.Z.length).map fun i => p.Z.getD i 0 + q.Z.getD i 0)

/-- `scale_ML`. -/
def scaleML {E : Type} (p : DensePolynomial F) (scalar : F) : Run E (DensePolynomial F) :=
  denseNew (p.Z.map (· * scalar))

/-- `f_n_minus_1_minus_k` of the next round; the last round leaves it. -/
def nextTable {E : Type} (r : List F) (k : ℕ) (f q : DensePolynomial F) :
    Run E (DensePolynomial F) :=
  if 0 < k then do
    let low ← boundPolyVarBot f 0
    let scaled ← scaleML q (r.getD k 0)
    polyAdd low scaled
  else .ok f

/-- The loop of `get_truncated_quotients` from the last variable to the first. -/
def quotientsLoop {E : Type} (r : List F) : ℕ → DensePolynomial F → Run E (List (DensePolynomial F))
  | 0, _ => .ok []
  | k + 1, f => do
      let f0 ← boundPolyVarBot f 0
      let f1 ← boundPolyVarBot f 1
      let q ← polySub f1 f0
      let f ← nextTable r k f q
      let quotients ← quotientsLoop r k f
      .ok (quotients ++ [q])

/-- `get_truncated_quotients`. -/
def getTruncatedQuotients {E : Type} (p : DensePolynomial F) (r : List F) :
    Run E (List U.Poly) := do
  let quotients ← quotientsLoop r r.length p
  quotients.mapM (multilinearToUnivar U)

/-- `shift`. -/
def shift (p : U.Poly) (shiftDegree : ℕ) : U.Poly :=
  U.fromCoefficientsVec (List.replicate shiftDegree 0 ++ U.coeffs p)

/-- The loop of `shift_and_combine_with_powers` from the polynomial `k` on. -/
def combineLoop {E : Type} (y : F) (numVars : ℕ) : ℕ → F → U.Poly → List U.Poly → Run E U.Poly
  | _, _, coeffs, [] => .ok coeffs
  | k, yPow, coeffs, p :: polys => do
      Run.assert (U.degree p < 2 ^ k)
      Run.assert (2 ^ k ≤ 2 ^ numVars)
      let shifted := shift U p (2 ^ numVars - 2 ^ k)
      combineLoop y numVars (k + 1) (yPow * y) (U.add coeffs (U.scale shifted yPow)) polys

/-- `shift_and_combine_with_powers`. -/
def shiftAndCombineWithPowers {E : Type} (polys : List U.Poly) (y : F) (numVars : ℕ) :
    Run E U.Poly :=
  combineLoop U y numVars 0 1 (U.fromCoefficientsVec (List.replicate (2 ^ numVars) 0)) polys

/-- `quotient_univar_by_linear_factor`. -/
def quotientUnivarByLinearFactor (p : U.Poly) (r : F) : U.Poly :=
  U.fromCoefficientsVec (ruffini r ((U.coeffs p).drop 1)).1

variable [DecidableEq F]

/-- `a / b` in a field, which panics for zero. -/
def fieldDiv {E : Type} (a b : F) : Run E F := do
  Run.assert (b ≠ 0)
  .ok (a / b)

/-- `eval_generalized_cyclotomic_polynomial`. -/
def evalGeneralizedCyclotomicPolynomial {E : Type} (n k : ℕ) (x : F) : Run E F :=
  -- `x_pow` and `x_2_k`
  let powers := (List.range n).foldl
    (fun (xPow, x2k) i => (xPow * xPow, if i + 1 = k then xPow * xPow else x2k)) (x, x)
  fieldDiv (powers.1 - 1) (powers.2 - 1)

/-- The loop of `get_Zx_coefficients` from the variable `k` on. -/
def zxLoop {E : Type} (n : ℕ) (x : F) : ℕ → F → List F → Run E (List F)
  | _, _, [] => .ok []
  | k, x2k, u :: evalPoint => do
      let poly0 ← evalGeneralizedCyclotomicPolynomial n k x
      let poly1 ← evalGeneralizedCyclotomicPolynomial n (k + 1) x
      let result ← zxLoop n x (k + 1) (x2k * x2k) evalPoint
      .ok ((x2k * poly1 - u * poly0) :: result)

/-- `get_Zx_coefficients`. -/
def getZxCoefficients {E : Type} (x : F) (evalPoint : List F) : Run E (List F) :=
  zxLoop evalPoint.length x 0 x evalPoint

/-- The loop of `get_zeta_x_coefficients`. -/
def zetaLoop {E : Type} (xMaxPow y : F) : ℕ → F → F → Run E (List F)
  | 0, _, _ => .ok []
  | n + 1, yPow, xPow => do
      let ratio ← fieldDiv xMaxPow xPow
      let result ← zetaLoop xMaxPow y n (yPow * y) (xPow * xPow)
      .ok (yPow * ratio :: result)

/-- `get_zeta_x_coefficients`. -/
def getZetaXCoefficients {E : Type} (x y : F) (numVars : ℕ) : Run E (List F) :=
  let xMaxPow := (List.range numVars).foldl (fun xMaxPow _ => xMaxPow * xMaxPow) x
  zetaLoop xMaxPow y numVars 1 x

end Model

namespace UnivariatePolynomials

variable {F : Type} [Field F] {U : UnivariatePolynomials F}

/-- The coefficients of a polynomial from an index on are zero. -/
def Below (p : U.Poly) (n : ℕ) : Prop := ∀ i, n ≤ i → (U.coeffs p).getD i 0 = 0

/-- The value of a polynomial. -/
def value (p : U.Poly) (t : F) : F := polyValue (U.coeffs p) t

theorem below_length (p : U.Poly) : Below p (U.coeffs p).length :=
  fun _ hi => List.getD_eq_default _ _ hi

variable {p : U.Poly}

theorem Below.mono {m n : ℕ} (h : Below p m) (hmn : m ≤ n) : Below p n :=
  fun i hi => h i (hmn.trans hi)

variable {n : ℕ}

/-- Without a leading zero there are no further coefficients. -/
theorem Below.length_le (h : Below p n) : (U.coeffs p).length ≤ n := by
  by_contra hlt
  have hlast : (U.coeffs p).length - 1 < (U.coeffs p).length := by omega
  have hzero := h ((U.coeffs p).length - 1) (by omega)
  rw [List.getD_eq_getElem _ _ hlast] at hzero
  apply U.leading p
  rw [List.getLast?_eq_getElem?, List.getElem?_eq_getElem hlast, hzero]

theorem Below.degree_lt (h : Below p n) (hn : 0 < n) : U.degree p < n := by
  have hlen := h.length_le
  show (U.coeffs p).length - 1 < n
  omega

theorem value_eq_sum (h : Below p n) (t : F) :
    value p t = ∑ i ∈ Finset.range n, (U.coeffs p).getD i 0 * t ^ i := polyValue_eq_sum h t

theorem below_from {cs : List F} (h : cs.length ≤ n) :
    Below (U.fromCoefficientsVec cs) n := by
  intro i hi
  rw [U.coeff_from, List.getD_eq_default _ _ (h.trans hi)]

theorem Below.add {p q : U.Poly} (hp : Below p n) (hq : Below q n) :
    Below (U.add p q) n := by
  intro i hi
  rw [U.coeff_add, hp i hi, hq i hi, add_zero]

theorem Below.sub {p q : U.Poly} (hp : Below p n) (hq : Below q n) :
    Below (U.sub p q) n := by
  intro i hi
  rw [U.coeff_sub, hp i hi, hq i hi, sub_zero]

theorem Below.scale (hp : Below p n) (c : F) : Below (U.scale p c) n := by
  intro i hi
  rw [U.coeff_scale, hp i hi, zero_mul]

theorem value_from (cs : List F) (t : F) :
    value (U.fromCoefficientsVec cs) t = polyValue cs t := by
  have hcs : ∀ i, cs.length ≤ i → cs.getD i 0 = 0 := fun i hi => List.getD_eq_default _ _ hi
  rw [value_eq_sum (below_from (le_refl cs.length)), polyValue_eq_sum hcs]
  simp only [U.coeff_from]

theorem value_add (p q : U.Poly) (t : F) : value (U.add p q) t = value p t + value q t := by
  let n := max (U.coeffs p).length (U.coeffs q).length
  have hp : Below p n := (below_length p).mono (le_max_left _ _)
  have hq : Below q n := (below_length q).mono (le_max_right _ _)
  rw [value_eq_sum (hp.add hq), value_eq_sum hp, value_eq_sum hq, ← Finset.sum_add_distrib]
  simp only [U.coeff_add, add_mul]

theorem value_sub (p q : U.Poly) (t : F) : value (U.sub p q) t = value p t - value q t := by
  let n := max (U.coeffs p).length (U.coeffs q).length
  have hp : Below p n := (below_length p).mono (le_max_left _ _)
  have hq : Below q n := (below_length q).mono (le_max_right _ _)
  rw [value_eq_sum (hp.sub hq), value_eq_sum hp, value_eq_sum hq, ← Finset.sum_sub_distrib]
  simp only [U.coeff_sub, sub_mul]

theorem value_scale (p : U.Poly) (c t : F) : value (U.scale p c) t = value p t * c := by
  rw [value_eq_sum ((below_length p).scale c), value_eq_sum (below_length p), Finset.sum_mul]
  apply Finset.sum_congr rfl
  intro i _
  rw [U.coeff_scale]
  ring

theorem value_shift (p : U.Poly) (n : ℕ) (t : F) : value (shift U p n) t = t ^ n * value p t := by
  rw [shift, value_from, polyValue_shift]
  rfl

theorem Below.shift {m n k : ℕ} (h : Below p m) (hk : n + m ≤ k) :
    Below (shift U p n) k := by
  apply below_from
  have hlen := h.length_le
  rw [List.length_append, List.length_replicate]
  omega

/-- **The quotient by a linear factor.** -/
theorem quotient_mul (p : U.Poly) (r t : F) :
    (t - r) * value (quotientUnivarByLinearFactor U p r) t = value p t - value p r := by
  rw [quotientUnivarByLinearFactor, value_from, ruffini_mul, value, value]
  cases U.coeffs p with
  | nil => simp [polyValue]
  | cons c cs =>
      rw [List.drop_one, List.tail_cons, polyValue, polyValue]
      ring

theorem Below.quotient (h : Below p (n + 1)) (r : F) :
    Below (quotientUnivarByLinearFactor U p r) n := by
  apply below_from
  have hlen := h.length_le
  rw [length_ruffini, List.length_drop]
  omega

end UnivariatePolynomials

/-! ## Reversed bits and the univariate polynomial of a table -/

theorem reverseBits_top (m x : ℕ) :
    reverseBits (m + 1) x = 2 * reverseBits m x + if x.testBit m then 1 else 0 := by
  induction m generalizing x with
  | zero =>
      rw [reverseBits, reverseBits, Nat.testBit_zero]
      rcases Nat.mod_two_eq_zero_or_one x with h | h
      · simp [h, reverseBits]
      · simp [h, reverseBits]
  | succ m ih =>
      have hbit : (x / 2).testBit m = x.testBit (m + 1) := (Nat.testBit_succ x m).symm
      rw [reverseBits, ih, hbit, reverseBits, pow_succ]
      ring

theorem foldl_reverseNBits {n m : ℕ} (hm : m ≤ n) (x : ℕ) :
    (List.range m).foldl
      (fun result i => if x.testBit i then result ||| 1 <<< (n - 1 - i) else result) 0 =
        2 ^ (n - m) * reverseBits m x := by
  induction m with
  | zero => rfl
  | succ m ih =>
      have hsplit : n - m = n - (m + 1) + 1 := by omega
      have hidx : n - 1 - m = n - (m + 1) := by omega
      rw [List.range_succ, List.foldl_append, ih (by omega), List.foldl_cons, List.foldl_nil,
        reverseBits_top, hidx, hsplit, pow_succ]
      by_cases hbit : x.testBit m
      · have hlt : 2 ^ (n - (m + 1)) < 2 ^ (n - (m + 1) + 1) :=
          Nat.pow_lt_pow_right (by decide) (by omega)
        have hor := Nat.two_pow_add_eq_or_of_lt hlt (reverseBits m x)
        rw [pow_succ] at hor
        rw [if_pos hbit, if_pos hbit, Nat.one_shiftLeft, ← hor]
        ring
      · rw [if_neg hbit, if_neg hbit]
        ring

/-- **`reverse_n_bits`** reverses the lowest bits. -/
theorem reverseNBits_eq (n x : ℕ) : reverseNBits n x = reverseBits n x := by
  rw [reverseNBits, foldl_reverseNBits (le_refl n), Nat.sub_self, pow_zero, one_mul]

theorem reverseBits_injective {n a b : ℕ} (ha : a < 2 ^ n) (hb : b < 2 ^ n)
    (h : reverseBits n a = reverseBits n b) : a = b := by
  induction n generalizing a b with
  | zero => omega
  | succ n ih =>
      have halt := reverseBits_lt n (a / 2)
      have hblt := reverseBits_lt n (b / 2)
      rw [reverseBits, reverseBits] at h
      rw [pow_succ] at ha hb
      have hmod : a % 2 = b % 2 := by
        rcases Nat.mod_two_eq_zero_or_one a with ha' | ha' <;>
          rcases Nat.mod_two_eq_zero_or_one b with hb' | hb' <;>
          rw [ha', hb'] at h ⊢ <;> omega
      rw [hmod] at h
      have hdiv := ih (by omega) (by omega) (Nat.add_left_cancel h)
      omega

section Univar

variable {F : Type} [Field F]

theorem getD_set (l : List F) (i j : ℕ) (a : F) (hi : i < l.length) :
    (l.set i a).getD j 0 = if i = j then a else l.getD j 0 := by
  rw [List.getD_eq_getElem?_getD, List.getD_eq_getElem?_getD, List.getElem?_set]
  by_cases h : i = j
  · subst h
    simp [hi]
  · simp [h]

variable {n : ℕ}

omit [Field F] in
theorem length_foldl_set (l : List (F × ℕ)) (acc : List F) :
    (l.foldl (fun coeffVec (c, i) => coeffVec.set (reverseNBits n i) c) acc).length =
      acc.length := by
  induction l generalizing acc with
  | nil => rfl
  | cons p l ih => rw [List.foldl_cons, ih, List.length_set]

variable {Z : List F}

/-- Every entry is written to its own place. -/
theorem getD_foldl_set {k : ℕ} (hk : k + Z.length ≤ 2 ^ n) {acc : List F}
    (hacc : acc.length = 2 ^ n) {b : ℕ} (hb : b < 2 ^ n) :
    ((Z.zipIdx k).foldl (fun coeffVec (c, i) => coeffVec.set (reverseNBits n i) c) acc).getD
      (reverseBits n b) 0 =
        if k ≤ b ∧ b < k + Z.length then Z.getD (b - k) 0 else acc.getD (reverseBits n b) 0 := by
  induction Z generalizing k acc with
  | nil =>
      have hnone : ¬ (k ≤ b ∧ b < k + ([] : List F).length) := by
        rw [List.length_nil]
        omega
      rw [if_neg hnone]
      rfl
  | cons c Z ih =>
      rw [List.length_cons] at hk
      have hlt : reverseNBits n k < acc.length := by
        rw [reverseNBits_eq, hacc]
        exact reverseBits_lt n k
      have hlen : (acc.set (reverseNBits n k) c).length = 2 ^ n := by rw [List.length_set, hacc]
      rw [List.zipIdx_cons, List.foldl_cons, ih (by omega) hlen, getD_set _ _ _ _ hlt,
        reverseNBits_eq, List.length_cons]
      by_cases hbk : b = k
      · subst hbk
        rw [if_neg (by omega), if_pos rfl, if_pos (by omega), Nat.sub_self, List.getD_cons_zero]
      · have hne : reverseBits n k ≠ reverseBits n b := by
          intro heq
          exact hbk (reverseBits_injective (by omega) hb heq).symm
        rw [if_neg hne]
        by_cases hin : k + 1 ≤ b ∧ b < k + 1 + Z.length
        · have hsub : b - k = b - (k + 1) + 1 := by omega
          rw [if_pos hin, if_pos (by omega), hsub, List.getD_cons_succ]
        · rw [if_neg hin, if_neg (by omega)]

/-- The value of the univariate polynomial of a table. -/
def uniAt (n : ℕ) (Z : List F) (t : F) : F :=
  ∑ b ∈ Finset.range (2 ^ n), Z.getD b 0 * t ^ reverseBits n b

theorem length_univarCoeffs (n : ℕ) (Z : List F) : (univarCoeffs n Z).length = 2 ^ n := by
  rw [univarCoeffs, length_foldl_set, List.length_replicate]

theorem polyValue_univarCoeffs (hZ : Z.length = 2 ^ n) (t : F) :
    polyValue (univarCoeffs n Z) t = uniAt n Z t := by
  have hbelow : ∀ i, 2 ^ n ≤ i → (univarCoeffs n Z).getD i 0 = 0 := by
    intro i hi
    exact List.getD_eq_default _ _ (by rwa [length_univarCoeffs])
  rw [polyValue_eq_sum hbelow, ← sum_reverseBits, uniAt]
  apply Finset.sum_congr rfl
  intro b hb
  rw [Finset.mem_range] at hb
  have hentry := getD_foldl_set (n := n) (Z := Z) (k := 0) (by omega)
    (List.length_replicate (a := (0 : F))) hb
  rw [if_pos (by omega), Nat.sub_zero] at hentry
  rw [univarCoeffs, hentry]

/-- **`multilinear_to_univar`** returns on the tables of the right size. -/
theorem multilinearToUnivar_eq {E : Type} {U : UnivariatePolynomials F} (hZ : Z.length = 2 ^ n) :
    ∃ p : U.Poly, (multilinearToUnivar U ⟨n, Z⟩ : Run E _) = .ok p ∧
      UnivariatePolynomials.Below p (2 ^ n) ∧
        ∀ t, UnivariatePolynomials.value p t = uniAt n Z t := by
  have hbelow : UnivariatePolynomials.Below (U.fromCoefficientsVec (univarCoeffs n Z)) (2 ^ n) :=
    UnivariatePolynomials.below_from (length_univarCoeffs n Z).le
  refine ⟨U.fromCoefficientsVec (univarCoeffs n Z), ?_, hbelow, fun t => ?_⟩
  · exact bind_eq_ok.mpr ⟨(), assert_eq_ok.mpr (hbelow.degree_lt (Nat.two_pow_pos n)), rfl⟩
  · rw [UnivariatePolynomials.value_from, polyValue_univarCoeffs hZ]

theorem uniAt_zero (h : Z.length = 1) (t : F) : uniAt 0 Z t = valueAt Z [] := by
  rw [valueAt_nil h, uniAt, pow_zero, Finset.sum_range_one, reverseBits, pow_zero, mul_one]

/-- The last variable belongs to the highest power. -/
theorem uniAt_succ (h : Z.length = 2 ^ (n + 1)) (t : F) :
    uniAt (n + 1) Z t = uniAt n (boundBot Z 0) t + t ^ 2 ^ n * uniAt n (boundBot Z 1) t := by
  rw [uniAt, sum_range_two_pow, uniAt, uniAt, Finset.mul_sum, ← Finset.sum_add_distrib]
  apply Finset.sum_congr rfl
  intro b hb
  rw [Finset.mem_range] at hb
  rw [getD_boundBot h hb, getD_boundBot h hb, reverseBits_even, reverseBits_odd, pow_add]
  ring

/-- Both values are linear in the table. -/
theorem uniAt_of_entries {Z A B : List F} {c : F}
    (h : ∀ i < 2 ^ n, Z.getD i 0 = A.getD i 0 + c * B.getD i 0) (t : F) :
    uniAt n Z t = uniAt n A t + c * uniAt n B t := by
  rw [uniAt, uniAt, uniAt, Finset.mul_sum, ← Finset.sum_add_distrib]
  apply Finset.sum_congr rfl
  intro b hb
  rw [h b (Finset.mem_range.mp hb)]
  ring

theorem valueAt_of_entries {Z A B : List F} {c : F} (hZ : Z.length = 2 ^ n) (hA : A.length = 2 ^ n)
    (hB : B.length = 2 ^ n) (h : ∀ i < 2 ^ n, Z.getD i 0 = A.getD i 0 + c * B.getD i 0) (w : List F) :
    valueAt Z w = valueAt A w + c * valueAt B w := by
  rw [valueAt, valueAt, valueAt, dotProduct_eq_sum, dotProduct_eq_sum, dotProduct_eq_sum, hZ, hA,
    hB, Finset.mul_sum, ← Finset.sum_add_distrib]
  apply Finset.sum_congr rfl
  intro b hb
  rw [h b (Finset.mem_range.mp hb)]
  ring

/-! ## Quotients -/

/-- `Phi_(n-k)(x^(2^k))` as a product. -/
def cyclotomic (n k : ℕ) (x : F) : F := ∏ i ∈ Finset.Ico k n, (1 + x ^ 2 ^ i)

theorem cyclotomic_self (n : ℕ) (x : F) : cyclotomic n n x = 1 := by
  rw [cyclotomic, Finset.Ico_self, Finset.prod_empty]

theorem cyclotomic_succ {n k : ℕ} (hk : k ≤ n) (x : F) :
    cyclotomic (n + 1) k x = cyclotomic n k x * (1 + x ^ 2 ^ n) :=
  Finset.prod_Ico_succ_top hk _

/-- The products telescope. -/
theorem cyclotomic_mul {n k : ℕ} (hk : k ≤ n) (x : F) :
    (x ^ 2 ^ k - 1) * cyclotomic n k x = x ^ 2 ^ n - 1 := by
  induction n, hk using Nat.le_induction with
  | base => rw [cyclotomic_self, mul_one]
  | succ n hn ih =>
      rw [cyclotomic_succ hn, ← mul_assoc, ih, pow_succ, pow_mul]
      ring

/-- The quotients of a table at a point, one in each number of variables below `k`: as multilinear
polynomials and as univariate ones. -/
structure Quotients (r : List F) (k : ℕ) (Z : List F) (q : ℕ → List F) : Prop where
  sizes : ∀ j < k, (q j).length = 2 ^ j
  multilinear : ∀ w : List F, w.length = k → valueAt Z w = valueAt Z (r.take k) +
    ∑ j ∈ Finset.range k, (w.getD j 0 - r.getD j 0) * valueAt (q j) (w.take j)
  univariate : ∀ t, uniAt k Z t = cyclotomic k 0 t * valueAt Z (r.take k) +
    ∑ j ∈ Finset.range k,
      (t ^ 2 ^ j * cyclotomic k (j + 1) t - r.getD j 0 * cyclotomic k j t) * uniAt j (q j) t

theorem Quotients.zero (r : List F) {Z : List F} (hZ : Z.length = 1) (q : ℕ → List F) :
    Quotients r 0 Z q where
  sizes j hj := absurd hj (Nat.not_lt_zero j)
  multilinear w hw := by
    obtain rfl := List.length_eq_zero_iff.mp hw
    simp
  univariate t := by
    rw [uniAt_zero hZ, cyclotomic_self, one_mul, List.take_zero, Finset.sum_range_zero, add_zero]

/-- The quotient by the last variable. -/
def lastQuotient (Z : List F) (k : ℕ) : List F :=
  (List.range (2 ^ k)).map fun i => (boundBot Z 1).getD i 0 - (boundBot Z 0).getD i 0

/-- The table with its last variable at the point. -/
def lastBound (Z : List F) (k : ℕ) (r : F) : List F :=
  (List.range (2 ^ k)).map fun i =>
    (boundBot Z 0).getD i 0 + ((lastQuotient Z k).map (· * r)).getD i 0

theorem length_lastQuotient (Z : List F) (k : ℕ) : (lastQuotient Z k).length = 2 ^ k := by
  rw [lastQuotient, List.length_map, List.length_range]

theorem length_lastBound (Z : List F) (k : ℕ) (r : F) : (lastBound Z k r).length = 2 ^ k := by
  rw [lastBound, List.length_map, List.length_range]

theorem getD_lastBound (Z : List F) {k i : ℕ} (hi : i < 2 ^ k) (r : F) :
    (lastBound Z k r).getD i 0 = (boundBot Z 0).getD i 0 + r * (lastQuotient Z k).getD i 0 := by
  have hmap : (lastQuotient Z k).map (· * r) = (lastQuotient Z k).map (r * ·) := by
    simp only [mul_comm r]
  rw [lastBound, getD_map_range _ hi, hmap, getD_map_mul]

variable {r : List F} {k : ℕ} {Z : List F}

theorem valueAt_boundBot (hZ : Z.length = 2 ^ (k + 1)) (c : F) (w : List F) :
    valueAt (boundBot Z c) w = valueAt (boundBot Z 0) w + c * valueAt (lastQuotient Z k) w := by
  apply valueAt_of_entries (length_boundBot hZ c) (length_boundBot hZ 0) (length_lastQuotient Z k)
  intro i hi
  rw [lastQuotient, getD_map_range _ hi, getD_boundBot hZ hi, getD_boundBot hZ hi,
    getD_boundBot hZ hi]
  ring

theorem valueAt_lastBound (hZ : Z.length = 2 ^ (k + 1)) (c : F) (w : List F) :
    valueAt (lastBound Z k c) w = valueAt (boundBot Z c) w := by
  rw [valueAt_boundBot hZ]
  exact valueAt_of_entries (length_lastBound Z k c) (length_boundBot hZ 0) (length_lastQuotient Z k)
    (fun i hi => getD_lastBound Z hi c) w

/-- **One step of the quotients**: the last variable is divided out. -/
theorem Quotients.succ {q : ℕ → List F} (hr : k < r.length) (hZ : Z.length = 2 ^ (k + 1))
    (h : Quotients r k (lastBound Z k (r.getD k 0)) q) :
    Quotients r (k + 1) Z fun j => if j = k then lastQuotient Z k else q j := by
  have hnext : ∀ j ∈ Finset.range k, (if j = k then lastQuotient Z k else q j) = q j := by
    intro j hj
    rw [Finset.mem_range] at hj
    rw [if_neg (by omega)]
  have htake : r.take (k + 1) = r.take k ++ [r.getD k 0] := by
    rw [List.take_succ_eq_append_getElem hr, List.getD_eq_getElem _ _ hr]
  have hlen : (r.take k).length = k := by
    rw [List.length_take]
    omega
  have hpoint : valueAt (lastBound Z k (r.getD k 0)) (r.take k) = valueAt Z (r.take (k + 1)) := by
    rw [htake, valueAt_concat (by rw [hlen, hZ]), valueAt_lastBound hZ]
  refine ⟨fun j hj => ?_, fun w hw => ?_, fun t => ?_⟩
  · by_cases hjk : j = k
    · rw [if_pos hjk, hjk, length_lastQuotient]
    · rw [if_neg hjk]
      exact h.sizes j (by omega)
  · -- the point splits into its last entry and the rest
    have hk : k < w.length := by omega
    have hwtake : w = w.take k ++ [w.getD k 0] := by
      have hall := List.take_succ_eq_append_getElem hk
      rw [← hw, List.take_length] at hall
      rwa [List.getD_eq_getElem _ _ hk]
    have hwlen : (w.take k).length = k := by
      rw [List.length_take]
      omega
    have hsplit : valueAt Z w = valueAt (boundBot Z (w.getD k 0)) (w.take k) := by
      conv_lhs => rw [hwtake]
      exact valueAt_concat (by rw [hwlen, hZ]) _
    have hrest : ∀ j ∈ Finset.range k, (w.getD j 0 - r.getD j 0) *
        valueAt (if j = k then lastQuotient Z k else q j) (w.take j) =
          ((w.take k).getD j 0 - r.getD j 0) * valueAt (q j) ((w.take k).take j) := by
      intro j hj
      have hlt := Finset.mem_range.mp hj
      rw [hnext j hj, List.take_take, min_eq_left (by omega)]
      simp only [List.getD_eq_getElem?_getD, List.getElem?_take, if_pos hlt]
    have hih := h.multilinear (w.take k) hwlen
    rw [hpoint, valueAt_lastBound hZ, valueAt_boundBot hZ] at hih
    rw [hsplit, valueAt_boundBot hZ, Finset.sum_range_succ, Finset.sum_congr rfl hrest, if_pos rfl]
    linear_combination hih
  · have hih := h.univariate t
    have hbound : uniAt k (lastBound Z k (r.getD k 0)) t =
        uniAt k (boundBot Z 0) t + r.getD k 0 * uniAt k (lastQuotient Z k) t :=
      uniAt_of_entries (fun i hi => getD_lastBound Z hi _) t
    have hone : uniAt k (boundBot Z 1) t =
        uniAt k (boundBot Z 0) t + 1 * uniAt k (lastQuotient Z k) t := by
      apply uniAt_of_entries
      intro i hi
      rw [lastQuotient, getD_map_range _ hi]
      ring
    have hrest : ∀ j ∈ Finset.range k,
        (t ^ 2 ^ j * cyclotomic (k + 1) (j + 1) t - r.getD j 0 * cyclotomic (k + 1) j t) *
          uniAt j (if j = k then lastQuotient Z k else q j) t =
        (1 + t ^ 2 ^ k) * ((t ^ 2 ^ j * cyclotomic k (j + 1) t - r.getD j 0 * cyclotomic k j t) *
          uniAt j (q j) t) := by
      intro j hj
      have hlt := Finset.mem_range.mp hj
      rw [hnext j hj, cyclotomic_succ (by omega), cyclotomic_succ (by omega)]
      ring
    rw [hbound, hpoint] at hih
    rw [uniAt_succ hZ, hone, cyclotomic_succ (Nat.zero_le k), Finset.sum_range_succ,
      Finset.sum_congr rfl hrest, ← Finset.mul_sum, if_pos rfl, cyclotomic_self,
      cyclotomic_succ (le_refl k), cyclotomic_self]
    linear_combination (1 + t ^ 2 ^ k) * hih

theorem scaleML_eq {E : Type} {k : ℕ} {Z : List F} (hZ : Z.length = 2 ^ k) (c : F) :
    (scaleML ⟨k, Z⟩ c : Run E _) = .ok ⟨k, Z.map (· * c)⟩ :=
  denseNew_eq (by rw [List.length_map, hZ])

/-- **The loop of the quotients** returns them. -/
theorem quotientsLoop_eq {E : Type} (hr : k ≤ r.length) (hZ : Z.length = 2 ^ k) :
    ∃ q : ℕ → List F, (quotientsLoop r k ⟨k, Z⟩ : Run E _) =
      .ok ((List.range k).map fun j => ⟨j, q j⟩) ∧ Quotients r k Z q := by
  induction k generalizing Z with
  | zero => exact ⟨fun _ => [], rfl, Quotients.zero r hZ _⟩
  | succ k ih =>
      have hpos : 0 < k + 1 := k.succ_pos
      have hlow := length_boundBot hZ (0 : F)
      have hbound : ∀ c : F, (boundPolyVarBot ⟨k + 1, Z⟩ c : Run E _) = .ok ⟨k, boundBot Z c⟩ :=
        fun c => boundPolyVarBot_eq hpos c
      have hquotient : (polySub ⟨k, boundBot Z 1⟩ ⟨k, boundBot Z 0⟩ : Run E _) =
          .ok ⟨k, lastQuotient Z k⟩ := by
        have htable : ((List.range (boundBot Z (1 : F)).length).map fun i =>
            (boundBot Z 1).getD i 0 - (boundBot Z 0).getD i 0) = lastQuotient Z k := by
          rw [length_boundBot hZ]
          rfl
        refine bind_eq_ok.mpr ⟨(), assert_eq_ok.mpr rfl, ?_⟩
        show denseNew ((List.range (boundBot Z (1 : F)).length).map _) = _
        rw [htable]
        exact denseNew_eq (length_lastQuotient Z k)
      obtain ⟨q, hloop, hq⟩ := ih (Z := lastBound Z k (r.getD k 0)) (by omega)
        (length_lastBound Z k _)
      have hsucc := Quotients.succ (by omega) hZ hq
      have hlist : (List.range (k + 1)).map
          (fun j => (⟨j, if j = k then lastQuotient Z k else q j⟩ : DensePolynomial F)) =
          (List.range k).map (fun j => ⟨j, q j⟩) ++ [⟨k, lastQuotient Z k⟩] := by
        rw [List.range_succ, List.map_append, List.map_singleton, if_pos rfl]
        congr 1
        apply List.map_congr_left
        intro j hj
        rw [List.mem_range] at hj
        rw [if_neg (by omega)]
      refine ⟨_, ?_, hsucc⟩
      rw [hlist]
      cases k with
      | zero =>
          -- the last round leaves the table as it is
          exact bind_eq_ok.mpr ⟨_, hbound 0, bind_eq_ok.mpr ⟨_, hbound 1, bind_eq_ok.mpr
            ⟨_, hquotient, bind_eq_ok.mpr ⟨_, rfl, rfl⟩⟩⟩⟩
      | succ k =>
          have hadd : (polyAdd ⟨k + 1, boundBot Z 0⟩
              ⟨k + 1, (lastQuotient Z (k + 1)).map (· * r.getD (k + 1) 0)⟩ : Run E _) =
                .ok ⟨k + 1, lastBound Z (k + 1) (r.getD (k + 1) 0)⟩ := by
            have htable : ((List.range (boundBot Z (0 : F)).length).map fun i =>
                (boundBot Z 0).getD i 0 +
                  ((lastQuotient Z (k + 1)).map (· * r.getD (k + 1) 0)).getD i 0) =
                lastBound Z (k + 1) (r.getD (k + 1) 0) := by
              rw [hlow]
              rfl
            refine bind_eq_ok.mpr ⟨(), assert_eq_ok.mpr rfl, ?_⟩
            show denseNew ((List.range (boundBot Z (0 : F)).length).map _) = _
            rw [htable]
            exact denseNew_eq (length_lastBound Z (k + 1) _)
          have hnext : (nextTable r (k + 1) ⟨k + 1 + 1, Z⟩ ⟨k + 1, lastQuotient Z (k + 1)⟩ :
              Run E _) = .ok ⟨k + 1, lastBound Z (k + 1) (r.getD (k + 1) 0)⟩ := by
            rw [nextTable, if_pos k.succ_pos]
            exact bind_eq_ok.mpr ⟨_, hbound 0, bind_eq_ok.mpr
              ⟨_, scaleML_eq (length_lastQuotient Z (k + 1)) _, hadd⟩⟩
          exact bind_eq_ok.mpr ⟨_, hbound 0, bind_eq_ok.mpr ⟨_, hbound 1, bind_eq_ok.mpr
            ⟨_, hquotient, bind_eq_ok.mpr ⟨_, hnext, bind_eq_ok.mpr ⟨_, hloop, rfl⟩⟩⟩⟩⟩

/-! ## Coefficients at the challenges and the combined polynomial -/

variable [DecidableEq F]

/-- Challenges for which the coefficients exist. -/
structure GoodPoint (n : ℕ) (x : F) : Prop where
  ne_zero : x ≠ 0
  ne_one : ∀ k ≤ n, x ^ 2 ^ k ≠ 1

variable {E : Type}

theorem fieldDiv_eq {a b : F} (hb : b ≠ 0) : (fieldDiv a b : Run E F) = .ok (a / b) :=
  bind_eq_ok.mpr ⟨(), assert_eq_ok.mpr hb, rfl⟩

omit [DecidableEq F] in
theorem foldl_square (x : F) (n : ℕ) :
    (List.range n).foldl (fun xMaxPow _ => xMaxPow * xMaxPow) x = x ^ 2 ^ n := by
  induction n with
  | zero => simp
  | succ n ih =>
      rw [List.range_succ, List.foldl_append, ih, List.foldl_cons, List.foldl_nil, pow_succ,
        pow_mul, pow_two]

omit [DecidableEq F] in
/-- The loop of `eval_generalized_cyclotomic_polynomial`. -/
theorem foldl_powers (x : F) (m k : ℕ) :
    (List.range m).foldl
      (fun (xPow, x2k) i => (xPow * xPow, if i + 1 = k then xPow * xPow else x2k)) (x, x) =
        (x ^ 2 ^ m, if k ≤ m then x ^ 2 ^ k else x) := by
  induction m with
  | zero =>
      rw [List.range_zero, List.foldl_nil, pow_zero, pow_one]
      by_cases hk : k ≤ 0
      · obtain rfl : k = 0 := by omega
        simp
      · rw [if_neg hk]
  | succ m ih =>
      have hsquare : x ^ 2 ^ m * x ^ 2 ^ m = x ^ 2 ^ (m + 1) := by rw [pow_succ, pow_mul, pow_two]
      rw [List.range_succ, List.foldl_append, ih, List.foldl_cons, List.foldl_nil]
      dsimp only
      rw [hsquare]
      by_cases hk : m + 1 = k
      · rw [if_pos hk, if_pos (by omega), hk]
      · rw [if_neg hk]
        by_cases hle : k ≤ m
        · rw [if_pos hle, if_pos (by omega)]
        · rw [if_neg hle, if_neg (by omega)]

variable {x : F}

/-- **The cyclotomic polynomial** is evaluated at the good challenges. -/
theorem evalCyclotomic_eq {n k : ℕ} (hk : k ≤ n) (hx : GoodPoint n x) :
    (evalGeneralizedCyclotomicPolynomial n k x : Run E F) = .ok (cyclotomic n k x) := by
  have hne : x ^ 2 ^ k - 1 ≠ 0 := sub_ne_zero.mpr (hx.ne_one k hk)
  have hdiv : (x ^ 2 ^ n - 1) / (x ^ 2 ^ k - 1) = cyclotomic n k x := by
    rw [div_eq_iff hne, ← cyclotomic_mul hk, mul_comm]
  rw [evalGeneralizedCyclotomicPolynomial, foldl_powers, if_pos hk]
  show fieldDiv (x ^ 2 ^ n - 1) (x ^ 2 ^ k - 1) = _
  rw [fieldDiv_eq hne, hdiv]

/-- The coefficient of a quotient in `Z_x`. -/
def zxCoefficient (n : ℕ) (x : F) (u : List F) (k : ℕ) : F :=
  x ^ 2 ^ k * cyclotomic n (k + 1) x - u.getD k 0 * cyclotomic n k x

theorem zxLoop_eq {n : ℕ} (hx : GoodPoint n x) {u : List F} (evalPoint : List F) {k : ℕ}
    (hk : k + evalPoint.length ≤ n)
    (hu : ∀ j < evalPoint.length, evalPoint.getD j 0 = u.getD (k + j) 0) :
    (zxLoop n x k (x ^ 2 ^ k) evalPoint : Run E _) =
      .ok ((List.range' k evalPoint.length).map (zxCoefficient n x u)) := by
  induction evalPoint generalizing k with
  | nil => rfl
  | cons uk evalPoint ih =>
      rw [List.length_cons] at hk hu ⊢
      have hsquare : x ^ 2 ^ k * x ^ 2 ^ k = x ^ 2 ^ (k + 1) := by rw [pow_succ, pow_mul, pow_two]
      have htail : ∀ j < evalPoint.length, evalPoint.getD j 0 = u.getD (k + 1 + j) 0 := by
        intro j hj
        have hnext := hu (j + 1) (by omega)
        rw [List.getD_cons_succ] at hnext
        rw [hnext]
        congr 1
        omega
      have huk : uk = u.getD k 0 := hu 0 (by omega)
      rw [List.range'_succ, List.map_cons, zxCoefficient, ← huk]
      refine bind_eq_ok.mpr ⟨_, evalCyclotomic_eq (by omega) hx, bind_eq_ok.mpr
        ⟨_, evalCyclotomic_eq (by omega) hx, bind_eq_ok.mpr ⟨_, ?_, rfl⟩⟩⟩
      rw [hsquare]
      exact ih (by omega) htail

theorem getZxCoefficients_eq {u : List F} (hx : GoodPoint u.length x) :
    (getZxCoefficients x u : Run E _) =
      .ok ((List.range u.length).map (zxCoefficient u.length x u)) := by
  have hloop := zxLoop_eq (E := E) (k := 0) hx u (u := u) (by omega)
    (fun j _ => by rw [Nat.zero_add])
  rw [pow_zero, pow_one, ← List.range_eq_range'] at hloop
  exact hloop

/-- The coefficient of a quotient in `zeta_x`. -/
def zetaCoefficient (n : ℕ) (x y : F) (k : ℕ) : F := y ^ k * x ^ (2 ^ n - 2 ^ k)

theorem zetaLoop_eq {n : ℕ} (hx : x ≠ 0) (y : F) {m k : ℕ} (hk : k + m ≤ n) :
    (zetaLoop (x ^ 2 ^ n) y m (y ^ k) (x ^ 2 ^ k) : Run E _) =
      .ok ((List.range' k m).map (zetaCoefficient n x y)) := by
  induction m generalizing k with
  | zero => rfl
  | succ m ih =>
      have hpow : x ^ 2 ^ k ≠ 0 := pow_ne_zero _ hx
      have hratio : x ^ 2 ^ n / x ^ 2 ^ k = x ^ (2 ^ n - 2 ^ k) := by
        have hle : 2 ^ k ≤ 2 ^ n := Nat.pow_le_pow_right two_pos (by omega)
        rw [div_eq_iff hpow, ← pow_add, Nat.sub_add_cancel hle]
      have hnext := ih (k := k + 1) (by omega)
      rw [pow_succ y, pow_succ 2, pow_mul, pow_two (x ^ 2 ^ k)] at hnext
      rw [List.range'_succ, List.map_cons, zetaCoefficient, ← hratio]
      exact bind_eq_ok.mpr ⟨_, fieldDiv_eq hpow, bind_eq_ok.mpr ⟨_, hnext, rfl⟩⟩

theorem getZetaXCoefficients_eq {n : ℕ} (hx : x ≠ 0) (y : F) :
    (getZetaXCoefficients x y n : Run E _) = .ok ((List.range n).map (zetaCoefficient n x y)) := by
  have hloop := zetaLoop_eq (E := E) (n := n) hx y (m := n) (k := 0) (by omega)
  rw [pow_zero, pow_zero, pow_one, ← List.range_eq_range'] at hloop
  rw [getZetaXCoefficients, foldl_square]
  exact hloop

end Univar

section Combine

variable {F : Type} [Field F] {U : UnivariatePolynomials F}

open UnivariatePolynomials

theorem combineLoop_eq {E : Type} (y : F) {n : ℕ} {polys : List U.Poly} {k : ℕ}
    (hk : k + polys.length ≤ n)
    (hpolys : ∀ j (hj : j < polys.length), Below (polys[j]) (2 ^ (k + j)))
    {acc : U.Poly} (hacc : Below acc (2 ^ n)) : ∃ p : U.Poly,
      (combineLoop U y n k (y ^ k) acc polys : Run E _) = .ok p ∧ Below p (2 ^ n) ∧
        ∀ t, value p t = value acc t + ((List.range polys.length).map fun j =>
          (polys.map fun q => value q t).getD j 0 * zetaCoefficient n t y (k + j)).sum := by
  induction polys generalizing k acc with
  | nil => exact ⟨acc, rfl, hacc, fun t => (add_zero _).symm⟩
  | cons q polys ih =>
      rw [List.length_cons] at hk
      have hq : Below q (2 ^ k) := hpolys 0 (by simp)
      have hle : 2 ^ k ≤ 2 ^ n := Nat.pow_le_pow_right two_pos (by omega)
      have hshift : Below (U.scale (shift U q (2 ^ n - 2 ^ k)) (y ^ k)) (2 ^ n) :=
        (hq.shift (by omega)).scale _
      have htail : ∀ j (hj : j < polys.length), Below (polys[j]) (2 ^ (k + 1 + j)) := by
        intro j hj
        have hnext := hpolys (j + 1) (by simpa using hj)
        rwa [List.getElem_cons_succ, show k + (j + 1) = k + 1 + j by omega] at hnext
      obtain ⟨p, hp, hbelow, hvalue⟩ := ih (by omega) htail (hacc.add hshift)
      rw [pow_succ] at hp
      refine ⟨p, ?_, hbelow, fun t => ?_⟩
      · exact bind_eq_ok.mpr ⟨(), assert_eq_ok.mpr (hq.degree_lt (Nat.two_pow_pos k)),
          bind_eq_ok.mpr ⟨(), assert_eq_ok.mpr hle, hp⟩⟩
      · rw [hvalue, value_add, value_scale, value_shift, List.length_cons, List.range_succ_eq_map,
          List.map_cons, List.sum_cons, List.map_map, add_assoc]
        congr 2
        · rw [List.map_cons, List.getD_cons_zero, zetaCoefficient, Nat.add_zero]
          ring
        · congr 1
          apply List.map_congr_left
          intro j _
          rw [Function.comp_apply, List.map_cons, List.getD_cons_succ]
          congr 2
          omega

end Combine

end NexusVm.Spartan
