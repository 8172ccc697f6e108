import NexusVm.Nova.Ccs
import NexusVm.Nova.Sumcheck
import Mathlib.Algebra.BigOperators.Intervals

/-!
# Vectors as multilinear extensions of the sumcheck

`vec_to_ark_mle` of `nova/src/ccs/mle.rs`.  The multilinear extensions of the
sumcheck have their first variable at the least significant bit of an index, so
the entries of a vector are put in the order of the reversed bits.
-/

namespace NexusVm.Nova

/-- `i.reverse_bits() >> (usize::BITS - s)`: the `s` lowest bits of `i` reversed. -/
def reverseBits : ℕ → ℕ → ℕ
  | 0, _ => 0
  | s + 1, i => i % 2 * 2 ^ s + reverseBits s (i / 2)

section Model

variable {F : Type} [Field F] (M : MultilinearExtensions F)

/-- The loop over `zp` of `vec_to_ark_mle`. -/
def reversedEvaluations (z : List F) : List F :=
  (List.range (nextPowerOfTwo z.length)).map fun i =>
    let mark := reverseBits (safeLoglike z.length) i
    if mark < z.length then z.getD mark 0 else 0

/-- Converts a vector into a dense mle with the endianness fixed. -/
def vecToArkMle {E : Type} (z : List F) : Run E M.Mle := do
  Run.assert (0 < z.length)
  match M.fromEvaluationsVec (safeLoglike z.length) (reversedEvaluations z) with
  | some m => .ok m
  | none => .error .panic

/-- `DenseMultilinearExtension::evaluate` asserts the length of the point. -/
def evaluateArk {E : Type} (m : M.Mle) (point : List F) : Run E F := do
  Run.assert (point.length = M.numVars m)
  .ok (M.evaluate m point)

end Model

section Sizes

theorem reverseBits_lt (s i : ℕ) : reverseBits s i < 2 ^ s := by
  induction s generalizing i with
  | zero => exact Nat.one_pos
  | succ s ih =>
      have hrest := ih (i / 2)
      have hbit : i % 2 = 0 ∨ i % 2 = 1 := Nat.mod_two_eq_zero_or_one i
      rw [reverseBits, pow_succ]
      rcases hbit with hbit | hbit
      · rw [hbit]
        omega
      · rw [hbit]
        omega

theorem reverseBits_even (s b : ℕ) : reverseBits (s + 1) (2 * b) = reverseBits s b := by
  have hmod : 2 * b % 2 = 0 := by omega
  have hdiv : 2 * b / 2 = b := by omega
  rw [reverseBits, hmod, hdiv, zero_mul, zero_add]

theorem reverseBits_odd (s b : ℕ) :
    reverseBits (s + 1) (2 * b + 1) = 2 ^ s + reverseBits s b := by
  have hmod : (2 * b + 1) % 2 = 1 := by omega
  have hdiv : (2 * b + 1) / 2 = b := by omega
  rw [reverseBits, hmod, hdiv, one_mul]

theorem two_pow_safeLoglike {n : ℕ} (h : 2 ≤ n) : 2 ^ safeLoglike n = nextPowerOfTwo n := by
  have hlt : ¬ n < 1 := by omega
  have hle : ¬ n ≤ 1 := by omega
  rw [safeLoglike, nextPowerOfTwo, if_neg hlt, if_neg hle]

theorem mleVars_eq_safeLoglike {n : ℕ} (h : 2 ≤ n) : mleVars n = safeLoglike n := by
  rw [mleVars, ← two_pow_safeLoglike h, Nat.log2_two_pow]

theorem safeLoglike_pos {n : ℕ} (h : 0 < n) : 0 < safeLoglike n := by
  have hlt : ¬ n < 1 := by omega
  rw [safeLoglike, if_neg hlt]
  exact Nat.succ_pos _

theorem nextPowerOfTwo_two_pow {s : ℕ} (h : 0 < s) : nextPowerOfTwo (2 ^ s) = 2 ^ s := by
  obtain ⟨s, rfl⟩ := Nat.exists_eq_succ_of_ne_zero h.ne'
  have hpos := Nat.two_pow_pos s
  have hpow : 2 ^ (s + 1) = 2 * 2 ^ s := by rw [pow_succ, mul_comm]
  have hle : ¬ 2 ^ (s + 1) ≤ 1 := by omega
  have hlog : Nat.log2 (2 ^ (s + 1) - 1) = s := by
    have hne : 2 ^ (s + 1) - 1 ≠ 0 := by omega
    rw [Nat.log2_eq_iff hne]
    omega
  rw [Nat.succ_eq_add_one, nextPowerOfTwo, if_neg hle, hlog]

theorem safeLoglike_two_pow {s : ℕ} (h : 0 < s) : safeLoglike (2 ^ s) = s := by
  have htwo : 2 ≤ 2 ^ s := by
    calc
      2 = 2 ^ 1 := (pow_one 2).symm
      _ ≤ 2 ^ s := Nat.pow_le_pow_right (by decide) h
  have hpow := two_pow_safeLoglike htwo
  rw [nextPowerOfTwo_two_pow h] at hpow
  exact Nat.pow_right_injective (le_refl 2) hpow

end Sizes

/-! ## Values -/

section Values

variable {F : Type} [Field F] {M : MultilinearExtensions F}

/-- A multilinear extension of a vector of `2 ^ s` entries. -/
structure Extends (M : MultilinearExtensions F) (m : M.Mle) (s : ℕ) (w : List F) : Prop where
  length : w.length = 2 ^ s
  numVars : M.numVars m = s
  index : ∀ b < 2 ^ s, M.index m b = w.getD (reverseBits s b) 0

variable {E : Type} {m : M.Mle} {z : List F}

theorem vecToArkMle_eq_ok :
    (vecToArkMle M z : Run E M.Mle) = .ok m ↔
      0 < z.length ∧
        M.fromEvaluationsVec (safeLoglike z.length) (reversedEvaluations z) = some m := by
  rw [vecToArkMle, bind_eq_ok]
  simp only [assert_eq_ok, exists_const]
  cases M.fromEvaluationsVec (safeLoglike z.length) (reversedEvaluations z) with
  | none => simp
  | some m' => simp

theorem length_reversedEvaluations (z : List F) :
    (reversedEvaluations z).length = nextPowerOfTwo z.length := by
  rw [reversedEvaluations, List.length_map, List.length_range]

/-- Only vectors of at least two entries are extended: for one entry the number
of variables does not fit. -/
theorem exists_vecToArkMle :
    (∃ m, (vecToArkMle M z : Run E M.Mle) = .ok m) ↔ 2 ≤ z.length := by
  simp only [vecToArkMle_eq_ok, exists_and_left, ← Option.isSome_iff_exists, M.isSome_from,
    length_reversedEvaluations]
  constructor
  · rintro ⟨hpos, hlen⟩
    by_contra hlt
    have hone : z.length = 1 := by omega
    rw [hone] at hlen
    exact absurd hlen (by decide)
  · intro h
    exact ⟨by omega, (two_pow_safeLoglike h).symm⟩

theorem getD_padTo {n : ℕ} (h : z.length ≤ n) (i : ℕ) :
    (padTo n z).getD i 0 = z.getD i 0 := by
  rw [padTo, List.take_of_length_le h]
  rcases Nat.lt_or_ge i z.length with hi | hi
  · rw [List.getD_append _ _ _ _ hi]
  · rw [List.getD_append_right _ _ _ _ hi, List.getD_eq_default z 0 hi,
      List.getD_eq_getElem?_getD, List.getElem?_getD_replicate_default_eq]

/-- The extension of a vector. -/
theorem extends_vecToArkMle (h : (vecToArkMle M z : Run E M.Mle) = .ok m) :
    Extends M m (safeLoglike z.length) (padTo (nextPowerOfTwo z.length) z) := by
  have hpow := two_pow_safeLoglike (exists_vecToArkMle.mp ⟨m, h⟩)
  obtain ⟨-, hm⟩ := vecToArkMle_eq_ok.mp h
  constructor
  · rw [length_padTo (le_nextPowerOfTwo _), hpow]
  · exact M.numVars_from _ _ _ hm
  · intro b hb
    have hb' : b < (reversedEvaluations z).length := by
      rw [length_reversedEvaluations, ← hpow]
      exact hb
    rw [M.index_from _ _ _ hm b hb, getD_padTo (le_nextPowerOfTwo _),
      List.getD_eq_getElem _ _ hb']
    simp only [reversedEvaluations, List.getElem_map, List.getElem_range]
    split_ifs with hmark
    · rfl
    · rw [List.getD_eq_default _ _ (not_lt.mp hmark)]

/-- Fixing the first variable combines the halves of the vector. -/
theorem Extends.fixVariable {s : ℕ} {w : List F} (h : Extends M m (s + 1) w) (r : F) :
    Extends M (M.fixVariable m r) s (comb (1 - r) r (w.take (2 ^ s)) (w.drop (2 ^ s))) := by
  have hlen : w.length = 2 ^ s + 2 ^ s := by rw [h.length, pow_succ, mul_two]
  have hhalves : (w.take (2 ^ s)).length = (w.drop (2 ^ s)).length := by
    rw [List.length_take, List.length_drop, hlen]
    omega
  constructor
  · rw [length_comb_of_eq hhalves, List.length_take, hlen]
    omega
  · rw [M.numVars_fix, h.numVars, Nat.add_sub_cancel]
  · intro b hb
    have hb' : 2 * b + 1 < 2 ^ M.numVars m := by
      rw [h.numVars, pow_succ]
      omega
    have hlo : M.index m (2 * b) = w.getD (reverseBits s b) 0 := by
      rw [h.index _ (by rw [← h.numVars]; omega), reverseBits_even]
    have hhi : M.index m (2 * b + 1) = w.getD (2 ^ s + reverseBits s b) 0 := by
      rw [h.index _ (by rw [← h.numVars]; exact hb'), reverseBits_odd]
    have htake : (w.take (2 ^ s)).getD (reverseBits s b) 0 = w.getD (reverseBits s b) 0 := by
      simp only [List.getD_eq_getElem?_getD, List.getElem?_take, if_pos (reverseBits_lt s b)]
    have hdrop : (w.drop (2 ^ s)).getD (reverseBits s b) 0 =
        w.getD (2 ^ s + reverseBits s b) 0 := by
      simp only [List.getD_eq_getElem?_getD, List.getElem?_drop]
    rw [M.index_fix m r b hb', hlo, hhi, getD_comb hhalves, htake, hdrop]
    ring

theorem dotProduct_map_right (c : F) (u v : List F) :
    dotProduct u (v.map (c * ·)) = c * dotProduct u v := by
  unfold dotProduct
  induction u generalizing v with
  | nil => simp
  | cons a u ih =>
      cases v with
      | nil => simp
      | cons b v =>
          simp only [List.map_cons, List.zipWith_cons_cons, List.sum_cons, ih]
          ring

theorem dotProduct_comm (u v : List F) : dotProduct u v = dotProduct v u := by
  rw [dotProduct, dotProduct, List.zipWith_comm]
  simp only [mul_comm]

/-- A point's first variable belongs to the halves of the vector. -/
theorem dotProduct_eqEvals_cons {w : List F} {rs : List F} (h : w.length = 2 ^ (rs.length + 1))
    (r : F) :
    dotProduct w (eqEvals (r :: rs)) =
      dotProduct (comb (1 - r) r (w.take (2 ^ rs.length)) (w.drop (2 ^ rs.length)))
        (eqEvals rs) := by
  have hhalves : (w.take (2 ^ rs.length)).length = (w.drop (2 ^ rs.length)).length := by
    rw [List.length_take, List.length_drop, h, pow_succ]
    omega
  have hlen : (w.take (2 ^ rs.length)).length = ((eqEvals rs).map ((1 - r) * ·)).length := by
    rw [List.length_take, List.length_map, length_eqEvals, h, pow_succ]
    omega
  rw [dotProduct_comb hhalves, ← dotProduct_map_right, ← dotProduct_map_right, eqEvals_cons]
  conv_lhs => rw [← List.take_append_drop (2 ^ rs.length) w]
  rw [dotProduct, List.zipWith_append hlen, List.sum_append]
  rfl

/-- A sum over twice as many indices, in pairs. -/
theorem sum_range_two_mul (f : ℕ → F) (n : ℕ) :
    ∑ b ∈ Finset.range (2 * n), f b = ∑ b ∈ Finset.range n, (f (2 * b) + f (2 * b + 1)) := by
  induction n with
  | zero => rfl
  | succ n ih =>
      rw [Nat.mul_succ, Finset.sum_range_succ, Finset.sum_range_succ, ih, Finset.sum_range_succ]
      ring

theorem sum_range_two_pow (f : ℕ → F) (n : ℕ) :
    ∑ b ∈ Finset.range (2 ^ (n + 1)), f b =
      ∑ b ∈ Finset.range (2 ^ n), (f (2 * b) + f (2 * b + 1)) := by
  rw [pow_succ, mul_comm, sum_range_two_mul]

/-- Reversing the bits permutes the indices. -/
theorem sum_reverseBits (f : ℕ → F) (s : ℕ) :
    ∑ b ∈ Finset.range (2 ^ s), f (reverseBits s b) = ∑ b ∈ Finset.range (2 ^ s), f b := by
  induction s generalizing f with
  | zero => rfl
  | succ s ih =>
      have hfirst : ∑ b ∈ Finset.range (2 ^ (s + 1)), f (reverseBits (s + 1) b) =
          ∑ b ∈ Finset.range (2 ^ s), (f (reverseBits s b) + f (2 ^ s + reverseBits s b)) := by
        rw [sum_range_two_pow]
        simp only [reverseBits_even, reverseBits_odd]
      rw [hfirst, ih fun b => f b + f (2 ^ s + b), Finset.sum_add_distrib, pow_succ, mul_two,
        Finset.sum_range_add]

theorem dotProduct_eq_sum (u v : List F) :
    dotProduct u v = ∑ i ∈ Finset.range u.length, u.getD i 0 * v.getD i 0 := by
  unfold dotProduct
  induction u generalizing v with
  | nil => rfl
  | cons a u ih =>
      rw [List.length_cons, Finset.sum_range_succ']
      cases v with
      | nil => simp
      | cons b v =>
          simp only [List.zipWith_cons_cons, List.sum_cons, List.getD_cons_succ,
            List.getD_cons_zero, ih]
          ring

/-- The mle of a vector at a point as a sum over the hypercube. -/
theorem mleAt_eq_sum (h : 2 ≤ z.length) (rs : List F) :
    mleAt z rs = ∑ i ∈ Finset.range (2 ^ safeLoglike z.length),
      z.getD i 0 * (eqEvals rs).getD i 0 := by
  rw [mleAt, dotProduct_eq_sum, length_padTo (le_nextPowerOfTwo _), two_pow_safeLoglike h]
  simp only [getD_padTo (le_nextPowerOfTwo z.length)]

theorem index_vecToArkMle (h : (vecToArkMle M z : Run E M.Mle) = .ok m) {b : ℕ}
    (hb : b < 2 ^ safeLoglike z.length) :
    M.index m b = z.getD (reverseBits (safeLoglike z.length) b) 0 := by
  rw [(extends_vecToArkMle h).index b hb, getD_padTo (le_nextPowerOfTwo _)]

/-- **The extension is evaluated like the vector.** -/
theorem evaluate_eq_dotProduct {w rs : List F} (h : Extends M m rs.length w) :
    M.evaluate m rs = dotProduct w (eqEvals rs) := by
  induction rs generalizing m w with
  | nil =>
      obtain ⟨a, rfl⟩ := List.length_eq_one_iff.mp h.length
      rw [M.evaluate_nil m h.numVars, h.index 0 (Nat.two_pow_pos _)]
      simp [dotProduct, eqEvals, reverseBits]
  | cons r rs ih =>
      rw [M.evaluate_cons m r rs h.numVars, ih (h.fixVariable r), dotProduct_eqEvals_cons h.length]

/-- `vec_to_ark_mle(z).evaluate(rs)` is `vec_to_mle(z).evaluate(rs)`. -/
theorem evaluate_vecToArkMle {z rs : List F} (h : (vecToArkMle M z : Run E M.Mle) = .ok m)
    (hrs : rs.length = safeLoglike z.length) :
    M.evaluate m rs = mleAt z rs := by
  have hext := extends_vecToArkMle h
  rw [← hrs] at hext
  exact evaluate_eq_dotProduct hext

/-- `vec_to_ark_mle(EqPolynomial::new(r).evals())`: only points of at least one
coordinate are extended. -/
theorem exists_eqMle {r : List F} :
    (∃ m, (vecToArkMle M (eqEvals r) : Run E M.Mle) = .ok m) ↔ 0 < r.length := by
  rw [exists_vecToArkMle, length_eqEvals]
  constructor
  · intro h
    by_contra hr
    rw [Nat.eq_zero_of_not_pos hr] at h
    exact absurd h (by decide)
  · intro h
    calc
      2 = 2 ^ 1 := (pow_one 2).symm
      _ ≤ 2 ^ r.length := Nat.pow_le_pow_right (by decide) h

theorem numVars_eqMle {r : List F} (h : (vecToArkMle M (eqEvals r) : Run E M.Mle) = .ok m) :
    M.numVars m = r.length := by
  have hpos : 0 < r.length := exists_eqMle.mp ⟨m, h⟩
  rw [(extends_vecToArkMle h).numVars, length_eqEvals, safeLoglike_two_pow hpos]

/-- Over the hypercube, a vector against the values of `eq` is the vector's mle at the
point. -/
theorem sum_index_mul_eq {z rs : List F} {m eqrs : M.Mle} (hz : 2 ≤ z.length)
    (hrs : rs.length = safeLoglike z.length) (hm : (vecToArkMle M z : Run E M.Mle) = .ok m)
    (heq : (vecToArkMle M (eqEvals rs) : Run E M.Mle) = .ok eqrs) :
    ∑ b ∈ Finset.range (2 ^ safeLoglike z.length), M.index m b * M.index eqrs b =
      mleAt z rs := by
  have hpos : 0 < safeLoglike z.length := safeLoglike_pos (by omega)
  have heqlen : safeLoglike (eqEvals rs).length = safeLoglike z.length := by
    rw [length_eqEvals, hrs, safeLoglike_two_pow hpos]
  rw [mleAt_eq_sum hz, ← sum_reverseBits fun i => z.getD i 0 * (eqEvals rs).getD i 0]
  apply Finset.sum_congr rfl
  intro b hb
  rw [Finset.mem_range] at hb
  have hidx := index_vecToArkMle heq (b := b) (by rw [heqlen]; exact hb)
  rw [heqlen] at hidx
  rw [index_vecToArkMle hm hb, hidx]

/-- The values of `eq` at the point of an index: only the entry there remains. -/
theorem exists_indexPoint {s i : ℕ} (hi : i < 2 ^ s) :
    ∃ r : List F, r.length = s ∧ ∀ k, (eqEvals r).getD k 0 = if k = i then 1 else 0 := by
  induction s generalizing i with
  | zero =>
      refine ⟨[], rfl, fun k => ?_⟩
      obtain rfl : i = 0 := by simpa using hi
      cases k with
      | zero => simp [eqEvals]
      | succ k => simp [eqEvals]
  | succ s ih =>
      rw [pow_succ] at hi
      rcases Nat.lt_or_ge i (2 ^ s) with hlow | hhigh
      · obtain ⟨r, hr, hentries⟩ := ih hlow
        refine ⟨0 :: r, by rw [List.length_cons, hr], fun k => ?_⟩
        have hlen : ((eqEvals r).map ((1 - 0) * ·)).length = 2 ^ s := by
          rw [List.length_map, length_eqEvals, hr]
        rw [eqEvals_cons]
        rcases Nat.lt_or_ge k (2 ^ s) with hk | hk
        · rw [List.getD_append _ _ _ _ (hlen ▸ hk), getD_map_mul, hentries, sub_zero, one_mul]
        · rw [List.getD_append_right _ _ _ _ (hlen ▸ hk), getD_map_mul, zero_mul,
            if_neg (by omega)]
      · obtain ⟨r, hr, hentries⟩ := ih (i := i - 2 ^ s) (by omega)
        refine ⟨1 :: r, by rw [List.length_cons, hr], fun k => ?_⟩
        have hlen : ((eqEvals r).map ((1 - 1) * ·)).length = 2 ^ s := by
          rw [List.length_map, length_eqEvals, hr]
        rw [eqEvals_cons]
        rcases Nat.lt_or_ge k (2 ^ s) with hk | hk
        · rw [List.getD_append _ _ _ _ (hlen ▸ hk), getD_map_mul, sub_self, zero_mul,
            if_neg (by omega)]
        · rw [List.getD_append_right _ _ _ _ (hlen ▸ hk), getD_map_mul, hentries, hlen, one_mul]
          congr 1
          exact propext (by omega)

/-- The entries of a vector are the values of its mle on the hypercube. -/
theorem exists_mleAt_eq_getD {s i : ℕ} (hi : i < 2 ^ s) :
    ∃ r : List F, r.length = s ∧
      ∀ z : List F, 2 ≤ z.length → safeLoglike z.length = s → mleAt z r = z.getD i 0 := by
  obtain ⟨r, hr, hentries⟩ := exists_indexPoint (F := F) hi
  refine ⟨r, hr, fun z hz hs => ?_⟩
  rw [mleAt_eq_sum hz, hs, Finset.sum_eq_single i]
  · rw [hentries, if_pos rfl, mul_one]
  · intro k _ hk
    rw [hentries, if_neg hk, mul_zero]
  · intro hmem
    exact absurd (Finset.mem_range.mpr hi) hmem

/-- The values of `eq` at two points, summed over the hypercube. -/
theorem dotProduct_eqEvals {a b : List F} (h : a.length = b.length) :
    dotProduct (eqEvals a) (eqEvals b) =
      (List.zipWith (fun x y => x * y + (1 - x) * (1 - y)) a b).prod := by
  induction a generalizing b with
  | nil =>
      cases b with
      | nil => simp [dotProduct, eqEvals]
      | cons y b => cases h
  | cons x a ih =>
      cases b with
      | nil => cases h
      | cons y b =>
          have htail : a.length = b.length := Nat.succ.inj h
          have hhead : (eqEvals (x :: a)).length = 2 ^ (b.length + 1) := by
            rw [length_eqEvals, List.length_cons, htail]
          have hsplit : ((eqEvals a).map ((1 - x) * ·)).length = 2 ^ b.length := by
            rw [List.length_map, length_eqEvals, htail]
          have hscaled : ∀ c : F, dotProduct ((eqEvals a).map (c * ·)) (eqEvals b) =
              c * dotProduct (eqEvals a) (eqEvals b) := by
            intro c
            rw [dotProduct_comm, dotProduct_map_right, dotProduct_comm]
          have hhalves : ((eqEvals a).map ((1 - x) * ·)).length =
              ((eqEvals a).map (x * ·)).length := by
            rw [List.length_map, List.length_map]
          rw [dotProduct_eqEvals_cons hhead, eqEvals_cons, ← hsplit, List.take_left, List.drop_left,
            dotProduct_comb hhalves, hscaled, hscaled, ih htail, List.zipWith_cons_cons,
            List.prod_cons]
          ring

end Values

/-! ## Matrix products -/

namespace Ccs

section Matrices

variable {F : Type} [Field F] (M : MultilinearExtensions F)

/-- `vec_to_ark_mle(A.multiply_vec(z))`. -/
def productMle (A : SparseMatrix F) (z : List F) : Run Error M.Mle := do
  let Mz ← A.multiplyVec z
  vecToArkMle M Mz

/-- `vec_to_ark_mle(shape.Ms[j].multiply_vec(z))`. -/
def matrixMle (shape : CCSShape F) (z : List F) (j : ℕ) : Run Error M.Mle :=
  match shape.Ms[j]? with
  | none => .error .panic
  | some A => productMle M A z

variable {M} {shape : CCSShape F}

/-- The product of the matrix `j` with a vector. -/
def matrixProduct (shape : CCSShape F) (z : List F) (j : ℕ) : List F :=
  (shape.Ms.map fun A => A.multiplyVecUnchecked z).getD j []

variable {j : ℕ}

theorem matrixProduct_of_lt (z : List F) (hj : j < shape.numMatrices) :
    ∃ A ∈ shape.Ms, shape.Ms[j]? = some A ∧ matrixProduct shape z j = A.multiplyVecUnchecked z := by
  have hj' : j < shape.Ms.length := by
    rw [shape.matrices]
    exact hj
  refine ⟨shape.Ms[j], List.getElem_mem hj', List.getElem?_eq_getElem hj', ?_⟩
  rw [matrixProduct, List.getD_eq_getElem _ _ (by rw [List.length_map]; exact hj'),
    List.getElem_map]

theorem length_matrixProduct (z : List F) (hj : j < shape.numMatrices) :
    (matrixProduct shape z j).length = shape.numConstraints := by
  obtain ⟨A, hA, -, heq⟩ := matrixProduct_of_lt z hj
  rw [heq, SparseMatrix.length_multiplyVecUnchecked (shape.dims A hA)]

variable {m : M.Mle} {z : List F}

theorem productMle_eq_ok {A : SparseMatrix F} (hA : A ∈ shape.Ms) :
    productMle M A z = .ok m ↔ z.length = shape.numIo + shape.numVars ∧
      (vecToArkMle M (A.multiplyVecUnchecked z) : Run Error M.Mle) = .ok m := by
  simp only [productMle, bind_eq_ok, SparseMatrix.multiplyVec_eq_ok, (shape.dims A hA).cols]
  constructor
  · rintro ⟨Mz, ⟨hz, rfl⟩, hm⟩
    exact ⟨hz.symm, hm⟩
  · rintro ⟨hz, hm⟩
    exact ⟨_, ⟨hz.symm, rfl⟩, hm⟩

theorem matrixMle_eq_ok (hj : j < shape.numMatrices) :
    matrixMle M shape z j = .ok m ↔ z.length = shape.numIo + shape.numVars ∧
      (vecToArkMle M (matrixProduct shape z j) : Run Error M.Mle) = .ok m := by
  obtain ⟨A, hA, hget, heq⟩ := matrixProduct_of_lt z hj
  rw [matrixMle, hget, heq]
  exact productMle_eq_ok hA

/-- Matrix products have an extension if there are at least two constraints. -/
theorem exists_matrixMle (hj : j < shape.numMatrices) :
    (∃ m, matrixMle M shape z j = .ok m) ↔
      z.length = shape.numIo + shape.numVars ∧ 2 ≤ shape.numConstraints := by
  simp only [matrixMle_eq_ok hj, exists_and_left, exists_vecToArkMle, length_matrixProduct z hj]

theorem numVars_matrixMle (hj : j < shape.numMatrices) (h : matrixMle M shape z j = .ok m) :
    M.numVars m = safeLoglike shape.numConstraints := by
  have hext := extends_vecToArkMle ((matrixMle_eq_ok hj).mp h).2
  rw [hext.numVars, length_matrixProduct z hj]

end Matrices

end Ccs

end NexusVm.Nova
