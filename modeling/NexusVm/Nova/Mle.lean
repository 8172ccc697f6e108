import NexusVm.Nova.Run
import Mathlib.Data.Nat.Log

/-!
# Multilinear extensions

`nova/src/ccs/mle.rs` over `spartan/src/dense_mlpoly.rs`.  The first variable of
a point belongs to the most significant bit of an index.
-/

namespace NexusVm.Nova

/-- `safe_loglike!`. -/
def safeLoglike (x : ℕ) : ℕ := if x < 1 then 0 else Nat.log2 (x - 1) + 1

/-- `usize::next_power_of_two`. -/
def nextPowerOfTwo (n : ℕ) : ℕ := if n ≤ 1 then 1 else 2 ^ (Nat.log2 (n - 1) + 1)

section Eq

variable {F : Type} [Field F]

/-- One round of `EqPolynomial::evals`.  The code goes from the last entry to the
first, so that each is read before it is overwritten. -/
def evalsRound (evals : List F) (r : F) : List F :=
  evals.flatMap fun scalar => [scalar - scalar * r, scalar * r]

/-- `EqPolynomial::evals`. -/
def eqEvals (r : List F) : List F := r.foldl evalsRound [1]

theorem evalsRound_map (c : F) (evals : List F) (r : F) :
    evalsRound (evals.map (c * ·)) r = (evalsRound evals r).map (c * ·) := by
  induction evals with
  | nil => rfl
  | cons e evals ih =>
      simp only [evalsRound, List.map_cons, List.flatMap_cons, List.map_append,
        List.map_nil] at ih ⊢
      rw [ih]
      congr 2
      · ring
      · congr 1
        ring

theorem evalsRound_append (es es' : List F) (r : F) :
    evalsRound (es ++ es') r = evalsRound es r ++ evalsRound es' r :=
  List.flatMap_append

theorem foldl_evalsRound_map (c : F) (rs evals : List F) :
    rs.foldl evalsRound (evals.map (c * ·)) = (rs.foldl evalsRound evals).map (c * ·) := by
  induction rs generalizing evals with
  | nil => rfl
  | cons r rs ih => rw [List.foldl_cons, List.foldl_cons, evalsRound_map, ih]

theorem foldl_evalsRound_append (rs es es' : List F) :
    rs.foldl evalsRound (es ++ es') = rs.foldl evalsRound es ++ rs.foldl evalsRound es' := by
  induction rs generalizing es es' with
  | nil => rfl
  | cons r rs ih => rw [List.foldl_cons, List.foldl_cons, List.foldl_cons, evalsRound_append, ih]

/-- The first variable splits the entries in two halves. -/
theorem eqEvals_cons (r : F) (rs : List F) :
    eqEvals (r :: rs) = (eqEvals rs).map ((1 - r) * ·) ++ (eqEvals rs).map (r * ·) := by
  have hround : evalsRound [1] r = [1].map ((1 - r) * ·) ++ [1].map (r * ·) := by
    simp [evalsRound]
  rw [eqEvals, List.foldl_cons, hround, foldl_evalsRound_append, foldl_evalsRound_map,
    foldl_evalsRound_map]
  rfl

theorem length_eqEvals (rs : List F) : (eqEvals rs).length = 2 ^ rs.length := by
  induction rs with
  | nil => rfl
  | cons r rs ih =>
      rw [eqEvals_cons, List.length_append, List.length_map, List.length_map, ih, List.length_cons,
        pow_succ]
      omega

end Eq

/-- The evaluations of a multilinear polynomial. -/
structure DensePolynomial (F : Type) where
  numVars : ℕ
  Z : List F
deriving DecidableEq

section Dense

variable {F : Type} [Field F]

/-- `DenseMultilinearExtension::new`; the length is a power of two. -/
def DensePolynomial.new (Z : List F) : DensePolynomial F := ⟨Nat.log2 Z.length, Z⟩

/-- `Vec::resize`. -/
def padTo (n : ℕ) (z : List F) : List F := z.take n ++ List.replicate (n - z.length) 0

/-- Converts a vector into a dense mle. -/
def vecToMle {E : Type} (z : List F) : Run E (DensePolynomial F) := do
  Run.assert (0 < z.length)
  .ok (.new (padTo (nextPowerOfTwo z.length) z))

/-- `DotProductProofLog::compute_dotproduct` on vectors of one length. -/
def dotProduct (a b : List F) : F := (List.zipWith (· * ·) a b).sum

def DensePolynomial.evaluate {E : Type} (poly : DensePolynomial F) (r : List F) : Run E F := do
  Run.assert (r.length = poly.numVars)
  let chis := eqEvals r
  Run.assert (chis.length = poly.Z.length)
  .ok (dotProduct poly.Z chis)

/-! ## Evaluation of a vector -/

theorem nextPowerOfTwo_eq (n : ℕ) : ∃ k, nextPowerOfTwo n = 2 ^ k := by
  unfold nextPowerOfTwo
  split_ifs
  · exact ⟨0, rfl⟩
  · exact ⟨_, rfl⟩

theorem le_nextPowerOfTwo (n : ℕ) : n ≤ nextPowerOfTwo n := by
  unfold nextPowerOfTwo
  split_ifs with h
  · exact h
  · have := Nat.lt_log2_self (n := n - 1)
    omega

theorem length_padTo {n : ℕ} {z : List F} (h : z.length ≤ n) : (padTo n z).length = n := by
  rw [padTo, List.length_append, List.length_take, List.length_replicate]
  omega

/-- Number of variables of the mle of a vector of `n` entries. -/
def mleVars (n : ℕ) : ℕ := Nat.log2 (nextPowerOfTwo n)

theorem two_pow_mleVars (n : ℕ) : 2 ^ mleVars n = nextPowerOfTwo n := by
  obtain ⟨k, hk⟩ := nextPowerOfTwo_eq n
  rw [mleVars, hk, Nat.log2_two_pow]

/-- The mle of a vector at a point. -/
def mleAt (z r : List F) : F := dotProduct (padTo (nextPowerOfTwo z.length) z) (eqEvals r)

/-- `vec_to_mle(z).evaluate(r)`. -/
def evaluateVec {E : Type} (z r : List F) : Run E F := do
  let poly ← vecToMle z
  poly.evaluate r

theorem evaluateVec_eq_ok {E : Type} {z r : List F} {v : F} :
    (evaluateVec z r : Run E F) = .ok v ↔
      0 < z.length ∧ r.length = mleVars z.length ∧ mleAt z r = v := by
  have hpad : (padTo (nextPowerOfTwo z.length) z).length = nextPowerOfTwo z.length :=
    length_padTo (le_nextPowerOfTwo _)
  simp only [evaluateVec, vecToMle, DensePolynomial.evaluate, bind_eq_ok, assert_eq_ok,
    exists_const, Except.ok.injEq, DensePolynomial.new, hpad, length_eqEvals]
  constructor
  · rintro ⟨poly, ⟨hz, rfl⟩, hr, -, hv⟩
    exact ⟨hz, hr, hv⟩
  · rintro ⟨hz, hr, hv⟩
    refine ⟨_, ⟨hz, rfl⟩, hr, ?_, hv⟩
    rw [hpad, hr, two_pow_mleVars]

variable {u v : List F}

theorem padTo_comb (h : u.length = v.length) (n : ℕ) (x y : F) :
    padTo n (comb x y u v) = comb x y (padTo n u) (padTo n v) := by
  unfold padTo
  rw [comb_append (by simp [h]), length_comb_of_eq h, ← h]
  congr 1
  · exact List.take_zipWith
  · simp [comb]

theorem dotProduct_comb (h : u.length = v.length) (x y : F) (w : List F) :
    dotProduct (comb x y u v) w = x * dotProduct u w + y * dotProduct v w := by
  unfold dotProduct
  induction u generalizing v w with
  | nil =>
      cases v with
      | nil => simp [comb]
      | cons b v => cases h
  | cons a u ih =>
      cases v with
      | nil => cases h
      | cons b v =>
          cases w with
          | nil => simp
          | cons c w =>
              have htail := ih (by simpa using h) w
              simp only [comb, List.zipWith_cons_cons, List.sum_cons] at htail ⊢
              rw [htail]
              ring

/-- The mle at a point is linear in the vector. -/
theorem mleAt_comb (h : u.length = v.length) (x y : F) (r : List F) :
    mleAt (comb x y u v) r = x * mleAt u r + y * mleAt v r := by
  have hpad : (padTo (nextPowerOfTwo u.length) u).length =
      (padTo (nextPowerOfTwo u.length) v).length := by
    rw [length_padTo (le_nextPowerOfTwo _), length_padTo (h ▸ le_nextPowerOfTwo _)]
  rw [mleAt, length_comb_of_eq h, padTo_comb h, dotProduct_comb hpad, mleAt, mleAt, h]

end Dense

end NexusVm.Nova
