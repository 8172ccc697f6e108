import Mathlib.Algebra.BigOperators.Intervals
import Mathlib.Algebra.BigOperators.Ring.Finset
import Mathlib.Data.List.GetD
import Mathlib.Tactic.Ring
import Mathlib.Tactic.LinearCombination

/-!
# Univariate polynomials by their coefficients

Lists of coefficients from the constant one on: values, degrees and the division by a linear
factor.
-/

namespace NexusVm.Univariate

variable {F : Type} [CommRing F]

/-- The value of the polynomial with these coefficients. -/
def polyValue : List F → F → F
  | [], _ => 0
  | c :: cs, t => c + t * polyValue cs t

theorem polyValue_zipWith {as bs : List F} (h : as.length = bs.length) (t : F) :
    polyValue (List.zipWith (· + ·) as bs) t = polyValue as t + polyValue bs t := by
  induction as generalizing bs with
  | nil =>
      cases bs with
      | nil => simp [polyValue]
      | cons b bs => cases h
  | cons a as ih =>
      cases bs with
      | nil => cases h
      | cons b bs =>
          rw [List.zipWith_cons_cons, polyValue, polyValue, polyValue, ih (Nat.succ.inj h)]
          ring

theorem polyValue_replicate_zero (n : ℕ) (t : F) : polyValue (List.replicate n 0) t = 0 := by
  induction n with
  | zero => rfl
  | succ n ih => rw [List.replicate_succ, polyValue, ih, mul_zero, add_zero]

theorem polyValue_one (cs : List F) : polyValue cs 1 = cs.sum := by
  induction cs with
  | nil => rfl
  | cons c cs ih => rw [polyValue, ih, one_mul, List.sum_cons]

theorem polyValue_zero (cs : List F) : polyValue cs 0 = cs.getD 0 0 := by
  cases cs with
  | nil => rfl
  | cons c cs => rw [polyValue, zero_mul, add_zero, List.getD_cons_zero]

/-- Coefficients behind zeros. -/
theorem polyValue_shift (n : ℕ) (cs : List F) (t : F) :
    polyValue (List.replicate n 0 ++ cs) t = t ^ n * polyValue cs t := by
  induction n with
  | zero => simp
  | succ n ih =>
      rw [List.replicate_succ, List.cons_append, polyValue, ih, zero_add, pow_succ]
      ring

/-- **The value as a sum** over any range that holds all coefficients. -/
theorem polyValue_eq_sum {cs : List F} {n : ℕ} (h : ∀ i, n ≤ i → cs.getD i 0 = 0) (t : F) :
    polyValue cs t = ∑ i ∈ Finset.range n, cs.getD i 0 * t ^ i := by
  induction cs generalizing n with
  | nil => simp [polyValue]
  | cons c cs ih =>
      cases n with
      | zero =>
          have hzero : ∀ i, 0 ≤ i → cs.getD i 0 = 0 :=
            fun i _ => List.getD_cons_succ.symm.trans (h (i + 1) (Nat.zero_le _))
          have hc : c = 0 := h 0 (le_refl 0)
          rw [polyValue, ih hzero, hc]
          simp
      | succ n =>
          have htail : ∀ i, n ≤ i → cs.getD i 0 = 0 :=
            fun i hi => List.getD_cons_succ.symm.trans (h (i + 1) (by omega))
          rw [polyValue, ih htail, Finset.sum_range_succ', Finset.mul_sum, add_comm]
          congr 1
          · apply Finset.sum_congr rfl
            intro i _
            rw [List.getD_cons_succ, pow_succ]
            ring
          · rw [List.getD_cons_zero, pow_zero, mul_one]

/-- A function that a polynomial of this degree computes. -/
def PolyOn (degree : ℕ) (f : F → F) : Prop :=
  ∃ cs : List F, cs.length = degree + 1 ∧ ∀ t, f t = polyValue cs t

theorem PolyOn.zero (degree : ℕ) : PolyOn degree fun _ : F => 0 :=
  ⟨List.replicate (degree + 1) 0, List.length_replicate, fun t =>
    (polyValue_replicate_zero _ t).symm⟩

theorem PolyOn.add {degree : ℕ} {f g : F → F} (hf : PolyOn degree f) (hg : PolyOn degree g) :
    PolyOn degree fun t => f t + g t := by
  obtain ⟨as, has, hf⟩ := hf
  obtain ⟨bs, hbs, hg⟩ := hg
  have hlen : as.length = bs.length := has.trans hbs.symm
  refine ⟨List.zipWith (· + ·) as bs, ?_, fun t => ?_⟩
  · rw [List.length_zipWith, hlen, min_self, hbs]
  · show f t + g t = _
    rw [polyValue_zipWith hlen, hf, hg]

/-- **Sums of polynomials** of one degree. -/
theorem PolyOn.sum {degree : ℕ} {f : ℕ → F → F} {n : ℕ} (h : ∀ i < n, PolyOn degree (f i)) :
    PolyOn degree fun t => ∑ i ∈ Finset.range n, f i t := by
  induction n with
  | zero => exact PolyOn.zero degree
  | succ n ih =>
      simp only [Finset.sum_range_succ]
      exact (ih fun i hi => h i (by omega)).add (h n (by omega))

/-- Ruffini's rule: the running values from the last coefficient on, and the last of them. -/
def ruffini (r : F) : List F → List F × F
  | [] => ([], 0)
  | a :: cs =>
      let (res, tmp) := ruffini r cs
      ((tmp * r + a) :: res, tmp * r + a)

theorem length_ruffini (r : F) (cs : List F) : (ruffini r cs).1.length = cs.length := by
  induction cs with
  | nil => rfl
  | cons a cs ih => exact congrArg (· + 1) ih

theorem ruffini_snd (r : F) (cs : List F) : (ruffini r cs).2 = polyValue cs r := by
  induction cs with
  | nil => rfl
  | cons a cs ih =>
      show (ruffini r cs).2 * r + a = _
      rw [ih, polyValue]
      ring

/-- **Ruffini's rule** divides by `t - r`. -/
theorem ruffini_mul (r t : F) (cs : List F) :
    (t - r) * polyValue (ruffini r cs).1 t = t * polyValue cs t - r * polyValue cs r := by
  induction cs with
  | nil => simp [ruffini, polyValue]
  | cons a cs ih =>
      have hhead : (ruffini r (a :: cs)).1 =
          ((ruffini r cs).2 * r + a) :: (ruffini r cs).1 := rfl
      rw [hhead, ruffini_snd, polyValue, polyValue, polyValue]
      linear_combination t * ih

end NexusVm.Univariate
