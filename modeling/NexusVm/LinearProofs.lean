import Mathlib.Data.List.GetD
import Mathlib.Tactic.Abel
import Mathlib.Tactic.LinearCombination
import Mathlib.Tactic.Module

/-!
# Folded combinations

A product of coefficients and points is folded: each challenge `u` halves both vectors, and the
terms that the halves leave over are sent before the challenge.
-/

namespace NexusVm.LinearProofs

section Combine

variable {F M : Type} [Field F] [AddCommGroup M] [Module F M]

/-- The combination of the entries of `g` with the coefficients `a`. -/
def combine (a : List F) (g : List M) : M := (List.zipWith (· • ·) a g).sum

/-- Two halves, folded into one with the coefficients `x` and `y`. -/
def fold (x y : F) (left right : List M) : List M :=
  List.zipWith (fun l r => x • l + y • r) left right

@[simp] theorem combine_nil (g : List M) : combine ([] : List F) g = 0 := rfl

@[simp] theorem combine_cons (x : F) (a : List F) (m : M) (g : List M) :
    combine (x :: a) (m :: g) = x • m + combine a g := by
  simp [combine]

theorem length_fold (x y : F) {left right : List M} (h : left.length = right.length) :
    (fold x y left right).length = left.length := by
  rw [fold, List.length_zipWith, h, min_self]

theorem combine_append {a : List F} {g : List M} (h : a.length = g.length) (a' : List F)
    (g' : List M) : combine (a ++ a') (g ++ g') = combine a g + combine a' g' := by
  rw [combine, List.zipWith_append h, List.sum_append]
  rfl

theorem combine_map (c : F) (a : List F) (g : List M) :
    combine (a.map (c * ·)) g = c • combine a g := by
  induction a generalizing g with
  | nil => simp
  | cons x a ih =>
      cases g with
      | nil => simp [combine]
      | cons m g => rw [List.map_cons, combine_cons, combine_cons, ih, smul_add, mul_smul]

theorem combine_add_smul {a : List F} {left right : List M} (hl : a.length = left.length)
    (hr : a.length = right.length) (x y : F) :
    combine a (fold x y left right) = x • combine a left + y • combine a right := by
  induction a generalizing left right with
  | nil => simp
  | cons c a ih =>
      obtain ⟨l, left, rfl⟩ := List.exists_of_length_succ left hl.symm
      obtain ⟨r, right, rfl⟩ := List.exists_of_length_succ right hr.symm
      rw [fold, List.zipWith_cons_cons, combine_cons, combine_cons, combine_cons]
      rw [List.length_cons, List.length_cons, Nat.add_right_cancel_iff] at hl hr
      rw [← fold, ih hl hr]
      module

theorem combine_fold_left {a a' : List F} (h : a.length = a'.length) (x y : F) (g : List M) :
    combine (fold x y a a') g = x • combine a g + y • combine a' g := by
  induction a generalizing a' g with
  | nil =>
      obtain rfl := List.length_eq_zero_iff.mp h.symm
      simp [fold]
  | cons c a ih =>
      obtain ⟨c', a', rfl⟩ := List.exists_of_length_succ a' h.symm
      rw [List.length_cons, List.length_cons, Nat.add_right_cancel_iff] at h
      cases g with
      | nil => simp [combine]
      | cons m g =>
          rw [fold, List.zipWith_cons_cons, combine_cons, combine_cons, combine_cons, ← fold, ih h]
          simp only [smul_eq_mul]
          module

/-- **One round**: the product of the folded halves is the product of the whole vectors with the
two terms that the halves leave over. -/
theorem combine_fold {a a' : List F} {g g' : List M} (ha : a.length = a'.length)
    (hg : a.length = g.length) (hg' : a.length = g'.length) {u : F} (hu : u ≠ 0) :
    combine (fold u u⁻¹ a a') (fold u⁻¹ u g g') =
      combine (a ++ a') (g ++ g') + (u * u) • combine a g' + (u⁻¹ * u⁻¹) • combine a' g := by
  rw [combine_fold_left ha, combine_add_smul hg hg', combine_add_smul (ha ▸ hg) (ha ▸ hg'),
    combine_append hg]
  simp only [smul_add, smul_smul, mul_inv_cancel₀ hu, inv_mul_cancel₀ hu]
  module

/-! ## All rounds -/

/-- A vector folded by all challenges. -/
def foldAll : List F → List M → List M
  | [], g => g
  | u :: us, g => foldAll us (fold u⁻¹ u (g.take (g.length / 2)) (g.drop (g.length / 2)))

/-- The coefficients of the folded vector in the whole one. -/
def weights : List F → List F
  | [] => [1]
  | u :: us => (weights us).map (u⁻¹ * ·) ++ (weights us).map (u * ·)

theorem length_weights (us : List F) : (weights us).length = 2 ^ us.length := by
  induction us with
  | nil => rfl
  | cons u us ih => rw [weights, List.length_append, List.length_map, List.length_map, ih,
      List.length_cons, pow_succ, mul_two]

/-- The two halves of a vector. -/
theorem exists_halves {α : Type} {g : List α} {n : ℕ} (h : g.length = 2 ^ (n + 1)) :
    ∃ left right, g = left ++ right ∧ left.length = 2 ^ n ∧ right.length = 2 ^ n := by
  refine ⟨g.take (2 ^ n), g.drop (2 ^ n), (List.take_append_drop _ g).symm, ?_, ?_⟩
  · rw [List.length_take, h, pow_succ]
    omega
  · rw [List.length_drop, h, pow_succ]
    omega

theorem foldAll_append (u : F) (us : List F) {left right : List M}
    (h : left.length = right.length) :
    foldAll (u :: us) (left ++ right) = foldAll us (fold u⁻¹ u left right) := by
  have hhalf : (left ++ right).length / 2 = left.length := by
    rw [List.length_append, ← h]
    omega
  rw [foldAll, hhalf, List.take_left, List.drop_left]

variable {us : List F}

/-- **Folding round by round is one combination.** -/
theorem foldAll_eq_weights {g : List M} (h : g.length = 2 ^ us.length) :
    foldAll us g = [combine (weights us) g] := by
  induction us generalizing g with
  | nil =>
      obtain ⟨m, rfl⟩ := List.length_eq_one_iff.mp h
      simp [foldAll, weights]
  | cons u us ih =>
      obtain ⟨left, right, rfl, hleft, hright⟩ := exists_halves h
      have hlen : left.length = right.length := hleft.trans hright.symm
      have hw := length_weights us
      rw [foldAll_append u us hlen, ih ((length_fold _ _ hlen).trans hleft), weights,
        combine_append (by rw [List.length_map, hw, hleft]), combine_map, combine_map,
        combine_add_smul (hw.trans hleft.symm) (hw.trans hright.symm)]

theorem getD_map_mul (u : F) (w : List F) (i : ℕ) :
    (w.map (u * ·)).getD i 0 = u * w.getD i 0 := by
  have h := List.getD_map (l := w) (n := i) (d := 0) (f := (u * ·))
  rwa [mul_zero] at h

theorem getD_weights_low {u : F} {i : ℕ} (h : i < 2 ^ us.length) :
    (weights (u :: us)).getD i 0 = u⁻¹ * (weights us).getD i 0 := by
  have hlen : i < ((weights us).map (u⁻¹ * ·)).length := by rwa [List.length_map, length_weights]
  rw [weights, List.getD_append _ _ _ _ hlen, getD_map_mul]

theorem getD_weights_high {u : F} {i : ℕ} (h : 2 ^ us.length ≤ i) :
    (weights (u :: us)).getD i 0 = u * (weights us).getD (i - 2 ^ us.length) 0 := by
  have hlen : ((weights us).map (u⁻¹ * ·)).length = 2 ^ us.length := by
    rw [List.length_map, length_weights]
  rw [weights, List.getD_append_right _ _ _ _ (hlen ▸ h), getD_map_mul, hlen]

/-- The first weight is the product of the inverses. -/
theorem getD_weights_zero (us : List F) : (weights us).getD 0 0 = (us.map (·⁻¹)).prod := by
  induction us with
  | nil => rfl
  | cons u us ih =>
      rw [getD_weights_low (Nat.two_pow_pos _), ih, List.map_cons, List.prod_cons]

/-- **Doubling**: a weight is the weight without the top bit of its index, times the square of the
challenge of that bit. -/
theorem getD_weights (hus : ∀ u ∈ us, u ≠ 0) {i : ℕ} (hpos : 0 < i) (hi : i < 2 ^ us.length) :
    (weights us).getD i 0 =
      (weights us).getD (i - 2 ^ Nat.log2 i) 0 *
        (us.getD (us.length - 1 - Nat.log2 i) 0 * us.getD (us.length - 1 - Nat.log2 i) 0) := by
  induction us generalizing i with
  | nil =>
      rw [List.length_nil, pow_zero] at hi
      omega
  | cons u us ih =>
      rw [List.forall_mem_cons] at hus
      rcases Nat.lt_or_ge i (2 ^ us.length) with hlow | hhigh
      · have hlog : Nat.log2 i < us.length := (Nat.log2_lt (by omega)).mpr hlow
        have hidx : (u :: us).length - 1 - Nat.log2 i = us.length - 1 - Nat.log2 i + 1 := by
          rw [List.length_cons]
          omega
        rw [getD_weights_low hlow, getD_weights_low ((Nat.sub_le _ _).trans_lt hlow), hidx,
          List.getD_cons_succ, ih hus.2 hpos hlow, mul_assoc]
      · have hlog : Nat.log2 i = us.length := (Nat.log2_eq_iff (by omega)).mpr ⟨hhigh, hi⟩
        have hsub : i - 2 ^ us.length < 2 ^ us.length := by
          rw [List.length_cons, pow_succ] at hi
          omega
        have hidx : (u :: us).length - 1 - us.length = 0 := by
          rw [List.length_cons]
          omega
        have hone : u⁻¹ * u = 1 := inv_mul_cancel₀ hus.1
        rw [hlog, hidx, List.getD_cons_zero, getD_weights_high hhigh, getD_weights_low hsub]
        linear_combination (-(weights us).getD (i - 2 ^ us.length) 0 * u) * hone

end Combine

end NexusVm.LinearProofs
