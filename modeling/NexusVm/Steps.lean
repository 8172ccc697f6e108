import Mathlib.Algebra.Group.Basic
import Mathlib.Data.Nat.Cast.Defs

/-!
# Indexed steps

Runs of a relation that is told the index of each step, and of a function as a special case.
-/

namespace NexusVm

variable {ι α : Type} [AddCommMonoidWithOne ι]

/-- `m` steps one after the other, the first at index `i`. -/
inductive Steps (R : ι → α → α → Prop) : ι → ℕ → α → α → Prop
  | nil (i : ι) (a : α) : Steps R i 0 a a
  | cons {i : ι} {m : ℕ} {a b d : α} : R i a b → Steps R (i + 1) m b d → Steps R i (m + 1) a d

namespace Steps

variable {R : ι → α → α → Prop} {i : ι} {m k : ℕ} {a b d : α}

theorem single (h : R i a b) : Steps R i 1 a b := cons h (nil _ _)

/-- Runs compose if the second starts at the index where the first ends. -/
theorem append (h : Steps R i m a b) (h' : Steps R (i + m) k b d) : Steps R i (m + k) a d := by
  induction h with
  | nil i a =>
      rw [Nat.cast_zero, add_zero] at h'
      rwa [Nat.zero_add]
  | @cons i m a b c hstep _ ih =>
      rw [Nat.succ_add]
      apply cons hstep
      apply ih
      rwa [add_right_comm, add_assoc, ← Nat.cast_succ]

/-- A run with one more step at its end. -/
theorem snoc (h : Steps R i m a b) (hstep : R (i + m) b d) : Steps R i (m + 1) a d :=
  h.append (single hstep)

end Steps

/-- `m` applications of a function, the first at index `i`. -/
def applyFrom (f : ι → α → α) (i : ι) : ℕ → α → α
  | 0, a => a
  | m + 1, a => f (i + m) (applyFrom f i m a)

/-- The first application, before the others. -/
theorem applyFrom_succ (f : ι → α → α) (i : ι) (m : ℕ) (a : α) :
    applyFrom f i (m + 1) a = applyFrom f (i + 1) m (f i a) := by
  induction m with
  | zero => simp [applyFrom]
  | succ m ih =>
      have hindex : i + ((m + 1 : ℕ) : ι) = i + 1 + m := by
        rw [Nat.cast_succ, add_right_comm, add_assoc]
      rw [applyFrom, ih, hindex]
      rfl

/-- Applications compose. -/
theorem applyFrom_add (f : ι → α → α) (i : ι) (m k : ℕ) (a : α) :
    applyFrom f i (m + k) a = applyFrom f (i + m) k (applyFrom f i m a) := by
  induction k with
  | zero => rfl
  | succ k ih =>
      rw [← Nat.add_assoc, applyFrom, applyFrom, ih, Nat.cast_add, add_assoc]

/-- Each run of a function ends in its value. -/
theorem Steps.eq_applyFrom {R : ι → α → α → Prop} {f : ι → α → α}
    (hR : ∀ i a b, R i a b → b = f i a) {i : ι} {m : ℕ} {a b : α} (h : Steps R i m a b) :
    b = applyFrom f i m a := by
  induction h with
  | nil i a => rfl
  | cons hstep _ ih => rw [ih, hR _ _ _ hstep, applyFrom_succ]

end NexusVm
