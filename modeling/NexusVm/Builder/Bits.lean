import NexusVm.Builder.Program
import NexusVm.Numerals
import Mathlib.Data.Nat.Bitwise
import Mathlib.Tactic.LinearCombination

/-!
# Weighted sums of bits

The sum `b0 + 2 * b1 + 4 * b2 + …` over a field, for the bits of a natural
number and for any list of field elements that are zero or one.
-/

namespace NexusVm.Builder

variable {F : Type} [Field F]

/-- A truth value as a field element. -/
def flag (b : Bool) : F := if b then 1 else 0

@[simp] theorem flag_true : (flag true : F) = 1 := rfl

@[simp] theorem flag_false : (flag false : F) = 0 := rfl

theorem flag_inj {a b : Bool} (h : (flag a : F) = flag b) : a = b := by
  cases a <;> cases b <;> simp at h ⊢

theorem flag_eq_natCast (b : Bool) : (flag b : F) = (b.toNat : ℕ) := by cases b <;> simp

/-- `b0 + 2 * b1 + 4 * b2 + …`. -/
def bitSum : List F → F
  | [] => 0
  | b :: bs => b + 2 * bitSum bs

@[simp] theorem bitSum_nil : bitSum ([] : List F) = 0 := rfl

@[simp] theorem bitSum_cons (b : F) (bs : List F) : bitSum (b :: bs) = b + 2 * bitSum bs := rfl

theorem bitSum_append (xs ys : List F) :
    bitSum (xs ++ ys) = bitSum xs + 2 ^ xs.length * bitSum ys := by
  induction xs with
  | nil => simp
  | cons x xs ih =>
      rw [List.cons_append, bitSum_cons, bitSum_cons, ih, List.length_cons]
      ring

/-- The bits of a number from `start`. -/
theorem bitSum_testBit (n start count : ℕ) :
    bitSum ((List.range' start count).map fun i => (flag (n.testBit i) : F)) =
      ((n / 2 ^ start % 2 ^ count : ℕ) : F) := by
  induction count generalizing start with
  | zero => simp [Nat.mod_one]
  | succ count ih =>
      have hsplit : n / 2 ^ start % 2 ^ (count + 1) =
          (n.testBit start).toNat + 2 * (n / 2 ^ (start + 1) % 2 ^ count) := by
        rw [pow_succ', Nat.mod_mul, Nat.testBit_eq_decide_div_mod_eq, pow_succ,
          Nat.div_div_eq_div_mul]
        have hlt := Nat.mod_lt (n / 2 ^ start) (show 0 < 2 by decide)
        by_cases h : n / 2 ^ start % 2 = 1
        · simp [h]
        · have h0 : n / 2 ^ start % 2 = 0 := by omega
          simp [h0]
      rw [List.range'_succ, List.map_cons, bitSum_cons, ih, hsplit, flag_eq_natCast]
      push_cast
      ring

/-- A list of zeros and ones is the list of bits of a number. -/
theorem exists_testBit {bs : List F} (h : ∀ b ∈ bs, b = 0 ∨ b = 1) :
    ∃ n < 2 ^ bs.length, bs = (List.range bs.length).map fun i => flag (n.testBit i) := by
  induction bs with
  | nil => exact ⟨0, by simp, rfl⟩
  | cons b bs ih =>
      obtain ⟨n, hn, hbs⟩ := ih fun b' hb' => h b' (List.mem_cons_of_mem _ hb')
      obtain ⟨v, hv⟩ : ∃ v : Bool, b = flag v := by
        rcases h b (List.mem_cons_self ..) with rfl | rfl
        · exact ⟨false, rfl⟩
        · exact ⟨true, rfl⟩
      refine ⟨v.toNat + 2 * n, ?_, ?_⟩
      · have := Bool.toNat_le v
        rw [List.length_cons, pow_succ]
        omega
      · have hzero : (v.toNat + 2 * n).testBit 0 = v := by cases v <;> simp [Nat.testBit_zero]
        have hsucc : ∀ i, (v.toNat + 2 * n).testBit (i + 1) = n.testBit i := by
          intro i
          rw [Nat.testBit_succ]
          congr 1
          have := Bool.toNat_le v
          omega
        rw [List.length_cons, List.range_succ_eq_map, List.map_cons, List.map_map, hzero, hv]
        simp only [Function.comp_def, hsucc]
        rw [← hbs]

/-- The constraint `(b - 1) * b = 0`. -/
theorem eq_flag_of_mul_eq_zero {b : F} (h : (-1 + b) * b = 0) : b = 0 ∨ b = 1 := by
  rcases mul_eq_zero.mp h with h | h
  · exact Or.inr (by linear_combination h)
  · exact Or.inl h

end NexusVm.Builder
