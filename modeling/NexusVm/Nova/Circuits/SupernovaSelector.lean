import NexusVm.Builder.Bits
import NexusVm.Nova.Circuits.SupernovaAugmented

/-!
# The selector of a non-uniform step

`SelectorBits` of `nova/src/circuits/supernova/augmented.rs`, down to the values of its bits: they
are those of one circuit, and `select` and `insert` act on the value of this circuit alone.
-/

namespace NexusVm.Nova.Circuits.Supernova

open Synth

/-- The bits of circuit `k` among `n`. -/
def indicator (n k : ℕ) : List Bool := (List.range n).map fun i => decide (i = k)

theorem length_indicator (n k : ℕ) : (indicator n k).length = n := by
  rw [indicator, List.length_map, List.length_range]

theorem oneHot_indicator {n k : ℕ} (hk : k < n) : OneHot (indicator n k) k := by
  constructor
  · rwa [length_indicator]
  · intro j
    rw [indicator, List.getElem?_map]
    by_cases hj : j < n
    · rw [List.getElem?_range hj, Option.map_some, Option.some_inj, decide_eq_true_eq]
    · rw [List.getElem?_eq_none (by rw [List.length_range]; omega)]
      constructor
      · intro h
        cases h
      · intro h
        omega

theorem OneHot.eq_indicator {bits : List Bool} {k : ℕ} (h : OneHot bits k) :
    bits = indicator bits.length k := by
  apply List.ext_getElem?
  intro j
  by_cases hj : j < bits.length
  · rw [indicator, List.getElem?_map, List.getElem?_range hj, Option.map_some,
      List.getElem?_eq_getElem hj, Option.some_inj]
    have hbit := h.2 j
    rw [List.getElem?_eq_getElem hj, Option.some_inj] at hbit
    rw [Bool.eq_iff_iff, hbit, decide_eq_true_eq]
  · rw [List.getElem?_eq_none (by omega), List.getElem?_eq_none (by rw [length_indicator]; omega)]

section Selection

variable {T : Type} {bits : List Bool} {k : ℕ} {vals : List T}

theorem OneHot.tail {bit : Bool} (h : OneHot (bit :: bits) (k + 1)) : OneHot bits k :=
  ⟨Nat.lt_of_succ_lt_succ h.1, fun j => by
    have hj := h.2 (j + 1)
    rwa [List.getElem?_cons_succ, Nat.add_right_cancel_iff] at hj⟩

/-- Without a bit the value stays. -/
theorem foldl_select_false {entries : List (T × Bool)} (h : ∀ entry ∈ entries, entry.2 = false)
    (val : T) : entries.foldl (fun val v => if v.2 then v.1 else val) val = val := by
  induction entries with
  | nil => rfl
  | cons entry entries ih =>
      rw [List.forall_mem_cons] at h
      rw [List.foldl_cons, h.1, if_neg Bool.false_ne_true, ih h.2]

/-- With one bit the value becomes that of the bit. -/
theorem foldl_select (h : OneHot bits k) (hlen : vals.length = bits.length) (val : T) :
    some ((vals.zip bits).foldl (fun val v => if v.2 then v.1 else val) val) = vals[k]? := by
  induction bits generalizing vals k val with
  | nil => exact absurd h.1 (Nat.not_lt_zero k)
  | cons bit bits ih =>
      cases vals with
      | nil => cases hlen
      | cons v vals =>
          rw [List.zip_cons_cons, List.foldl_cons]
          cases k with
          | zero =>
              obtain rfl : bit = true := Option.some_inj.mp ((h.2 0).mpr rfl)
              rw [if_pos rfl, foldl_select_false, List.getElem?_cons_zero]
              intro entry hentry
              obtain ⟨j, hj⟩ := List.mem_iff_getElem?.mp (List.of_mem_zip hentry).2
              cases hbit : entry.2 with
              | false => rfl
              | true =>
                  rw [hbit] at hj
                  have hzero := (h.2 (j + 1)).mp hj
                  cases hzero
          | succ k =>
              rw [List.getElem?_cons_succ]
              exact ih h.tail (Nat.succ.inj hlen) _

/-- The value of the bit is selected; that of the first bit needs no bit. -/
theorem select_oneHot (h : OneHot bits k) (hlen : vals.length = bits.length) {first : T}
    (hfirst : vals.head? = some first) : some (select bits vals first) = vals[k]? := by
  have hfold := foldl_select h hlen first
  rw [← hfold, select]
  cases bits with
  | nil => rw [List.zip_nil_right, List.drop_nil]
  | cons bit bits =>
      cases vals with
      | nil => cases hfirst
      | cons v vals =>
          obtain rfl := Option.some_inj.mp hfirst
          rw [List.zip_cons_cons, List.drop_one, List.tail_cons, List.foldl_cons, ite_self]

/-- A value is inserted in the place of the bit. -/
theorem insert_oneHot (h : OneHot bits k) (hlen : vals.length = bits.length) (ival : T) :
    insert bits vals ival = vals.set k ival := by
  apply List.ext_getElem?
  intro j
  by_cases hj : j = k
  · have hlt : k < vals.length := hlen ▸ h.1
    subst hj
    rw [List.getElem?_set_self hlt, insert, List.getElem?_zipWith, (h.2 j).mpr rfl,
      List.getElem?_eq_getElem hlt]
    rfl
  · rw [insert_getElem? h hlen ival hj, List.getElem?_set_ne (Ne.symm hj)]

end Selection

/-! ## Constraints -/

section Constraints

variable {F : Type} [Field F]

/-- `SelectorBits::new` on the values of its witnesses: each is a boolean, one is set, and its
number is the program counter. -/
def newSelectorBits (bits : List F) (pc : F) : Synth Unit := do
  bits.forM fun bit => enforce ((1 - bit) * bit = 0)
  enforce (bits.sum * 1 = 1)
  enforce ((bits.zipIdx.map fun bit => bit.1 * (bit.2 : F)).sum = pc)

theorem exists_flags {bits : List F} (h : ∀ bit ∈ bits, (1 - bit) * bit = 0) :
    ∃ bools : List Bool, bits = bools.map Builder.flag := by
  induction bits with
  | nil => exact ⟨[], rfl⟩
  | cons bit bits ih =>
      rw [List.forall_mem_cons] at h
      obtain ⟨bools, rfl⟩ := ih h.2
      rcases mul_eq_zero.mp h.1 with hone | rfl
      · exact ⟨true :: bools, by rw [List.map_cons, ← sub_eq_zero.mp hone, Builder.flag_true]⟩
      · exact ⟨false :: bools, by rw [List.map_cons, Builder.flag_false]⟩

/-- The constraints on bits that are truth values. -/
theorem holds_newSelectorBits_flags {bools : List Bool} {pc : F} :
    (newSelectorBits (bools.map Builder.flag) pc).holds ↔ (selectorBits bools pc).holds := by
  have hboolean : ∀ bit ∈ bools.map Builder.flag, (1 - bit) * bit = (0 : F) := by
    intro bit hbit
    obtain ⟨b, -, rfl⟩ := List.mem_map.mp hbit
    cases b <;> simp
  have hvalue : ((bools.map Builder.flag).zipIdx.map fun bit => bit.1 * (bit.2 : F)) =
      bools.zipIdx.map fun bit => if bit.1 then (bit.2 : F) else 0 := by
    rw [List.zipIdx_map, List.map_map]
    apply List.map_congr_left
    rintro ⟨b, i⟩ _
    cases b <;> simp
  simp only [newSelectorBits, selectorBits, holds_bind, holds_forM, holds_enforce, mul_one, hvalue]
  exact and_iff_right hboolean

/-- The bits of a circuit satisfy the constraints. -/
theorem holds_indicator {n k : ℕ} (hk : k < n) :
    (selectorBits (indicator n k) (k : F)).holds := by
  have hcount : (indicator n k).count true = 1 := by
    have hmap : (indicator n k).count true = (List.range n).count k := by
      rw [indicator, List.count_eq_countP, List.countP_map, List.count_eq_countP]
      apply List.countP_congr
      intro i _
      simp
    rw [hmap]
    exact List.count_eq_one_of_mem List.nodup_range (List.mem_range.mpr hk)
  obtain ⟨j, hj, hvalue⟩ := exists_oneHot (F := F) hcount
  obtain rfl : k = j := (hj.2 k).mp (((oneHot_indicator hk).2 k).mpr rfl)
  constructor
  · rw [holds_enforce, sum_bits, hcount, Nat.cast_one]
  · rw [holds_enforce, hvalue 0, Nat.zero_add]

/-- **The selector is exact.**  In a field of characteristic at least the number of circuits, its
constraints can be satisfied just for the numbers of circuits; then the bits are those of the
circuit, its value is selected and replaced. -/
theorem selectorBits_exact (c : ℕ) [CharP F c] {n : ℕ} (hc : n ≤ c) (pc : F) :
    ((∃ bits : List F, bits.length = n ∧ (newSelectorBits bits pc).holds) ↔
        ∃ k < n, (k : F) = pc) ∧
      ∀ bits : List F, bits.length = n → (newSelectorBits bits pc).holds →
        ∃ k < n, (k : F) = pc ∧ bits = (indicator n k).map Builder.flag ∧
          ∀ (T : Type) (vals : List T) (first ival : T), vals.length = n →
            vals.head? = some first →
              vals[k]? = some (select (indicator n k) vals first) ∧
                insert (indicator n k) vals ival = vals.set k ival := by
  have hexact : ∀ bits : List F, bits.length = n → (newSelectorBits bits pc).holds →
      ∃ k < n, (k : F) = pc ∧ bits = (indicator n k).map Builder.flag := by
    intro bits hlen h
    obtain ⟨bools, rfl⟩ := exists_flags (holds_forM.mp h.1)
    rw [List.length_map] at hlen
    obtain ⟨k, hbits, hk⟩ :=
      oneHot_of_charP c (hlen.trans_le hc) (holds_newSelectorBits_flags.mp h)
    refine ⟨k, hlen ▸ hbits.1, hk, ?_⟩
    rw [hbits.eq_indicator, hlen]
  constructor
  · constructor
    · rintro ⟨bits, hlen, h⟩
      obtain ⟨k, hlt, hk, -⟩ := hexact bits hlen h
      exact ⟨k, hlt, hk⟩
    · rintro ⟨k, hlt, rfl⟩
      refine ⟨(indicator n k).map Builder.flag, ?_, ?_⟩
      · rw [List.length_map, length_indicator]
      · exact holds_newSelectorBits_flags.mpr (holds_indicator hlt)
  · intro bits hlen h
    obtain ⟨k, hlt, hk, hbits⟩ := hexact bits hlen h
    refine ⟨k, hlt, hk, hbits, fun T vals first ival hvals hfirst => ?_⟩
    have hlenVals : vals.length = (indicator n k).length := hvals.trans (length_indicator n k).symm
    constructor
    · exact (select_oneHot (oneHot_indicator hlt) hlenVals hfirst).symm
    · exact insert_oneHot (oneHot_indicator hlt) hlenVals ival

end Constraints

/-- Three circuits over the field of three elements, the second one selected. -/
theorem selectorBits_exact_three :
    ∃ bits : List (ZMod 3), bits.length = 3 ∧ (newSelectorBits bits 1).holds :=
  haveI : Fact (Nat.Prime 3) := ⟨Nat.prime_three⟩
  (selectorBits_exact 3 (le_refl 3) (1 : ZMod 3)).1.mpr ⟨1, by decide, Nat.cast_one⟩

end NexusVm.Nova.Circuits.Supernova
