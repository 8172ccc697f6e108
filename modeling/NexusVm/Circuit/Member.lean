import NexusVm.Circuit.R1cs
import NexusVm.Builder.Fits
import NexusVm.Builder.Bits

/-!
# The selector gadgets

`member` constrains a variable to a set of constants and defines one selector
for each of them.  The rows force the selectors (`member_sound`), and every
member of the set is accepted (`memberBody_holds`).
-/

namespace NexusVm.Circuit

open NexusVm.Builder

variable {F : Type} [Field F]

/-- The constants of a selector: distinct, also as field elements. -/
structure Constants (F : Type) [Field F] (set : List ℕ) : Prop where
  two_le : 2 ≤ set.length
  nodup : set.Nodup
  inj : ∀ a ∈ set, ∀ b ∈ set, (a : F) = b → a = b

section Products

variable {set : List ℕ}

/-- The product of all differences but one. -/
def othersProd (set : List ℕ) (x : F) (i : ℕ) : F :=
  ((set.eraseIdx i).map fun s : ℕ => x - (s : F)).prod

theorem leftProd_zero (x : F) (h : 0 < set.length) :
    leftProd set x 0 = x - (set.getD 0 0 : ℕ) := by
  cases set with
  | nil => simp at h
  | cons s ss => simp [leftProd]

variable {i : ℕ}

theorem leftProd_succ (x : F) (h : i + 1 < set.length) :
    leftProd set x (i + 1) = leftProd set x i * (x - (set.getD (i + 1) 0 : ℕ)) := by
  unfold leftProd
  rw [List.take_add_one, List.getElem?_eq_getElem h]
  simp [h]

theorem rightProd_last (x : F) (h : 0 < set.length) :
    rightProd set x (set.length - 1) = x - (set.getD (set.length - 1) 0 : ℕ) := by
  have hlt : set.length - 1 < set.length := by omega
  unfold rightProd
  rw [List.drop_eq_getElem_cons hlt, show set.length - 1 + 1 = set.length by omega,
    List.drop_length]
  simp [hlt]

theorem rightProd_step (x : F) (h : i < set.length) :
    rightProd set x i = (x - (set.getD i 0 : ℕ)) * rightProd set x (i + 1) := by
  unfold rightProd
  rw [List.drop_eq_getElem_cons h, List.map_cons, List.prod_cons, List.getD_eq_getElem _ _ h]

theorem leftProd_all (x : F) (h : 0 < set.length) :
    leftProd set x (set.length - 1) = (set.map fun s : ℕ => x - (s : F)).prod := by
  unfold leftProd
  rw [show set.length - 1 + 1 = set.length by omega, List.take_length]

theorem rightProd_zero (x : F) : rightProd set x 0 = (set.map fun s : ℕ => x - (s : F)).prod := rfl

/-- The row that defines `cx{i}` multiplies all differences but the one at `i`. -/
theorem othersProd_eq (x : F) (h : i < set.length) (h2 : 2 ≤ set.length) :
    othersProd set x i =
      if i = 0 then rightProd set x 1
      else if i = set.length - 1 then leftProd set x (i - 1)
      else leftProd set x (i - 1) * rightProd set x (i + 1) := by
  unfold othersProd
  rw [List.eraseIdx_eq_take_drop_succ, List.map_append, List.prod_append]
  by_cases h0 : i = 0
  · subst h0
    simp [rightProd]
  · rw [if_neg h0]
    unfold leftProd rightProd
    rw [show i - 1 + 1 = i by omega]
    by_cases hl : i = set.length - 1
    · rw [if_pos hl, List.drop_eq_nil_of_le (by omega)]
      simp
    · rw [if_neg hl]

theorem prod_eq_zero_iff_mem {x : F} :
    (set.map fun s : ℕ => x - (s : F)).prod = 0 ↔ ∃ s ∈ set, x = (s : F) := by
  rw [List.prod_eq_zero_iff, List.mem_map]
  constructor
  · rintro ⟨s, hs, h⟩
    exact ⟨s, hs, by linear_combination h⟩
  · rintro ⟨s, hs, h⟩
    exact ⟨s, hs, by rw [h, sub_self]⟩

variable (hc : Constants F set)
include hc

theorem memberC_eq (h : i < set.length) :
    (memberC set (set.getD i 0) : F) = othersProd set ((set.getD i 0 : ℕ) : F) i := by
  have hne : (fun s => decide (s ≠ set[i])) = fun s => s != set[i] := by
    funext s
    by_cases hs : s = set[i] <;> simp [hs]
  unfold memberC othersProd
  rw [← List.Nodup.erase_getElem hc.nodup i h, hc.nodup.erase_eq_filter,
    List.getD_eq_getElem _ _ h, hne]

theorem memberC_ne_zero {s : ℕ} (hs : s ∈ set) : (memberC set s : F) ≠ 0 := by
  unfold memberC
  rw [Ne, List.prod_eq_zero_iff, List.mem_map]
  rintro ⟨t, ht, hst⟩
  rw [List.mem_filter, decide_eq_true_eq] at ht
  exact ht.2 (hc.inj s hs t ht.1 (by linear_combination hst)).symm

/-- At a member of the set, all but one of the products vanish. -/
theorem othersProd_member {k : ℕ} (hk : k ∈ set) (h : i < set.length) :
    othersProd set (k : F) i = if set.getD i 0 = k then memberC set (set.getD i 0) else 0 := by
  split_ifs with hik
  · rw [memberC_eq hc h, hik]
  · unfold othersProd
    rw [List.prod_eq_zero_iff, List.mem_map]
    have hget : set[i] ≠ k := by simpa [h] using hik
    refine ⟨k, ?_, sub_self _⟩
    rw [← List.Nodup.erase_getElem hc.nodup i h, hc.nodup.mem_erase_iff]
    exact ⟨hget.symm, hk⟩

end Products

/-! ## `member` -/

section Member

variable {σ : Var → F} {name : Var} {set : List ℕ}

/-- The rows of `member` hold exactly if its local variables have their values. -/
theorem memberRows_sat {i : ℕ} (h : i < set.length) (h2 : 2 ≤ set.length) :
    Holds Op.Sat σ (memberRows name set i) ↔
      σ (.xk i) = σ name - (set.getD i 0 : ℕ) ∧
      σ (.l i) = (if i = 0 then 1 else σ (.l (i - 1))) * σ (.xk i) ∧
      σ (.r i) = σ (.xk i) * (if i = set.length - 1 then 1 else σ (.r (i + 1))) ∧
      σ (.cx i) = (if i = 0 then 1 else σ (.l (i - 1))) *
        (if i = set.length - 1 then 1 else σ (.r (i + 1))) ∧
      σ (.is name (set.getD i 0)) = 1 / memberC set (set.getD i 0) * σ (.cx i) := by
  have hx : -((set.getD i 0 : ℕ) : F) + σ name = σ (.xk i) ↔
      σ (.xk i) = σ name - (set.getD i 0 : ℕ) :=
    ⟨fun h => by rw [← h]; ring, fun h => by rw [h]; ring⟩
  by_cases h0 : i = 0
  · subst h0
    have hl : (0 : ℕ) ≠ set.length - 1 := by omega
    simp only [memberRows, holds_cons, holds_nil, and_true, if_true, if_neg hl, Op.Sat, addi, muli,
      mul, lc_cons, lc_nil, Term.eval_put, Term.eval_const, zero_sub, one_mul, mul_one, add_zero,
      hx, eq_comm (b := σ (.l 0)), eq_comm (b := σ (.r 0)), eq_comm (b := σ (.cx 0)),
      eq_comm (b := σ (.is name (set.getD 0 0))), zero_add]
  · by_cases hl : i = set.length - 1
    · simp only [memberRows, holds_cons, holds_nil, and_true, if_neg h0, if_pos hl, Op.Sat, addi,
        muli, mul, lc_cons, lc_nil, Term.eval_put, Term.eval_const, zero_sub, one_mul, mul_one,
        add_zero, hx, eq_comm (b := σ (.l i)), eq_comm (b := σ (.r i)), eq_comm (b := σ (.cx i)),
        eq_comm (b := σ (.is name (set.getD i 0)))]
    · simp only [memberRows, holds_cons, holds_nil, and_true, if_neg h0, if_neg hl, Op.Sat, addi,
        muli, mul, lc_cons, lc_nil, Term.eval_put, Term.eval_const, zero_sub, one_mul, mul_one,
        add_zero, hx, eq_comm (b := σ (.l i)), eq_comm (b := σ (.r i)), eq_comm (b := σ (.cx i)),
        eq_comm (b := σ (.is name (set.getD i 0)))]

/-- The rows determine the local variables. -/
theorem memberRows_locals (h2 : 2 ≤ set.length)
    (hrows : ∀ i < set.length, Holds Op.Sat σ (memberRows name set i)) :
    ∀ i < set.length, σ (.l i) = leftProd set (σ name) i ∧ σ (.r i) = rightProd set (σ name) i ∧
      σ (.cx i) = othersProd set (σ name) i := by
  have hrow := fun i hi => (memberRows_sat hi h2).mp (hrows i hi)
  have hleft : ∀ i < set.length, σ (.l i) = leftProd set (σ name) i := by
    intro i
    induction i with
    | zero =>
        intro hi
        obtain ⟨hx, hl, -⟩ := hrow 0 hi
        rw [hl, hx, leftProd_zero _ hi, if_pos rfl, one_mul]
    | succ i ih =>
        intro hi
        obtain ⟨hx, hl, -⟩ := hrow (i + 1) hi
        rw [hl, hx, leftProd_succ _ hi, if_neg (Nat.succ_ne_zero i), Nat.add_sub_cancel,
          ih (by omega)]
  -- downwards from the last element
  have hright : ∀ d < set.length,
      σ (.r (set.length - 1 - d)) = rightProd set (σ name) (set.length - 1 - d) := by
    intro d
    induction d with
    | zero =>
        intro _
        obtain ⟨hx, -, hr, -⟩ := hrow (set.length - 1) (by omega)
        rw [Nat.sub_zero, hr, hx, rightProd_last _ (by omega), if_pos rfl, mul_one]
    | succ d ih =>
        intro hd
        obtain ⟨hx, -, hr, -⟩ := hrow (set.length - 1 - (d + 1)) (by omega)
        rw [hr, hx, rightProd_step _ (show set.length - 1 - (d + 1) < set.length by omega),
          if_neg (by omega), show set.length - 1 - (d + 1) + 1 = set.length - 1 - d by omega,
          ih (by omega)]
  have hright' : ∀ i < set.length, σ (.r i) = rightProd set (σ name) i := by
    intro i hi
    simpa [show set.length - 1 - (set.length - 1 - i) = i by omega] using
      hright (set.length - 1 - i) (by omega)
  intro i hi
  refine ⟨hleft i hi, hright' i hi, ?_⟩
  obtain ⟨-, -, -, hcx, -⟩ := hrow i hi
  rw [hcx, othersProd_eq _ hi h2]
  by_cases h0 : i = 0
  · subst h0
    rw [if_pos rfl, if_pos rfl, if_neg (by omega), one_mul, hright' 1 (by omega)]
  · rw [if_neg h0, if_neg h0, hleft (i - 1) (by omega)]
    by_cases hl : i = set.length - 1
    · rw [if_pos hl, if_pos hl, mul_one]
    · rw [if_neg hl, if_neg hl, hright' (i + 1) (by omega)]

/-- **Soundness of `member`**: the variable is a member of the set, and each
selector tells whether it is that member. -/
theorem member_sound {wo : Bool} (hwo : wo = false) {kv : ℕ} (hc : Constants F set)
    (h : Holds Op.Sat σ (memberBody wo name kv set)) :
    ∃ k ∈ set, σ name = (k : F) ∧ ∀ s ∈ set, σ (.is name s) = if s = k then 1 else 0 := by
  subst hwo
  simp only [memberBody, Bool.false_eq_true, if_false, holds_append, holds_flatMap, List.mem_range,
    holds_cons] at h
  obtain ⟨-, ⟨-, hlast, -⟩, hrows⟩ := h
  have h2 := hc.two_le
  have hloc := memberRows_locals h2 hrows
  have hprod : (set.map fun s : ℕ => σ name - (s : F)).prod = 0 := by
    rw [← leftProd_all _ (by omega), ← (hloc (set.length - 1) (by omega)).1]
    simpa [eqi, Op.Sat] using hlast
  obtain ⟨k, hk, hname⟩ := prod_eq_zero_iff_mem.mp hprod
  refine ⟨k, hk, hname, fun s hs => ?_⟩
  obtain ⟨i, hi, rfl⟩ := List.getElem_of_mem hs
  obtain ⟨-, -, -, -, his⟩ := (memberRows_sat hi h2).mp (hrows i hi)
  rw [(hloc i hi).2.2, hname, othersProd_member hc hk hi, List.getD_eq_getElem _ _ hi] at his
  rw [his]
  split_ifs with hik
  · exact one_div_mul_cancel (memberC_ne_zero hc hs)
  · exact mul_zero _

/-- What the variables of `member` are when `k` is the member. -/
structure MemberValues (F : Type) [Field F] (set : List ℕ) (name : Var) (k : ℕ) (σ : Var → F) :
    Prop where
  mem : k ∈ set
  value : σ name = (k : F)
  flag : ∀ s ∈ set, σ (.is name s) = if s = k then 1 else 0
  xk : ∀ i < set.length, σ (.xk i) = (k : F) - (set.getD i 0 : ℕ)
  l : ∀ i < set.length, σ (.l i) = leftProd set (k : F) i
  r : ∀ i < set.length, σ (.r i) = rightProd set (k : F) i
  cx : ∀ i < set.length,
    σ (.cx i) = if set.getD i 0 = k then memberC set (set.getD i 0) else 0

theorem MemberValues.rows (hc : Constants F set) {k : ℕ} (h : MemberValues F set name k σ) {i : ℕ}
    (hi : i < set.length) : Holds Op.Sat σ (memberRows name set i) := by
  have h2 := hc.two_le
  refine (memberRows_sat hi h2).mpr ⟨by rw [h.xk i hi, h.value], ?_, ?_, ?_, ?_⟩
  · rw [h.l i hi, h.xk i hi]
    cases i with
    | zero => rw [leftProd_zero _ hi, if_pos rfl, one_mul]
    | succ i =>
        rw [leftProd_succ _ hi, if_neg (Nat.succ_ne_zero i), Nat.add_sub_cancel, h.l i (by omega)]
  · rw [h.r i hi, h.xk i hi]
    by_cases hl : i = set.length - 1
    · rw [if_pos hl, hl, rightProd_last _ (by omega), mul_one]
    · rw [if_neg hl, rightProd_step _ hi, h.r (i + 1) (by omega)]
  · rw [h.cx i hi, ← othersProd_member hc h.mem hi, othersProd_eq _ hi h2]
    by_cases h0 : i = 0
    · subst h0
      rw [if_pos rfl, if_pos rfl, if_neg (by omega), one_mul, h.r 1 (by omega)]
    · rw [if_neg h0, if_neg h0, h.l (i - 1) (by omega)]
      by_cases hl : i = set.length - 1
      · rw [if_pos hl, if_pos hl, mul_one]
      · rw [if_neg hl, if_neg hl, h.r (i + 1) (by omega)]
  · have hmem : set.getD i 0 ∈ set := by simp [hi]
    rw [h.flag _ hmem, h.cx i hi]
    split_ifs with hik
    · exact (one_div_mul_cancel (memberC_ne_zero hc hmem)).symm
    · exact (mul_zero _).symm

/-- **Completeness of `member`**, for the builder's value `kv` of the variable
or, when all names are exempt, for any other value. -/
theorem memberBody_holds {redo : Var → Bool} {wo : Bool} {k kv : ℕ} (hc : Constants F set)
    (h : MemberValues F set name k σ) (hkv : kv ∈ set)
    (hr : kv = k ∨ ∀ n, redo n = true) :
    Holds (Op.Honest redo) σ (memberBody wo name kv set) := by
  have h2 := hc.two_le
  have hset : Holds (Op.Honest redo) σ (setFieldVar name (kv : F)) ∧
      ∀ i < set.length, Holds (Op.Honest redo) σ (memberWitness name kv set i) := by
    rcases hr with rfl | hr
    · refine ⟨by simp [setFieldVar, Op.Honest, h.value], fun i hi => ?_⟩
      have hmem : set.getD i 0 ∈ set := by simp [hi]
      simp only [memberWitness, setLocalVar, setFieldVar, holds_append, holds_cons, holds_nil,
        Op.Honest, and_true, true_and]
      exact ⟨⟨⟨⟨Or.inr (h.xk i hi).symm, Or.inr (h.l i hi).symm⟩,
        Or.inr (h.r _ (by omega)).symm⟩, Or.inr (h.cx i hi).symm⟩, Or.inr (h.flag _ hmem).symm⟩
    · refine ⟨by simp [setFieldVar, Op.Honest, hr], fun i _ => ?_⟩
      simp [memberWitness, setLocalVar, setFieldVar, Op.Honest, hr]
  have hsat : ∀ op : Op Var F, (∃ a b c, op = .constraint a b c) → op.Sat σ →
      op.Honest redo σ := by
    rintro op ⟨a, b, c, rfl⟩ hop
    exact hop
  have hprod : (set.map fun s : ℕ => (k : F) - (s : F)).prod = 0 :=
    prod_eq_zero_iff_mem.mpr ⟨k, h.mem, rfl⟩
  have hcheck : (set.contains kv) = true := by simpa using hkv
  simp only [memberBody, holds_append, holds_flatMap, List.mem_range, holds_cons, holds_nil,
    and_true]
  refine ⟨⟨⟨hcheck, hset.1⟩, hset.2⟩, ?_⟩
  cases wo with
  | true => simp
  | false =>
      simp only [Bool.false_eq_true, if_false, holds_append, holds_cons, holds_nil, and_true,
        holds_flatMap, List.mem_range]
      refine ⟨⟨?_, ?_⟩, fun i hi op hop => hsat op ?_ (h.rows hc hi op hop)⟩
      · simp [eqi, Op.Honest, h.r 0 (by omega), rightProd_zero, hprod]
      · simp [eqi, Op.Honest, h.l _ (show set.length - 1 < set.length by omega),
          leftProd_all _ (show 0 < set.length by omega), hprod]
      · simp only [memberRows, List.mem_cons, List.not_mem_nil, or_false] at hop
        rcases hop with rfl | rfl | rfl | rfl | rfl
        · exact ⟨_, _, _, rfl⟩
        · split_ifs <;> exact ⟨_, _, _, rfl⟩
        · split_ifs <;> exact ⟨_, _, _, rfl⟩
        · split_ifs <;> exact ⟨_, _, _, rfl⟩
        · exact ⟨_, _, _, rfl⟩

end Member

end NexusVm.Circuit
