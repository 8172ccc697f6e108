import NexusVm.Circuit.Member
import NexusVm.Circuit.Slots

/-!
# Words, arrays and registers

What the basic gadgets and the register selectors mean for the values of
names.  `_sound` lemmas read a gadget whose rows are satisfied; `_holds` lemmas
say when its rows are satisfied and its values are those of the names.
-/

namespace NexusVm.Circuit

open NexusVm.Builder

variable {F : Type} [Field F] {σ : Var → F} {redo : Var → Bool}

section Single

theorem view_mem {N : Type} [DecidableEq N] {reads : List N} {σ : N → F} {n : N}
    (h : n ∈ reads) : view reads σ n = σ n := if_pos h

variable {n : Var}

theorem setFieldVar_honest {v : F} :
    Holds (Op.Honest redo) σ (setFieldVar n v) ↔ redo n = true ∨ v = σ n := by
  simp [setFieldVar, Op.Honest]

theorem setLocalVar_honest {reads : List Var} {f : (Var → F) → F} :
    Holds (Op.Honest redo) σ (setLocalVar n reads f) ↔
      redo n = true ∨ f (view reads σ) = σ n := by
  simp [setLocalVar, Op.Honest]

theorem setVar_holds {v : U32} (h : σ n = (v.toNat : F)) :
    Holds (Op.Honest redo) σ (setVar n v) :=
  setFieldVar_honest.mpr (Or.inr h.symm)

theorem setEq_sat {n v : Var} : Holds Op.Sat σ (setEq n v) ↔ σ n = σ v := by
  simp [setEq, Op.Sat, eq_comm]

theorem setEq_holds {n v : Var} (h : σ n = σ v) : Holds (Op.Honest redo) σ (setEq n v) := by
  simp [setEq, Op.Honest, h, view]

theorem setBitFrom_honest {reads : List Var} {q : (Var → F) → Bool} :
    Holds (Op.Honest redo) σ (setBitFrom n reads q) ↔
      (redo n = true ∨ flag (q (view reads σ)) = σ n) ∧ (-1 + σ n) * σ n = 0 := by
  simp [setBitFrom, Op.Honest, flag]

theorem setBit_holds {b v : Bool} (h : σ n = flag v) (hb : b = v ∨ redo n = true) :
    Holds (Op.Honest redo) σ (setBit n b) := by
  refine setBitFrom_honest.mpr ⟨?_, ?_⟩
  · rcases hb with rfl | hr
    · exact Or.inr h.symm
    · exact Or.inl hr
  · rw [h]
    cases v <;> simp

theorem setBit_sat {b : Bool} :
    Holds Op.Sat σ (setBit n b) ↔ (-1 + σ n) * σ n = 0 := by
  simp [setBit, setBitFrom, Op.Sat]

theorem setBit_sound {b : Bool} (h : Holds Op.Sat σ (setBit n b)) :
    σ n = 0 ∨ σ n = 1 :=
  eq_flag_of_mul_eq_zero (setBit_sat.mp h)

end Single

section Rows

theorem lc_powRow (c : F) (ns : List Var) : lc σ (powRow c ns) = c * bitSum (ns.map σ) := by
  induction ns generalizing c with
  | nil => simp [powRow]
  | cons n ns ih =>
      rw [powRow, lc_cons, Term.eval_put, ih, List.map_cons, bitSum_cons]
      ring

theorem lc_bitRow (v : Var) (k : ℕ) :
    lc σ ((List.range k).map fun i => .put (.bit v i) ((2 ^ i : ℕ) : F)) =
      bitSum ((List.range k).map fun i => σ (.bit v i)) := by
  induction k with
  | zero => simp
  | succ k ih =>
      rw [List.range_succ, List.map_append, List.map_append, lc_append, bitSum_append, ih]
      simp

theorem lc_sum (ns : List Var) : lc σ (ns.map fun n => .put n 1) = (ns.map σ).sum := by
  induction ns with
  | nil => simp
  | cons n ns ih => simp [ih]

theorem sumRow_sat {output : Var} {names : List Var} :
    Op.Sat σ (sumRow output names) ↔ σ output = (names.map σ).sum := by
  simp [sumRow, Op.Sat, lc_sum, eq_comm]

theorem sumRow_honest {output : Var} {names : List Var} :
    Op.Honest redo σ (sumRow output names) ↔ σ output = (names.map σ).sum :=
  sumRow_sat

/-- A sum with one nonzero term. -/
theorem sum_map_single {α : Type} [DecidableEq α] {xs : List α} {f : α → F} {k : α}
    (hnd : xs.Nodup) (hk : k ∈ xs) (h : ∀ x ∈ xs, x ≠ k → f x = 0) : (xs.map f).sum = f k := by
  rw [List.sum_map_eq_nsmul_single k f fun x hne hx => h x hx hne,
    List.count_eq_one_of_mem hnd hk, one_smul]

end Rows

section Words

/-- The bit variables of a name hold the low bits of a number. -/
def HasBits (σ : Var → F) (v : Var) (n k : ℕ) : Prop := ∀ i < k, σ (.bit v i) = flag (n.testBit i)

/-- A name and its bit variables hold a 32-bit word. -/
structure IsWord (σ : Var → F) (n : Var) (x : U32) : Prop where
  value : σ n = (x.toNat : F)
  bits : HasBits σ n x.toNat 32

theorem HasBits.sum_names {v : Var} {n k : ℕ} (h : HasBits σ v n k) {start count : ℕ}
    (hk : start + count ≤ k) :
    bitSum ((bitNames v start count).map σ) = ((n / 2 ^ start % 2 ^ count : ℕ) : F) := by
  rw [← bitSum_testBit, bitNames, List.map_map]
  congr 1
  refine List.map_congr_left fun i hi => ?_
  rw [List.mem_range'_1] at hi
  exact h i (by omega)

theorem HasBits.total {v : Var} {n k : ℕ} (h : HasBits σ v n k) (hn : n < 2 ^ k) :
    bitSum ((List.range k).map fun i => σ (.bit v i)) = (n : F) := by
  have hsum := h.sum_names (show 0 + k ≤ k by omega)
  rw [bitNames, ← List.range_eq_range', List.map_map] at hsum
  rw [pow_zero, Nat.div_one, Nat.mod_eq_of_lt hn] at hsum
  exact hsum

theorem IsWord.bit {n : Var} {x : U32} (h : IsWord σ n x) {i : ℕ} (hi : i < 32) :
    σ (.bit n i) = flag (x.getLsbD i) := by
  rw [h.bits i hi, BitVec.testBit_toNat]

/-- Bits that are zero or one are the bits of a number. -/
theorem exists_hasBits {v : Var} {k : ℕ} (h : ∀ i < k, σ (.bit v i) = 0 ∨ σ (.bit v i) = 1) :
    ∃ n < 2 ^ k, HasBits σ v n k := by
  obtain ⟨n, hn, hbits⟩ := exists_testBit (F := F) (by
    show ∀ b ∈ (List.range k).map fun i => σ (.bit v i), b = 0 ∨ b = 1
    intro b hb
    obtain ⟨i, hi, rfl⟩ := List.mem_map.mp hb
    exact h i (List.mem_range.mp hi))
  simp only [List.length_map, List.length_range] at hn hbits
  refine ⟨n, hn, fun i hi => ?_⟩
  exact List.map_inj_left.mp hbits i (List.mem_range.mpr hi)

theorem toBits_sound {n : Var} {v : U32} (h : Holds Op.Sat σ (toBits n v)) :
    ∃ x : U32, IsWord σ n x := by
  simp only [toBits, holds_append, holds_flatMap, List.mem_range, holds_cons, holds_nil,
    and_true] at h
  obtain ⟨⟨-, hbits⟩, hsum⟩ := h
  obtain ⟨m, hm, hx⟩ := exists_hasBits fun i hi => setBit_sound (hbits i hi)
  refine ⟨BitVec.ofNat 32 m, ?_, ?_⟩
  · have hval : σ n = (m : F) := by
      rw [← hx.total hm, ← lc_bitRow]
      simpa [Op.Sat] using hsum.symm
    rw [hval, BitVec.toNat_ofNat, Nat.mod_eq_of_lt hm]
  · rwa [BitVec.toNat_ofNat, Nat.mod_eq_of_lt hm]

theorem toBits_holds {n : Var} {x : U32} (h : IsWord σ n x) :
    Holds (Op.Honest redo) σ (toBits n x) := by
  simp only [toBits, holds_append, holds_flatMap, List.mem_range, holds_cons, holds_nil, and_true]
  refine ⟨⟨setVar_holds h.value, fun i hi => setBit_holds (h.bit hi) (Or.inl rfl)⟩, ?_⟩
  have hsum := h.bits.total x.isLt
  rw [← lc_bitRow] at hsum
  simp only [Op.Honest, hsum, lc_cons, lc_nil, Term.eval_const, Term.eval_put, mul_one, one_mul,
    add_zero, h.value]

end Words

/-! ## Arrays and selection as a gadget of its own -/

section Arrays

variable {input output : Var} {arr : ℕ → Var} {size k : ℕ}

/-- The selectors of `input` choose `k`. -/
def Selects (σ : Var → F) (input : Var) (size k : ℕ) : Prop :=
  k < size ∧ σ input = (k : F) ∧ ∀ i < size, σ (.is input i) = if i = k then 1 else 0

variable {rs : ℕ} {wo : Bool}

theorem loadArray_sound (hwo : wo = false) (hs : Selects σ input size k)
    (h : Holds Op.Sat σ (loadArrayBody wo input output arr size rs)) :
    σ output = σ (arr k) := by
  subst hwo
  simp only [loadArrayBody, Bool.false_eq_true, if_false, holds_append, holds_cons, holds_nil,
    and_true, holds_map, List.mem_range] at h
  obtain ⟨-, hrow, hsum⟩ := h
  obtain ⟨hk, -, his⟩ := hs
  have hrsx : ∀ i < size, σ (.rsx i) = if i = k then σ (arr i) else 0 := by
    intro i hi
    have hi' : σ (.is input i) * σ (arr i) = σ (.rsx i) := by
      simpa [mul, Op.Sat] using hrow i hi
    rw [← hi', his i hi]
    split_ifs <;> simp
  rw [sumRow_sat.mp hsum, List.map_map, sum_map_single (k := k) List.nodup_range
    (List.mem_range.mpr hk)]
  · simp [hrsx k hk]
  · intro i hi hne
    simp [hrsx i (List.mem_range.mp hi), hne]

theorem loadArrayBody_holds (hs : Selects σ input size k)
    (hrsx : ∀ i < size, σ (.rsx i) = if i = k then σ (arr i) else 0) (hout : σ output = σ (arr k))
    (hr : rs = k ∨ ∀ n, redo n = true) :
    Holds (Op.Honest redo) σ (loadArrayBody wo input output arr size rs) := by
  obtain ⟨hk, hin, his⟩ := hs
  have hmem : ∀ i < size, arr i ∈ (List.range size).map arr :=
    fun i hi => List.mem_map.mpr ⟨i, List.mem_range.mpr hi, rfl⟩
  have hset : (redo input = true ∨ (rs : F) = σ input) ∧
      (∀ i < size, redo (.rsx i) = true ∨
        (if i = rs then view [arr i] σ (arr i) else 0) = σ (.rsx i)) ∧
      (redo output = true ∨ view ((List.range size).map arr) σ (arr rs) = σ output) := by
    rcases hr with rfl | hr
    · refine ⟨Or.inr hin.symm, fun i hi => Or.inr ?_, Or.inr ?_⟩
      · rw [hrsx i hi, view_mem (by simp)]
      · rw [hout, view_mem (hmem rs hk)]
    · exact ⟨Or.inl (hr _), fun i _ => Or.inl (hr _), Or.inl (hr _)⟩
  simp only [loadArrayBody, holds_append, setFieldVar_honest, holds_flatMap, List.mem_range,
    setLocalVar_honest, holds_cons, holds_nil, and_true]
  refine ⟨⟨⟨hset.1, hset.2.1⟩, ⟨trivial, hset.2.2⟩⟩, ?_⟩
  cases wo with
  | true => simp
  | false =>
      simp only [Bool.false_eq_true, if_false, holds_append, holds_map, List.mem_range, holds_cons,
        holds_nil, and_true, sumRow_honest, List.map_map]
      refine ⟨fun i hi => ?_, ?_⟩
      · simp only [mul, Op.Honest, lc_cons, lc_nil, Term.eval_put, one_mul, add_zero]
        rw [his i hi, hrsx i hi]
        split_ifs <;> simp
      · rw [hout, sum_map_single (k := k) List.nodup_range (List.mem_range.mpr hk)]
        · simp [hrsx k hk]
        · intro i hi hne
          simp [hrsx i (List.mem_range.mp hi), hne]

/-- **The written registers**: all but `x'0` are determined. -/
theorem storeReg_sound (hwo : wo = false) (hs : Selects σ input 32 k)
    (h : Holds Op.Sat σ (storeRegBody wo input output rs)) {i : ℕ} (h1 : 1 ≤ i) (hi : i < 32) :
    σ (.x' i) = if i = k then σ output else σ (.x i) := by
  subst hwo
  simp only [storeRegBody, Bool.false_eq_true, if_false, holds_append, holds_flatMap] at h
  have hrow := h.2 i (List.mem_range'_1.mpr ⟨h1, by omega⟩)
  simp only [holds_cons, holds_nil, and_true, Op.Sat, mul, add, lc_cons, lc_nil, Term.eval_put,
    Term.eval_const, one_mul, mul_one, add_zero] at hrow
  obtain ⟨hrsx, hz, hx'⟩ := hrow
  rw [hs.2.2 i hi] at hrsx hz
  rw [← hx', ← hrsx, ← hz]
  split_ifs <;> simp

theorem storeRegBody_holds (hs : Selects σ input 32 k)
    (hx' : ∀ i, 1 ≤ i → i < 32 → σ (.x' i) = if i = k then σ output else σ (.x i))
    (hrsx : ∀ i, 1 ≤ i → i < 32 → σ (.rsx i) = if i ≠ k then σ (.x i) else 0)
    (hz : ∀ i, 1 ≤ i → i < 32 → σ (.z i) = if i = k then σ output else 0)
    (hr : rs = k ∨ ∀ n, redo n = true) :
    Holds (Op.Honest redo) σ (storeRegBody wo input output rs) := by
  have hmem : ∀ i ∈ List.range' 1 31, 1 ≤ i ∧ i < 32 := by
    intro i hi
    rw [List.mem_range'_1] at hi
    omega
  have hset : (redo input = true ∨ (rs : F) = σ input) ∧
      ∀ i ∈ List.range' 1 31,
        (redo (.x' i) = true ∨ (if i = rs then σ output else σ (.x i)) = σ (.x' i)) ∧
        (redo (.rsx i) = true ∨ (if i ≠ rs then σ (.x i) else 0) = σ (.rsx i)) ∧
        (redo (.z i) = true ∨ (if i = rs then σ output else 0) = σ (.z i)) := by
    rcases hr with rfl | hr
    · refine ⟨Or.inr hs.2.1.symm, fun i hi => ?_⟩
      obtain ⟨h1, h32⟩ := hmem i hi
      exact ⟨Or.inr (hx' i h1 h32).symm, Or.inr (hrsx i h1 h32).symm, Or.inr (hz i h1 h32).symm⟩
    · exact ⟨Or.inl (hr _), fun i _ => ⟨Or.inl (hr _), Or.inl (hr _), Or.inl (hr _)⟩⟩
  have hv : ∀ i, view [.x i, output] σ output = σ output ∧
      view [.x i, output] σ (.x i) = σ (.x i) ∧ view [.x i] σ (.x i) = σ (.x i) :=
    fun i => ⟨view_mem (by simp), view_mem (by simp), view_mem (by simp)⟩
  have hvo : view [output] σ output = σ output := view_mem (by simp)
  simp only [storeRegBody, holds_append, setFieldVar_honest, holds_flatMap, setLocalVar_honest,
    holds_cons, holds_nil, and_true, Op.Honest, true_and, hv, hvo]
  refine ⟨⟨hset.1, fun i hi => ?_⟩, ?_⟩
  · obtain ⟨hx, hr, hz⟩ := hset.2 i hi
    exact ⟨⟨hx, hr⟩, hz⟩
  cases wo with
  | true => simp
  | false =>
      simp only [Bool.false_eq_true, if_false, holds_flatMap]
      intro i hi
      obtain ⟨h1, h32⟩ := hmem i hi
      simp only [holds_cons, holds_nil, and_true, Op.Honest, mul, add, lc_cons, lc_nil,
        Term.eval_put, Term.eval_const, one_mul, mul_one, add_zero]
      rw [hs.2.2 i h32, hx' i h1 h32, hrsx i h1 h32, hz i h1 h32]
      by_cases hik : i = k <;> simp [hik]

end Arrays

section Selection

variable {ρ : Var → F} {input output : Var} {size k rs : ℕ} {wo : Bool}

/-- Values of the local variables of `member`. -/
def memberLocals (F : Type) [Field F] (set : List ℕ) (k : ℕ) : Var → F
  | .xk i => (k : F) - (set.getD i 0 : ℕ)
  | .l i => leftProd set (k : F) i
  | .r i => rightProd set (k : F) i
  | .cx i => if set.getD i 0 = k then memberC set (set.getD i 0) else 0
  | _ => 0

variable {set : List ℕ}

theorem memberValues_glue {l : Var → F} (hk : k ∈ set) (hl : isLocal input = false)
    (hin : ρ input = (k : F)) (his : ∀ s ∈ set, ρ (.is input s) = if s = k then 1 else 0)
    (hloc : ∀ i, l (.xk i) = memberLocals F set k (.xk i) ∧ l (.l i) = memberLocals F set k (.l i) ∧ l (.r i) = memberLocals F set k (.r i) ∧ l (.cx i) = memberLocals F set k (.cx i)) :
    MemberValues F set input k (glue ρ l) where
  mem := hk
  value := by rw [glue_global hl, hin]
  flag s hs := by
    have hglob : isLocal (Var.is input s) = false := rfl
    rw [glue_global hglob, his s hs]
  xk i _ := (hloc i).1
  l i _ := (hloc i).2.1
  r i _ := (hloc i).2.2.1
  cx i _ := (hloc i).2.2.2

theorem sealFree_memberBody {name : Var} :
    sealFree (memberBody wo name k set : List (Op Var F)) = true := by
  have hrows : ∀ i, sealFree (memberRows name set i : List (Op Var F)) = true := by
    intro i
    simp only [memberRows, sealFree_cons, sealFree_nil, addi, muli, mul, Bool.and_true]
    split_ifs <;> rfl
  cases wo <;>
    simp [memberBody, memberWitness, setFieldVar, setLocalVar, eqi, hrows]

theorem member_passes (hc : Constants F set) (hl : isLocal input = false) (hk : k ∈ set)
    (hin : ρ input = (k : F)) (his : ∀ s ∈ set, ρ (.is input s) = if s = k then 1 else 0)
    (hrs : rs ∈ set) (hr : rs = k ∨ ∀ n, redo n = true) :
    Passes (Op.Honest redo) ρ (member wo input rs set) :=
  passes_sealed sealFree_memberBody (memberLocals F set k)
    (memberBody_holds hc
      (memberValues_glue hk hl hin his fun _ => ⟨rfl, rfl, rfl, rfl⟩) hrs hr)

theorem selector_passes (hc : Constants F (List.range size)) (hsize : 2 < size)
    (hl : isLocal input = false) (hs : Selects ρ input size k) (hrs : rs < size)
    (hr : rs = k ∨ ∀ n, redo n = true) :
    Passes (Op.Honest redo) ρ (selector wo input size rs) := by
  have hcheck : Passes (Op.Honest redo) ρ
      [(.check [] fun _ => decide (2 < size) && decide (rs < size) : Op Var F)] := by
    refine passes_of_holds rfl fun l => ?_
    simp [Op.Honest, hsize, hrs]
  exact hcheck.append (member_passes hc hl (List.mem_range.mpr hs.1) hs.2.1
    (fun s hsm => hs.2.2 s (List.mem_range.mp hsm)) (List.mem_range.mpr hrs) hr)

/-- Values of the local variables of `load_array`. -/
def arrayLocals (ρ : Var → F) (arr : ℕ → Var) (k : ℕ) : Var → F
  | .rsx i => if i = k then ρ (arr i) else 0
  | _ => 0

variable {arr : ℕ → Var}

theorem loadArrayBody_passes (harr : ∀ i, isLocal (arr i) = false) (hl : isLocal input = false)
    (hlo : isLocal output = false) (hs : Selects ρ input size k) (hout : ρ output = ρ (arr k))
    (hr : rs = k ∨ ∀ n, redo n = true) :
    Passes (Op.Honest redo) ρ (loadArrayBody wo input output arr size rs ++ [Op.sealLocals]) := by
  refine passes_sealed ?_ (arrayLocals ρ arr k) (loadArrayBody_holds (k := k) ?_ ?_ ?_ hr)
  · cases wo <;> simp [loadArrayBody, setFieldVar, setLocalVar, mul, sumRow]
  · refine ⟨hs.1, by rw [glue_global hl, hs.2.1], fun i hi => ?_⟩
    rw [← hs.2.2 i hi]
    rfl
  · intro i _
    rw [glue_global (harr i)]
    rfl
  · rw [glue_global hlo, glue_global (harr k), hout]

theorem loadArray_passes (hc : Constants F (List.range size)) (hsize : 2 < size)
    (harr : ∀ i, isLocal (arr i) = false) (hl : isLocal input = false)
    (hlo : isLocal output = false) (hs : Selects ρ input size k) (hout : ρ output = ρ (arr k))
    (hrs : rs < size) (hr : rs = k ∨ ∀ n, redo n = true) :
    Passes (Op.Honest redo) ρ (loadArray wo input output arr size rs) := by
  unfold loadArray
  rw [List.append_assoc]
  exact (selector_passes hc hsize hl hs hrs hr).append (loadArrayBody_passes harr hl hlo hs hout hr)

/-- Values of the local variables of `store_reg`. -/
def storeLocals (ρ : Var → F) (output : Var) (k : ℕ) : Var → F
  | .rsx i => if i ≠ k then ρ (.x i) else 0
  | .z i => if i = k then ρ output else 0
  | _ => 0

theorem storeReg_passes (hc : Constants F (List.range 32)) (hl : isLocal input = false)
    (hlo : isLocal output = false) (hs : Selects ρ input 32 k)
    (hx' : ∀ i, 1 ≤ i → i < 32 → ρ (.x' i) = if i = k then ρ output else ρ (.x i))
    (hrs : rs < 32) (hr : rs = k ∨ ∀ n, redo n = true) :
    Passes (Op.Honest redo) ρ (storeReg wo input output rs) := by
  unfold storeReg
  rw [List.append_assoc]
  refine (selector_passes hc (by decide) hl hs hrs hr).append
    (passes_sealed ?_ (storeLocals ρ output k) (storeRegBody_holds (k := k) ?_ ?_ ?_ ?_ hr))
  · cases wo <;> simp [storeRegBody, setFieldVar, setLocalVar, mul, add]
  · refine ⟨hs.1, by rw [glue_global hl, hs.2.1], fun i hi => ?_⟩
    rw [← hs.2.2 i hi]
    rfl
  · intro i h1 hi
    rw [glue_global hlo]
    exact hx' i h1 hi
  · exact fun i _ _ => rfl
  · intro i _ _
    rw [glue_global hlo]
    rfl

/-- What `member` means for a program that fits. -/
theorem Fits.member (hc : Constants F set) (hl : isLocal input = false)
    (h : Fits Op.Sat ρ (member false input rs set)) :
    ∃ k ∈ set, ρ input = (k : F) ∧ ∀ s ∈ set, ρ (.is input s) = if s = k then 1 else 0 := by
  obtain ⟨l, hl'⟩ := h.holds sealFree_memberBody
  obtain ⟨k, hk, hname, his⟩ := member_sound rfl hc hl'
  exact ⟨k, hk, by rwa [glue_global hl] at hname, his⟩

theorem Fits.selector (hc : Constants F (List.range size)) (hl : isLocal input = false)
    (h : Fits Op.Sat ρ (selector false input size rs)) : ∃ k, Selects ρ input size k := by
  have hsplit : (Circuit.selector false input size rs : List (Op Var F)) =
      [.check [] fun _ => decide (2 < size) && decide (rs < size)] ++
        Circuit.member false input rs (List.range size) := rfl
  rw [hsplit] at h
  have hm := h.right
  obtain ⟨k, hk, hin, his⟩ := Fits.member hc hl hm
  exact ⟨k, List.mem_range.mp hk, hin, fun i hi => his i (List.mem_range.mpr hi)⟩

theorem Fits.loadArray (hc : Constants F (List.range size)) (harr : ∀ i, isLocal (arr i) = false)
    (hl : isLocal input = false) (hlo : isLocal output = false)
    (h : Fits Op.Sat ρ (loadArray false input output arr size rs)) :
    ∃ k, Selects ρ input size k ∧ ρ output = ρ (arr k) := by
  unfold Circuit.loadArray at h
  rw [List.append_assoc] at h
  obtain ⟨k, hk⟩ := Fits.selector hc hl h.left
  have hfree : sealFree (loadArrayBody false input output arr size rs : List (Op Var F)) =
      true := by
    simp [loadArrayBody, setFieldVar, setLocalVar, mul, sumRow]
  obtain ⟨l, hb⟩ := h.right.holds hfree
  have hk' : Selects (glue ρ l) input size k :=
    ⟨hk.1, by rw [glue_global hl, hk.2.1], hk.2.2⟩
  have hout := loadArray_sound rfl hk' hb
  rw [glue_global hlo, glue_global (harr k)] at hout
  exact ⟨k, hk, hout⟩

theorem Fits.storeReg (hc : Constants F (List.range 32)) (hl : isLocal input = false)
    (hlo : isLocal output = false) (h : Fits Op.Sat ρ (storeReg false input output rs)) :
    ∃ k, Selects ρ input 32 k ∧
      ∀ i, 1 ≤ i → i < 32 → ρ (.x' i) = if i = k then ρ output else ρ (.x i) := by
  unfold Circuit.storeReg at h
  rw [List.append_assoc] at h
  obtain ⟨k, hk⟩ := Fits.selector hc hl h.left
  have hfree : sealFree (storeRegBody false input output rs : List (Op Var F)) = true := by
    simp [storeRegBody, setFieldVar, setLocalVar, mul, add]
  obtain ⟨l, hb⟩ := h.right.holds hfree
  have hk' : Selects (glue ρ l) input 32 k :=
    ⟨hk.1, by rw [glue_global hl, hk.2.1], hk.2.2⟩
  refine ⟨k, hk, fun i h1 hi => ?_⟩
  have hx := storeReg_sound rfl hk' hb h1 hi
  rwa [glue_global hlo] at hx

end Selection

end NexusVm.Circuit
