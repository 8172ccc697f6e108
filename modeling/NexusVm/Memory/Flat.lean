import NexusVm.Memory.Basic

/-!
# Flat memory

What a memory controller is for: one byte for each address, with little-endian
loads and stores of one, two and four bytes.  Loads and stores of a cache line
are those of its bytes, since an aligned access stays inside of a line.
-/

namespace NexusVm

/-- The number of bytes that a store writes. -/
def SOP.width : SOP → ℕ
  | .sb => 1
  | .sh => 2
  | .sw => 4

/-- The number of bytes that a load reads. -/
def LOP.width : LOP → ℕ
  | .lb | .lbu => 1
  | .lh | .lhu => 2
  | .lw => 4

theorem SOP.width_dvd (sop : SOP) : sop.width ∣ 4 := by
  cases sop <;> decide

theorem LOP.width_dvd (lop : LOP) : lop.width ∣ 4 := by
  cases lop <;> decide

/-- One byte for each address: what the programs that run on the machine take the memory to be.
Both memories of the source are compared with it. -/
abbrev Flat := U32 → U8

namespace Flat

def zero : Flat := fun _ => 0

def half (mem : Flat) (addr : U32) : BitVec 16 := mem (addr + 1) ++ mem addr

def word (mem : Flat) (addr : U32) : U32 :=
  (mem (addr + 3) ++ mem (addr + 2) : BitVec 16) ++ (mem (addr + 1) ++ mem addr : BitVec 16)

/-- The value of a load. -/
def value (mem : Flat) (lop : LOP) (addr : U32) : U32 :=
  match lop with
  | .lb => (mem addr).signExtend 32
  | .lh => (mem.half addr).signExtend 32
  | .lw => mem.word addr
  | .lbu => (mem addr).setWidth 32
  | .lhu => (mem.half addr).setWidth 32

/-- A load fails if it is misaligned. -/
def load (mem : Flat) (lop : LOP) (addr : U32) : Except NexusVMError U32 :=
  if addr.toNat % lop.width ≠ 0 then .error (.misaligned addr) else .ok (mem.value lop addr)

variable {addr : U32} {lop : LOP}

theorem load_aligned {mem : Flat} (ha : addr.toNat % lop.width = 0) :
    mem.load lop addr = .ok (mem.value lop addr) :=
  if_neg (not_not.mpr ha)

theorem load_misaligned {mem : Flat} (ha : addr.toNat % lop.width ≠ 0) :
    mem.load lop addr = .error (.misaligned addr) :=
  if_pos ha

/-- Write the bytes of a value to the places `0`, …, `width - 1`, where `place`
is the place of each address. -/
def writeAt (place : U32 → ℕ) (mem : Flat) (sop : SOP) (val : U32) : Flat := fun b =>
  if place b < sop.width then val.extractLsb' (8 * place b) 8 else mem b

variable {mem mem' : Flat}

/-- The value of a load depends on its bytes only. -/
theorem value_congr
    (h : ∀ i < lop.width, mem (addr + BitVec.ofNat 32 i) = mem' (addr + BitVec.ofNat 32 i)) :
    mem.value lop addr = mem'.value lop addr := by
  have h0 : 0 < lop.width → mem addr = mem' addr := by
    intro hpos
    have hbyte := h 0 hpos
    rw [BitVec.add_zero] at hbyte
    exact hbyte
  cases lop with
  | lb => rw [value, value, h0 (by decide)]
  | lbu => rw [value, value, h0 (by decide)]
  | lh =>
      have h1 : mem (addr + 1) = mem' (addr + 1) := h 1 (by decide)
      rw [value, value, half, half, h0 (by decide), h1]
  | lhu =>
      have h1 : mem (addr + 1) = mem' (addr + 1) := h 1 (by decide)
      rw [value, value, half, half, h0 (by decide), h1]
  | lw =>
      have h1 : mem (addr + 1) = mem' (addr + 1) := h 1 (by decide)
      have h2 : mem (addr + 2) = mem' (addr + 2) := h 2 (by decide)
      have h3 : mem (addr + 3) = mem' (addr + 3) := h 3 (by decide)
      rw [value, value, word, word, h0 (by decide), h1, h2, h3]

theorem append_inj {v w : ℕ} {a a' : BitVec v} {b b' : BitVec w} (h : a ++ b = a' ++ b') :
    a = a' ∧ b = b' := by
  constructor
  · have hhi := congrArg (BitVec.extractLsb' w v) h
    rwa [BitVec.extractLsb'_append_eq_left, BitVec.extractLsb'_append_eq_left] at hhi
  · have hlo := congrArg (BitVec.extractLsb' 0 w) h
    rwa [BitVec.extractLsb'_append_eq_right, BitVec.extractLsb'_append_eq_right] at hlo

theorem half_inj (h : mem.half addr = mem'.half addr) :
    mem addr = mem' addr ∧ mem (addr + 1) = mem' (addr + 1) := by
  obtain ⟨h1, h0⟩ := append_inj h
  exact ⟨h0, h1⟩

/-- The value of a load determines its bytes. -/
theorem value_inj (h : mem.value lop addr = mem'.value lop addr) :
    ∀ i < lop.width, mem (addr + BitVec.ofNat 32 i) = mem' (addr + BitVec.ofNat 32 i) := by
  have hsign : ∀ {w : ℕ}, w ≤ 32 → ∀ {a b : BitVec w}, a.signExtend 32 = b.signExtend 32 →
      a = b := by
    intro w hw a b hab
    apply BitVec.eq_of_getLsbD_eq
    intro i hi
    have hbit := congrArg (BitVec.getLsbD · i) hab
    have hlt : i < 32 := hi.trans_le hw
    rwa [BitVec.getLsbD_signExtend, BitVec.getLsbD_signExtend, if_pos hi, if_pos hi,
      decide_eq_true hlt, Bool.true_and, Bool.true_and] at hbit
  have hzero : ∀ {w : ℕ}, w ≤ 32 → ∀ {a b : BitVec w}, a.setWidth 32 = b.setWidth 32 →
      a = b := by
    intro w hw a b hab
    have hlow := congrArg (BitVec.setWidth w) hab
    rwa [BitVec.setWidth_setWidth_of_le _ hw, BitVec.setWidth_setWidth_of_le _ hw,
      BitVec.setWidth_eq, BitVec.setWidth_eq] at hlow
  intro i hi
  have hbase : mem addr = mem' addr → mem (addr + BitVec.ofNat 32 0) =
      mem' (addr + BitVec.ofNat 32 0) := by
    intro hbyte
    rwa [BitVec.add_zero]
  cases lop with
  | lb =>
      obtain rfl : i = 0 := Nat.lt_one_iff.mp hi
      exact hbase (hsign (by decide) h)
  | lbu =>
      obtain rfl : i = 0 := Nat.lt_one_iff.mp hi
      exact hbase (hzero (by decide) h)
  | lh =>
      obtain ⟨h0, h1⟩ := half_inj (hsign (by decide) h)
      match i, hi with
      | 0, _ => exact hbase h0
      | 1, _ => exact h1
  | lhu =>
      obtain ⟨h0, h1⟩ := half_inj (hzero (by decide) h)
      match i, hi with
      | 0, _ => exact hbase h0
      | 1, _ => exact h1
  | lw =>
      obtain ⟨hhi, hlo⟩ := append_inj h
      obtain ⟨h3, h2⟩ := append_inj hhi
      obtain ⟨h1, h0⟩ := append_inj hlo
      match i, hi with
      | 0, _ => exact hbase h0
      | 1, _ => exact h1
      | 2, _ => exact h2
      | 3, _ => exact h3

/-- Two memories agree on a load if it is misaligned or they agree on its bytes. -/
theorem load_eq_iff :
    mem.load lop addr = mem'.load lop addr ↔ (addr.toNat % lop.width = 0 →
      ∀ i < lop.width, mem (addr + BitVec.ofNat 32 i) = mem' (addr + BitVec.ofNat 32 i)) := by
  by_cases ha : addr.toNat % lop.width = 0
  · rw [load_aligned ha, load_aligned ha, Except.ok.injEq]
    constructor
    · intro h _
      exact value_inj h
    · intro h
      exact value_congr (h ha)
  · rw [load_misaligned ha, load_misaligned ha]
    exact iff_of_true rfl fun h => absurd h ha

end Flat

/-- The place of an address inside of its line. -/
def lineOffset (addr : U32) : ℕ := (addr &&& 31).toNat

theorem lineOffset_eq (addr : U32) : lineOffset addr = addr.toNat % 32 := by
  have hmask : (31 : U32).toNat = 2 ^ 5 - 1 := by decide
  rw [lineOffset, BitVec.toNat_and, hmask, Nat.and_two_pow_sub_one_eq_mod]

theorem and_one_eq_zero (addr : U32) : addr &&& 1 = 0 ↔ addr.toNat % 2 = 0 := by
  have hmask : (1 : U32).toNat = 2 ^ 1 - 1 := by decide
  rw [← BitVec.toNat_inj, BitVec.toNat_and, hmask, Nat.and_two_pow_sub_one_eq_mod]
  rfl

theorem and_three_eq_zero (addr : U32) : addr &&& 3 = 0 ↔ addr.toNat % 4 = 0 := by
  have hmask : (3 : U32).toNat = 2 ^ 2 - 1 := by decide
  rw [← BitVec.toNat_inj, BitVec.toNat_and, hmask, Nat.and_two_pow_sub_one_eq_mod]
  rfl

namespace CacheLine

/-- The bytes of a line, for every address that has the line. -/
def flat (cl : CacheLine) : Flat := fun b => cl.byte (lineOffset b)

theorem halfIndex_eq (addr : U32) : ((addr >>> 1) &&& 15).toNat = addr.toNat % 32 / 2 := by
  have hmask : (15 : U32).toNat = 2 ^ 4 - 1 := by decide
  rw [BitVec.toNat_and, hmask, Nat.and_two_pow_sub_one_eq_mod, BitVec.toNat_ushiftRight,
    Nat.shiftRight_eq_div_pow]
  omega

theorem wordIndex_eq (addr : U32) : ((addr >>> 2) &&& 7).toNat = addr.toNat % 32 / 4 := by
  have hmask : (7 : U32).toNat = 2 ^ 3 - 1 := by decide
  rw [BitVec.toNat_and, hmask, Nat.and_two_pow_sub_one_eq_mod, BitVec.toNat_ushiftRight,
    Nat.shiftRight_eq_div_pow]
  omega

theorem width_cases {w : ℕ} (hw : w ∣ 4) : w = 1 ∨ w = 2 ∨ w = 4 := by
  have hall : ∀ k < 5, k ∣ 4 → k = 1 ∨ k = 2 ∨ k = 4 := by decide
  exact hall w (Nat.lt_succ_of_le (Nat.le_of_dvd (by decide) hw)) hw

variable {addr : U32}

/-- The place of a byte of an aligned access. -/
theorem lineOffset_add {w i : ℕ} (hw : w ∣ 4) (ha : addr.toNat % w = 0) (hi : i < w) :
    lineOffset (addr + BitVec.ofNat 32 i) = addr.toNat % 32 + i := by
  have hlt := addr.isLt
  rw [lineOffset_eq, BitVec.toNat_add, BitVec.toNat_ofNat]
  rcases width_cases hw with rfl | rfl | rfl <;> omega

theorem half_eq_flat (cl : CacheLine) (ha : addr.toNat % 2 = 0) :
    cl.half (((addr >>> 1) &&& 15).toNat) = cl.flat.half addr := by
  have h0 := lineOffset_add (i := 0) (by decide : 2 ∣ 4) ha (by decide)
  have h1 := lineOffset_add (i := 1) (by decide : 2 ∣ 4) ha (by decide)
  rw [BitVec.add_zero] at h0
  have hone : lineOffset (addr + 1) = addr.toNat % 32 + 1 := h1
  have hindex : 2 * (addr.toNat % 32 / 2) = addr.toNat % 32 := by omega
  rw [half, halfIndex_eq, Flat.half, flat, flat, h0, hone, hindex]
  rfl

theorem word_eq_flat (cl : CacheLine) (ha : addr.toNat % 4 = 0) :
    cl.word (((addr >>> 2) &&& 7).toNat) = cl.flat.word addr := by
  have h0 := lineOffset_add (i := 0) (by decide : 4 ∣ 4) ha (by decide)
  have h1 : lineOffset (addr + 1) = addr.toNat % 32 + 1 :=
    lineOffset_add (i := 1) (by decide : 4 ∣ 4) ha (by decide)
  have h2 : lineOffset (addr + 2) = addr.toNat % 32 + 2 :=
    lineOffset_add (i := 2) (by decide : 4 ∣ 4) ha (by decide)
  have h3 : lineOffset (addr + 3) = addr.toNat % 32 + 3 :=
    lineOffset_add (i := 3) (by decide : 4 ∣ 4) ha (by decide)
  rw [BitVec.add_zero] at h0
  have hindex : 4 * (addr.toNat % 32 / 4) = addr.toNat % 32 := by omega
  rw [word, wordIndex_eq, Flat.word, flat, flat, flat, flat, h0, h1, h2, h3, hindex]
  rfl

/-- Sign extension of `w` bits as it is written in the source. -/
theorem signExtend_eq {w : ℕ} (hpos : 0 < w) (hw : w < 32) (b : BitVec w) :
    (if b.setWidth 32 &&& BitVec.twoPow 32 (w - 1) = 0 then b.setWidth 32
      else (BitVec.allOnes 32 <<< w) ||| b.setWidth 32) = b.signExtend 32 := by
  have hlast : w - 1 < w := Nat.sub_lt hpos Nat.one_pos
  have hbit : (b.setWidth 32).getLsbD (w - 1) = b.msb := by
    rw [BitVec.getLsbD_setWidth, decide_eq_true (hlast.trans hw), Bool.true_and,
      BitVec.msb_eq_getLsbD_last]
  rw [BitVec.and_twoPow, hbit]
  cases hmsb : b.msb with
  | false =>
      rw [BitVec.signExtend_eq_setWidth_of_msb_false hmsb]
      rfl
  | true =>
      have hne : BitVec.twoPow 32 (w - 1) ≠ 0 := by
        intro h
        have hnat := congrArg (BitVec.getLsbD · (w - 1)) h
        rw [BitVec.getLsbD_twoPow, decide_eq_true (hlast.trans hw)] at hnat
        simp at hnat
      rw [if_pos rfl, if_neg hne]
      apply BitVec.eq_of_getLsbD_eq
      intro i hi
      rw [BitVec.getLsbD_or, BitVec.getLsbD_shiftLeft, BitVec.getLsbD_setWidth,
        BitVec.getLsbD_signExtend, hmsb, decide_eq_true hi]
      rcases Nat.lt_or_ge i w with hlt | hge
      · simp [hlt]
      · have hsub : i - w < 32 := by omega
        rw [BitVec.getLsbD_allOnes, decide_eq_true hsub, if_neg hge.not_gt]
        simp [hge]

theorem lb_eq_flat (cl : CacheLine) (addr : U32) :
    cl.lb addr = .ok ((cl.flat addr).signExtend 32) := by
  rw [← signExtend_eq (by decide) (by decide)]
  exact (apply_ite Except.ok _ _ _).symm

theorem lh_eq_flat (cl : CacheLine) (ha : addr.toNat % 2 = 0) :
    cl.lh addr = .ok ((cl.flat.half addr).signExtend 32) := by
  rw [← signExtend_eq (by decide) (by decide), ← half_eq_flat cl ha, lh, lhu,
    if_neg (not_not.mpr ((and_one_eq_zero addr).mpr ha))]
  exact (apply_ite Except.ok _ _ _).symm

/-- **A load of a line** is the flat load of its bytes. -/
theorem load_eq_flat (cl : CacheLine) (lop : LOP) (addr : U32) :
    cl.load lop addr = cl.flat.load lop addr := by
  by_cases ha : addr.toNat % lop.width = 0
  · rw [Flat.load_aligned ha]
    cases lop with
    | lb => exact lb_eq_flat cl addr
    | lbu => rfl
    | lh => exact lh_eq_flat cl ha
    | lhu =>
        rw [load, lhu, if_neg (not_not.mpr ((and_one_eq_zero addr).mpr ha)), half_eq_flat cl ha]
        rfl
    | lw =>
        rw [load, lw, if_neg (not_not.mpr ((and_three_eq_zero addr).mpr ha)), word_eq_flat cl ha]
        rfl
  · rw [Flat.load_misaligned ha]
    cases lop with
    | lb => exact absurd (Nat.mod_one _) ha
    | lbu => exact absurd (Nat.mod_one _) ha
    | lh =>
        rw [load, lh, lhu, if_pos (mt (and_one_eq_zero addr).mp ha)]
        rfl
    | lhu => rw [load, lhu, if_pos (mt (and_one_eq_zero addr).mp ha)]
    | lw => rw [load, lw, if_pos (mt (and_three_eq_zero addr).mp ha)]

/-! ## Stores -/

variable {i j : ℕ}

theorem byte_setByte (cl : CacheLine) (hi : i < 32) (hj : j < 32) (v : U8) :
    (cl.setByte i v).byte j = if j = i then v else cl.byte j := by
  have hiff : Fin.ofNat 32 j = Fin.ofNat 32 i ↔ j = i := by
    rw [Fin.ext_iff, Fin.val_ofNat, Fin.val_ofNat, Nat.mod_eq_of_lt hi, Nat.mod_eq_of_lt hj]
  show Function.update cl.bytes (Fin.ofNat 32 i) v (Fin.ofNat 32 j) = _
  rw [Function.update_apply]
  simp only [hiff]
  rfl

/-- The byte of a value at a place. -/
theorem extract_setWidth (val : U32) {w i : ℕ} (hi : i + 8 ≤ w) :
    (val.setWidth w).extractLsb' i 8 = val.extractLsb' i 8 := by
  apply BitVec.eq_of_getLsbD_eq
  intro j hj
  have hlt : i + j < w := by omega
  rw [BitVec.getLsbD_extractLsb', BitVec.getLsbD_extractLsb', BitVec.getLsbD_setWidth,
    decide_eq_true hlt, Bool.true_and]

theorem byte_setHalf (cl : CacheLine) (hi : 2 * i + 1 < 32) (hj : j < 32) (val : U32) :
    (cl.setHalf i (val.setWidth 16)).byte j =
      if 2 * i ≤ j ∧ j < 2 * i + 2 then val.extractLsb' (8 * (j - 2 * i)) 8 else cl.byte j := by
  rw [setHalf, byte_setByte _ hi hj, byte_setByte _ (Nat.lt_of_succ_lt hi) hj,
    extract_setWidth val (by decide), extract_setWidth val (by decide)]
  by_cases h1 : j = 2 * i + 1
  · have hplace : 8 * (j - 2 * i) = 8 := by omega
    rw [if_pos h1, if_pos (by omega), hplace]
  · rw [if_neg h1]
    by_cases h0 : j = 2 * i
    · rw [if_pos h0, if_pos (by omega), h0, Nat.sub_self]
    · rw [if_neg h0, if_neg (by omega)]

theorem byte_setWord (cl : CacheLine) (hi : 4 * i + 3 < 32) (hj : j < 32) (val : U32) :
    (cl.setWord i val).byte j =
      if 4 * i ≤ j ∧ j < 4 * i + 4 then val.extractLsb' (8 * (j - 4 * i)) 8 else cl.byte j := by
  rw [setWord, byte_setByte _ hi hj, byte_setByte _ (by omega) hj, byte_setByte _ (by omega) hj,
    byte_setByte _ (by omega) hj]
  by_cases h3 : j = 4 * i + 3
  · have hplace : 8 * (j - 4 * i) = 24 := by omega
    rw [if_pos h3, if_pos (by omega), hplace]
  · rw [if_neg h3]
    by_cases h2 : j = 4 * i + 2
    · have hplace : 8 * (j - 4 * i) = 16 := by omega
      rw [if_pos h2, if_pos (by omega), hplace]
    · rw [if_neg h2]
      by_cases h1 : j = 4 * i + 1
      · have hplace : 8 * (j - 4 * i) = 8 := by omega
        rw [if_pos h1, if_pos (by omega), hplace]
      · rw [if_neg h1]
        by_cases h0 : j = 4 * i
        · rw [if_pos h0, if_pos (by omega), h0, Nat.sub_self]
        · rw [if_neg h0, if_neg (by omega)]

/-- A misaligned store fails and leaves the line. -/
theorem store_misaligned (cl : CacheLine) {sop : SOP} (val : U32) (ha : addr.toNat % sop.width ≠ 0) :
    cl.store sop addr val = (.error (.misaligned addr), cl) := by
  cases sop with
  | sb => exact absurd (Nat.mod_one _) ha
  | sh => rw [store, sh, if_pos (mt (and_one_eq_zero addr).mp ha)]
  | sw => rw [store, sw, if_pos (mt (and_three_eq_zero addr).mp ha)]

/-- **An aligned store to a line** writes its bytes. -/
theorem store_aligned (cl : CacheLine) {sop : SOP} (val : U32) (ha : addr.toNat % sop.width = 0) :
    ∃ cl', cl.store sop addr val = (.ok (), cl') ∧ ∀ j < 32, cl'.byte j =
      if addr.toNat % 32 ≤ j ∧ j < addr.toNat % 32 + sop.width then
        val.extractLsb' (8 * (j - addr.toNat % 32)) 8
      else cl.byte j := by
  cases sop with
  | sb =>
      refine ⟨_, rfl, fun j hj => ?_⟩
      have hoff : (addr &&& 31).toNat = addr.toNat % 32 := lineOffset_eq addr
      have hmod : addr.toNat % 32 < 32 := Nat.mod_lt _ (by decide)
      rw [hoff, byte_setByte cl hmod hj, SOP.width]
      by_cases hji : j = addr.toNat % 32
      · rw [if_pos hji, if_pos (by omega), hji, Nat.sub_self]
        exact BitVec.setWidth_eq_extractLsb' (by decide)
      · rw [if_neg hji, if_neg (by omega)]
  | sh =>
      rw [SOP.width] at ha
      rw [store, sh, if_neg (not_not.mpr ((and_one_eq_zero addr).mpr ha)), halfIndex_eq]
      refine ⟨_, rfl, fun j hj => ?_⟩
      have hindex : 2 * (addr.toNat % 32 / 2) = addr.toNat % 32 := by omega
      rw [byte_setHalf cl (by omega) hj, hindex]
      rfl
  | sw =>
      rw [SOP.width] at ha
      rw [store, sw, if_neg (not_not.mpr ((and_three_eq_zero addr).mpr ha)), wordIndex_eq]
      refine ⟨_, rfl, fun j hj => ?_⟩
      have hindex : 4 * (addr.toNat % 32 / 4) = addr.toNat % 32 := by omega
      rw [byte_setWord cl (by omega) hj, hindex]
      rfl

end CacheLine

end NexusVm
