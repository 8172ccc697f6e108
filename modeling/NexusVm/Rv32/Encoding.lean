import NexusVm.Rv32.Parse
import Mathlib.Data.Nat.Bitwise

/-!
# Fields of an instruction word as numbers

The extractors are shifts and masks of 32-bit words; here they are quotients
and remainders, and the immediates are sums of fields with their weights.
-/

namespace NexusVm

theorem bits_toNat (word : U32) {start stop : ℕ} (h : start ≤ stop) (hs : stop < 32) :
    (bits word start stop).toNat = word.toNat / 2 ^ start % 2 ^ (stop + 1 - start) := by
  have hcomm : 2 ^ (31 - stop + start) = 2 ^ (31 - stop) * 2 ^ start := pow_add ..
  have h32 : (2 : ℕ) ^ 32 = 2 ^ (31 - stop) * 2 ^ (stop + 1) := by
    rw [← pow_add, show 31 - stop + (stop + 1) = 32 by omega]
  have hsplit : (2 : ℕ) ^ (stop + 1) = 2 ^ start * 2 ^ (stop + 1 - start) := by
    rw [← pow_add, show start + (stop + 1 - start) = stop + 1 by omega]
  rw [bits, BitVec.toNat_ushiftRight, BitVec.toNat_shiftLeft, Nat.shiftLeft_eq,
    Nat.shiftRight_eq_div_pow, hcomm, h32, mul_comm word.toNat, Nat.mul_mod_mul_left,
    Nat.mul_div_mul_left _ _ (Nat.two_pow_pos _), hsplit, Nat.mod_mul_right_div_self]

theorem opcode_toNat (word : U32) : (opcode word).toNat = word.toNat % 2 ^ 7 := by
  rw [opcode, bits_toNat word (by omega) (by omega), pow_zero, Nat.div_one]

theorem funct3_toNat (word : U32) : (funct3 word).toNat = word.toNat / 2 ^ 12 % 2 ^ 3 :=
  bits_toNat word (by omega) (by omega)

theorem funct7_toNat (word : U32) : (funct7 word).toNat = word.toNat / 2 ^ 25 % 2 ^ 7 :=
  bits_toNat word (by omega) (by omega)

theorem rd_toNat (word : U32) : (rd word).toNat = word.toNat / 2 ^ 7 % 2 ^ 5 :=
  bits_toNat word (by omega) (by omega)

theorem rs1_toNat (word : U32) : (rs1 word).toNat = word.toNat / 2 ^ 15 % 2 ^ 5 :=
  bits_toNat word (by omega) (by omega)

theorem rs2_toNat (word : U32) : (rs2 word).toNat = word.toNat / 2 ^ 20 % 2 ^ 5 :=
  bits_toNat word (by omega) (by omega)

theorem shamt_toNat (word : U32) : (shamt word).toNat = word.toNat / 2 ^ 20 % 2 ^ 5 :=
  bits_toNat word (by omega) (by omega)

/-- Number fields are below their size. -/
theorem field_lt (word : U32) :
    (opcode word).toNat < 128 ∧ (funct3 word).toNat < 8 ∧ (funct7 word).toNat < 128 ∧
      (rd word).toNat < 32 ∧ (rs1 word).toNat < 32 ∧ (rs2 word).toNat < 32 ∧
      (shamt word).toNat < 32 := by
  rw [opcode_toNat, funct3_toNat, funct7_toNat, rd_toNat, rs1_toNat, rs2_toNat, shamt_toNat]
  omega

/-! ## Immediates and instructions in memory -/

theorem signed_eq (word : U32) : signed word = word.getLsbD 31 := by
  have hand : (word &&& 0x80000000#32).toNat = (word.toNat.testBit 31).toNat * 2 ^ 31 := by
    rw [BitVec.toNat_and]
    exact Nat.and_two_pow word.toNat 31
  unfold signed
  rw [← BitVec.testBit_toNat]
  cases h : word.toNat.testBit 31 with
  | true =>
      rw [bne_iff_ne]
      intro h0
      rw [h0, h] at hand
      simp at hand
  | false =>
      rw [bne_eq_false_iff_eq]
      refine BitVec.eq_of_toNat_eq ?_
      rw [hand, h]
      rfl

/-- Disjoint bits add up. -/
theorem or_eq_add {a b k : ℕ} (ha : 2 ^ k ∣ a) (hb : b < 2 ^ k) : a ||| b = a + b := by
  obtain ⟨c, rfl⟩ := ha
  exact (Nat.two_pow_add_eq_or_of_lt hb c).symm

/-- The part of an immediate above its sign bit. -/
def signPart (word : U32) (mask : ℕ) : ℕ := if word.getLsbD 31 then mask else 0

theorem signPart_toNat (word mask : U32) :
    (if signed word then mask else 0).toNat = signPart word mask.toNat := by
  rw [signed_eq, signPart]
  split_ifs <;> rfl

theorem dvd_signPart (word : U32) {mask k : ℕ} (h : 2 ^ k ∣ mask) : 2 ^ k ∣ signPart word mask := by
  unfold signPart
  split_ifs
  · exact h
  · exact dvd_zero _

theorem shl_toNat {v : U32} {k : ℕ} (h : v.toNat * 2 ^ k < 2 ^ 32) :
    (v <<< k).toNat = v.toNat * 2 ^ k := by
  rw [BitVec.toNat_shiftLeft, Nat.shiftLeft_eq, Nat.mod_eq_of_lt h]

theorem immI_toNat (word : U32) :
    (immI word).toNat = word.toNat / 2 ^ 20 % 2 ^ 11 + signPart word 0xfffff800 := by
  have hlow : (bits word 20 30).toNat = word.toNat / 2 ^ 20 % 2 ^ 11 :=
    bits_toNat word (by omega) (by omega)
  rw [immI, BitVec.toNat_or, signPart_toNat, hlow, add_comm]
  exact or_eq_add (dvd_signPart word (by decide)) (Nat.mod_lt _ (by decide))

theorem immS_toNat (word : U32) :
    (immS word).toNat = word.toNat / 2 ^ 7 % 2 ^ 5 +
      2 ^ 5 * (word.toNat / 2 ^ 25 % 2 ^ 6) + signPart word 0xfffff800 := by
  have hlow : (bits word 7 11).toNat = word.toNat / 2 ^ 7 % 2 ^ 5 :=
    bits_toNat word (by omega) (by omega)
  have hhigh : (bits word 25 30).toNat = word.toNat / 2 ^ 25 % 2 ^ 6 :=
    bits_toNat word (by omega) (by omega)
  have hl : word.toNat / 2 ^ 7 % 2 ^ 5 < 2 ^ 5 := Nat.mod_lt _ (by decide)
  have hh : word.toNat / 2 ^ 25 % 2 ^ 6 < 2 ^ 6 := Nat.mod_lt _ (by decide)
  rw [← hlow] at hl ⊢
  rw [← hhigh] at hh ⊢
  have hdvd : 2 ^ 11 ∣ signPart word 0xfffff800 := dvd_signPart word (by decide)
  rw [immS, BitVec.toNat_or, BitVec.toNat_or, signPart_toNat,
    show (0xfffff800#32).toNat = 0xfffff800 from rfl, shl_toNat (by omega),
    or_eq_add hdvd (by omega), or_eq_add (k := 5) (by omega) hl]
  omega

theorem immB_toNat (word : U32) :
    (immB word).toNat = 2 * (word.toNat / 2 ^ 8 % 2 ^ 4) +
      2 ^ 5 * (word.toNat / 2 ^ 25 % 2 ^ 6) + 2 ^ 11 * (word.toNat / 2 ^ 7 % 2) +
      signPart word 0xfffff000 := by
  have h8 : (bits word 8 11).toNat = word.toNat / 2 ^ 8 % 2 ^ 4 :=
    bits_toNat word (by omega) (by omega)
  have h25 : (bits word 25 30).toNat = word.toNat / 2 ^ 25 % 2 ^ 6 :=
    bits_toNat word (by omega) (by omega)
  have h7 : (bits word 7 7).toNat = word.toNat / 2 ^ 7 % 2 := by
    rw [bits_toNat word (by omega) (by omega)]
    omega
  have l8 : word.toNat / 2 ^ 8 % 2 ^ 4 < 2 ^ 4 := Nat.mod_lt _ (by decide)
  have l25 : word.toNat / 2 ^ 25 % 2 ^ 6 < 2 ^ 6 := Nat.mod_lt _ (by decide)
  have l7 : word.toNat / 2 ^ 7 % 2 < 2 := Nat.mod_lt _ (by decide)
  rw [← h8] at l8 ⊢
  rw [← h25] at l25 ⊢
  rw [← h7] at l7 ⊢
  have hdvd : 2 ^ 12 ∣ signPart word 0xfffff000 := dvd_signPart word (by decide)
  rw [immB, BitVec.toNat_or, BitVec.toNat_or, BitVec.toNat_or, signPart_toNat,
    show (0xfffff000#32).toNat = 0xfffff000 from rfl,
    shl_toNat (by omega), shl_toNat (by omega), shl_toNat (by omega),
    or_eq_add hdvd (by omega),
    or_eq_add (b := (bits word 25 30).toNat * 2 ^ 5) (k := 11) (by omega) (by omega),
    or_eq_add (k := 5) (by omega) (by omega)]
  omega

theorem immJ_toNat (word : U32) :
    (immJ word).toNat = 2 * (word.toNat / 2 ^ 21 % 2 ^ 10) + 2 ^ 11 * (word.toNat / 2 ^ 20 % 2) +
      2 ^ 12 * (word.toNat / 2 ^ 12 % 2 ^ 8) + signPart word 0xfff00000 := by
  have h21 : (bits word 21 30).toNat = word.toNat / 2 ^ 21 % 2 ^ 10 :=
    bits_toNat word (by omega) (by omega)
  have h12 : (bits word 12 19).toNat = word.toNat / 2 ^ 12 % 2 ^ 8 :=
    bits_toNat word (by omega) (by omega)
  have h20 : (bits word 20 20).toNat = word.toNat / 2 ^ 20 % 2 := by
    rw [bits_toNat word (by omega) (by omega)]
    omega
  have l21 : word.toNat / 2 ^ 21 % 2 ^ 10 < 2 ^ 10 := Nat.mod_lt _ (by decide)
  have l12 : word.toNat / 2 ^ 12 % 2 ^ 8 < 2 ^ 8 := Nat.mod_lt _ (by decide)
  have l20 : word.toNat / 2 ^ 20 % 2 < 2 := Nat.mod_lt _ (by decide)
  rw [← h21] at l21 ⊢
  rw [← h12] at l12 ⊢
  rw [← h20] at l20 ⊢
  have hdvd : 2 ^ 20 ∣ signPart word 0xfff00000 := dvd_signPart word (by decide)
  rw [immJ, BitVec.toNat_or, BitVec.toNat_or, BitVec.toNat_or, signPart_toNat,
    show (0xfff00000#32).toNat = 0xfff00000 from rfl,
    shl_toNat (by omega), shl_toNat (by omega), shl_toNat (by omega),
    or_eq_add hdvd (by omega),
    or_eq_add (b := (bits word 20 20).toNat * 2 ^ 11) (k := 12) (by omega) (by omega),
    or_eq_add (k := 11) (by omega) (by omega)]
  omega

theorem immU_toNat (word : U32) : (immU word).toNat = 2 ^ 12 * (word.toNat / 2 ^ 12 % 2 ^ 20) := by
  have hshift : immU word = (word >>> 12) <<< 12 := by
    refine BitVec.eq_of_getLsbD_eq fun i hi => ?_
    have hmask : ∀ j < 32, (0xfffff000#32).getLsbD j = decide (12 ≤ j) := by decide
    rw [immU, BitVec.getLsbD_and, hmask i hi, BitVec.getLsbD_shiftLeft, BitVec.getLsbD_ushiftRight]
    by_cases h : 12 ≤ i
    · simp [h, hi, show ¬ i < 12 by omega, show 12 + (i - 12) = i by omega]
    · simp [h, show i < 12 by omega]
  have hw := word.isLt
  rw [hshift, BitVec.toNat_shiftLeft, BitVec.toNat_ushiftRight, Nat.shiftLeft_eq,
    Nat.shiftRight_eq_div_pow]
  omega

theorem immA_eq (word : U32) :
    immA word = if (funct3 word).toNat = 1 ∨ (funct3 word).toNat = 5 then shamt word
      else immI word := by
  unfold immA
  split
  · rename_i h
    rw [if_pos (Or.inl h)]
  · rename_i h
    rw [if_pos (Or.inr h)]
  · rename_i h1 h5
    rw [if_neg (not_or.mpr ⟨h1, h5⟩)]

/-!
## Words that parse

The arms of `parseU32`, one constructor each: which operands an instruction has
from which fields of its word.
-/

/-- **What a word that parses is.** -/
inductive Parses (word : U32) : RV32 → Prop
  | lui (hopc : (opcode word).toNat = opcLui) : Parses word (.lui (rd word) (immU word))
  | auipc (hopc : (opcode word).toNat = opcAuipc) : Parses word (.auipc (rd word) (immU word))
  | jal (hopc : (opcode word).toNat = opcJal) : Parses word (.jal (rd word) (immJ word))
  | jalr (hopc : (opcode word).toNat = opcJalr) (hf3 : funct3 word = 0) :
      Parses word (.jalr (rd word) (rs1 word) (immI word))
  | br (hopc : (opcode word).toNat = opcBr) {b : BOP} (hb : bop word = some b) :
      Parses word (.br b (rs1 word) (rs2 word) (immB word))
  | load (hopc : (opcode word).toNat = opcLoad) {l : LOP} (hl : lop word = some l) :
      Parses word (.load l (rd word) (rs1 word) (immI word))
  | store (hopc : (opcode word).toNat = opcStore) {s : SOP} (hs : sop word = some s) :
      Parses word (.store s (rs1 word) (rs2 word) (immS word))
  | alui (hopc : (opcode word).toNat = opcAlui) {a : AOP} (ha : aopi word = some a) :
      Parses word (.alui a (rd word) (rs1 word) (immA word))
  | alu (hopc : (opcode word).toNat = opcAlu) {a : AOP} (ha : aop word = some a) :
      Parses word (.alu a (rd word) (rs1 word) (rs2 word))
  | fence (hopc : (opcode word).toNat = opcFence) : Parses word .fence
  | ecall (hopc : (opcode word).toNat = opcEcall) (hupper : (word >>> 12).toNat = 0) :
      Parses word (.ecall (rd word))
  | ebreak (hopc : (opcode word).toNat = opcEcall) (hupper : (word >>> 12).toNat = 0x100) :
      Parses word (.ebreak (rd word))
  | unimp (hopc : (opcode word).toNat = opcEcall) (hupper : (word >>> 12).toNat = 0xc0001) :
      Parses word .unimp

theorem parses_of_parseU32 {word : U32} {i : RV32} (h : parseU32 word = some i) :
    Parses word i := by
  unfold parseU32 at h
  generalize hopc : (opcode word).toNat = opc at h
  generalize hupper : (word >>> 12).toNat = upper at h
  split at h
  · cases h
    exact .lui hopc
  · cases h
    exact .auipc hopc
  · cases h
    exact .jal hopc
  · split at h
    · cases h
      exact .jalr hopc ‹_›
    · cases h
  · obtain ⟨b, hb, rfl⟩ := Option.map_eq_some_iff.mp h
    exact .br hopc hb
  · obtain ⟨l, hl, rfl⟩ := Option.map_eq_some_iff.mp h
    exact .load hopc hl
  · obtain ⟨s, hs, rfl⟩ := Option.map_eq_some_iff.mp h
    exact .store hopc hs
  · obtain ⟨a, ha, rfl⟩ := Option.map_eq_some_iff.mp h
    exact .alui hopc ha
  · obtain ⟨a, ha, rfl⟩ := Option.map_eq_some_iff.mp h
    exact .alu hopc ha
  · cases h
    exact .fence hopc
  · split at h
    · cases h
      exact .ecall hopc hupper
    · cases h
      exact .ebreak hopc hupper
    · cases h
      exact .unimp hopc hupper
    · cases h
  · cases h

namespace RV32

/-- The destination register; `0` where there is none. -/
def dest : RV32 → U32
  | lui rd _ | auipc rd _ | jal rd _ | jalr rd .. | load _ rd .. | alui _ rd .. | alu _ rd .. |
    ecall rd => rd
  | br .. | store .. | fence | ebreak _ | unimp => 0

end RV32

/-- A destination is a five-bit field. -/
theorem Parses.dest_lt {word : U32} {i : RV32} (h : Parses word i) : i.dest.toNat < 32 := by
  have hrd : (rd word).toNat < 32 := (field_lt word).2.2.2.1
  cases h <;> first | exact hrd | exact Nat.zero_lt_succ 31

/-- An instruction that is read has four bytes, and its word parses. -/
theorem parseInst_eq_ok {pc : U32} {mem : List (BitVec 8)} {inst : Inst}
    (h : parseInst pc mem = .ok inst) :
    inst.pc = pc ∧ inst.len = 4 ∧ parseU32 inst.word = some inst.inst := by
  unfold parseInst at h
  split at h
  · rename_i b0 b1 rest
    dsimp only at h
    split at h
    · cases h
    · split at h
      · cases h
      · rename_i hsz
        split at h
        · split at h
          · cases h
          · rename_i i hi
            cases h
            exact ⟨rfl, not_not.mp hsz, hi⟩
        · cases h
  · cases h

end NexusVm
