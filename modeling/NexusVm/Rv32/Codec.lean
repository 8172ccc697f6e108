import NexusVm.Rv32.Encoding
import Mathlib.Tactic.IntervalCases
import Mathlib.Tactic.Ring

/-!
# The encoding table

Each row of the table of encodings is a definition by its bit strings; the decoder is the
inverse of it.

Both directions hold for all words and all instructions: a word that decodes is the encoding of
what it decodes to, and an encoding decodes to its instruction.  The function codes are those of
RV32I and of the decoder; the printed table has other codes for `lbu` and `lhu` and a wider
immediate for `slli`.
-/

namespace NexusVm

def BOP.funct3 : BOP → BitVec 3
  | .beq => 0b000
  | .bne => 0b001
  | .blt => 0b100
  | .bge => 0b101
  | .bltu => 0b110
  | .bgeu => 0b111

def LOP.funct3 : LOP → BitVec 3
  | .lb => 0b000
  | .lh => 0b001
  | .lw => 0b010
  | .lbu => 0b100
  | .lhu => 0b101

def SOP.funct3 : SOP → BitVec 3
  | .sb => 0b000
  | .sh => 0b001
  | .sw => 0b010

def AOP.funct3 : AOP → BitVec 3
  | .add | .sub => 0b000
  | .sll => 0b001
  | .slt => 0b010
  | .sltu => 0b011
  | .xor => 0b100
  | .srl | .sra => 0b101
  | .or => 0b110
  | .and => 0b111

def AOP.funct7 : AOP → BitVec 7
  | .sub | .sra => 0b0100000
  | _ => 0b0000000

/-- Operations whose immediate is a shift amount. -/
def AOP.Shifts (a : AOP) : Prop := a = .sll ∨ a = .srl ∨ a = .sra

instance (a : AOP) : Decidable a.Shifts := by
  unfold AOP.Shifts
  infer_instance

theorem shifts_iff {a : AOP} (hsub : a ≠ .sub) :
    a.Shifts ↔ a.funct3.toNat = 1 ∨ a.funct3.toNat = 5 := by
  cases a with
  | sub => exact absurd rfl hsub
  | _ => decide

variable {word : U32}

theorem bop_eq_some {b : BOP} :
    bop word = some b ↔ (funct3 word).toNat = b.funct3.toNat := by
  have hlt := (field_lt word).2.1
  unfold bop
  generalize (funct3 word).toNat = f at hlt ⊢
  interval_cases f <;> cases b <;> decide

theorem lop_eq_some {l : LOP} :
    lop word = some l ↔ (funct3 word).toNat = l.funct3.toNat := by
  have hlt := (field_lt word).2.1
  unfold lop
  generalize (funct3 word).toNat = f at hlt ⊢
  interval_cases f <;> cases l <;> decide

theorem sop_eq_some {s : SOP} :
    sop word = some s ↔ (funct3 word).toNat = s.funct3.toNat := by
  have hlt := (field_lt word).2.1
  unfold sop
  generalize (funct3 word).toNat = f at hlt ⊢
  interval_cases f <;> cases s <;> decide

theorem aop_eq_some {a : AOP} :
    aop word = some a ↔ (funct3 word).toNat = a.funct3.toNat ∧
      (funct7 word).toNat = a.funct7.toNat := by
  unfold aop
  generalize (funct3 word).toNat = f
  generalize (funct7 word).toNat = g
  constructor
  · intro h
    split at h <;> cases h <;> exact ⟨rfl, rfl⟩
  · rintro ⟨rfl, rfl⟩
    cases a <;> rfl

theorem aopi_eq_some {a : AOP} :
    aopi word = some a ↔ a ≠ .sub ∧ (funct3 word).toNat = a.funct3.toNat ∧
      (a.Shifts → (funct7 word).toNat = a.funct7.toNat) := by
  unfold aopi
  generalize (funct3 word).toNat = f
  generalize (funct7 word).toNat = g
  constructor
  · intro h
    split at h <;> cases h <;>
      exact ⟨nofun, rfl, by first | exact fun _ => rfl | exact fun hs => absurd hs (by decide)⟩
  · rintro ⟨hsub, rfl, hshift⟩
    cases a with
    | sub => exact absurd rfl hsub
    | sll =>
        rw [hshift (by decide)]
        rfl
    | srl =>
        rw [hshift (by decide)]
        rfl
    | sra =>
        rw [hshift (by decide)]
        rfl
    | _ => rfl

/-- The selector of a register. -/
def selector (r : U32) : BitVec 5 := r.setWidth 5

namespace RV32

/-- **The word of an instruction**, by its row of the table; `stars` are the bits for which
the table allows any. -/
def encode (stars : BitVec 25) : RV32 → U32
  | lui rd imm => imm.extractLsb' 12 20 ++ selector rd ++ 0b0110111#7
  | auipc rd imm => imm.extractLsb' 12 20 ++ selector rd ++ 0b0010111#7
  | jal rd imm => imm.extractLsb' 20 1 ++ imm.extractLsb' 1 10 ++ imm.extractLsb' 11 1 ++
      imm.extractLsb' 12 8 ++ selector rd ++ 0b1101111#7
  | jalr rd rs1 imm => imm.extractLsb' 0 12 ++ selector rs1 ++ 0b000#3 ++ selector rd ++
      0b1100111#7
  | br bop rs1 rs2 imm => imm.extractLsb' 12 1 ++ imm.extractLsb' 5 6 ++ selector rs2 ++
      selector rs1 ++ bop.funct3 ++ imm.extractLsb' 1 4 ++ imm.extractLsb' 11 1 ++ 0b1100011#7
  | load lop rd rs1 imm => imm.extractLsb' 0 12 ++ selector rs1 ++ lop.funct3 ++ selector rd ++
      0b0000011#7
  | store sop rs1 rs2 imm => imm.extractLsb' 5 7 ++ selector rs2 ++ selector rs1 ++
      sop.funct3 ++ imm.extractLsb' 0 5 ++ 0b0100011#7
  | alui aop rd rs1 imm =>
      (if aop.Shifts then aop.funct7 ++ imm.extractLsb' 0 5 else imm.extractLsb' 0 12) ++
        selector rs1 ++ aop.funct3 ++ selector rd ++ 0b0010011#7
  | alu aop rd rs1 rs2 => aop.funct7 ++ selector rs2 ++ selector rs1 ++ aop.funct3 ++
      selector rd ++ 0b0110011#7
  | fence => stars ++ 0b0001111#7
  | ecall rd => 0x00000#20 ++ selector rd ++ 0b1110011#7
  | ebreak rd => 0x00100#20 ++ selector rd ++ 0b1110011#7
  | unimp => 0xc0001#20 ++ stars.extractLsb' 0 5 ++ 0b1110011#7

/-- A register number. -/
def IsReg (r : U32) : Prop := r.toNat < 32

/-- A signed immediate of `w + 1` bits. -/
def Fits (w : ℕ) (imm : U32) : Prop := -2 ^ w ≤ imm.toInt ∧ imm.toInt < 2 ^ w

/-- **Operands in range**: register numbers, and the immediates of the instruction's format. -/
def InRange : RV32 → Prop
  | lui rd imm | auipc rd imm => IsReg rd ∧ imm.toNat % 2 ^ 12 = 0
  | jal rd imm => IsReg rd ∧ Fits 20 imm ∧ imm.toNat % 2 = 0
  | jalr rd rs1 imm | load _ rd rs1 imm => IsReg rd ∧ IsReg rs1 ∧ Fits 11 imm
  | br _ rs1 rs2 imm => IsReg rs1 ∧ IsReg rs2 ∧ Fits 12 imm ∧ imm.toNat % 2 = 0
  | store _ rs1 rs2 imm => IsReg rs1 ∧ IsReg rs2 ∧ Fits 11 imm
  | alui aop rd rs1 imm => aop ≠ .sub ∧ IsReg rd ∧ IsReg rs1 ∧
      if aop.Shifts then imm.toNat < 32 else Fits 11 imm
  | alu _ rd rs1 rs2 => IsReg rd ∧ IsReg rs1 ∧ IsReg rs2
  | ecall rd | ebreak rd => IsReg rd
  | fence | unimp => True

/-- The bits for which the table allows any. -/
def DontCare : RV32 → ℕ → Prop
  | fence, j => 7 ≤ j
  | unimp, j => 7 ≤ j ∧ j < 12
  | _, _ => False

end RV32

/-! ## Words as numbers and fields of encoded words -/

theorem toNat_append_eq {m n : ℕ} (x : BitVec m) (y : BitVec n) :
    (x ++ y).toNat = x.toNat * 2 ^ n + y.toNat := by
  rw [BitVec.toNat_append, ← Nat.shiftLeft_add_eq_or_of_lt y.isLt, Nat.shiftLeft_eq]

theorem toNat_extract (x : U32) (start len : ℕ) :
    (x.extractLsb' start len).toNat = x.toNat / 2 ^ start % 2 ^ len := by
  rw [BitVec.extractLsb'_toNat, Nat.shiftRight_eq_div_pow]

theorem toNat_selector (r : U32) : (selector r).toNat = r.toNat % 2 ^ 5 := by
  rw [selector, BitVec.toNat_setWidth]

theorem signPart_eq (word : U32) (mask : ℕ) :
    signPart word mask = word.toNat / 2 ^ 31 * mask := by
  have hmsb : word.getLsbD 31 = decide (2 ^ 31 ≤ word.toNat) :=
    (BitVec.msb_eq_getLsbD_last word).symm.trans (BitVec.msb_eq_decide word)
  have hword := word.isLt
  rw [signPart, hmsb]
  by_cases hle : 2 ^ 31 ≤ word.toNat
  · have hone : word.toNat / 2 ^ 31 = 1 := by omega
    rw [decide_eq_true hle, if_pos rfl, hone, Nat.one_mul]
  · have hzero : word.toNat / 2 ^ 31 = 0 := by omega
    rw [decide_eq_false hle, if_neg Bool.false_ne_true, hzero, Nat.zero_mul]

/-- A word with given fields. -/
structure HasFields (word : U32) (f7 r2 r1 f3 d opc : ℕ) : Prop where
  funct7 : (funct7 word).toNat = f7
  rs2 : (rs2 word).toNat = r2
  rs1 : (rs1 word).toNat = r1
  funct3 : (funct3 word).toNat = f3
  rd : (rd word).toNat = d
  opcode : (opcode word).toNat = opc

variable {f7 r2 r1 f3 d opc : ℕ}

theorem HasFields.toNat_eq (h : HasFields word f7 r2 r1 f3 d opc) : word.toNat =
      f7 * 2 ^ 25 + r2 * 2 ^ 20 + r1 * 2 ^ 15 + f3 * 2 ^ 12 + d * 2 ^ 7 + opc := by
  obtain ⟨e7, e2, e1, e3, ed, ec⟩ := h
  rw [funct7_toNat] at e7
  rw [rs2_toNat] at e2
  rw [rs1_toNat] at e1
  rw [funct3_toNat] at e3
  rw [rd_toNat] at ed
  rw [opcode_toNat] at ec
  have hword := word.isLt
  omega

theorem hasFields_of_toNat (h2 : r2 < 2 ^ 5) (h1 : r1 < 2 ^ 5) (h3 : f3 < 2 ^ 3) (hd : d < 2 ^ 5)
    (hc : opc < 2 ^ 7)
    (h : word.toNat = f7 * 2 ^ 25 + r2 * 2 ^ 20 + r1 * 2 ^ 15 + f3 * 2 ^ 12 + d * 2 ^ 7 + opc) :
    HasFields word f7 r2 r1 f3 d opc := by
  have hword := word.isLt
  constructor
  · rw [funct7_toNat]
    omega
  · rw [rs2_toNat]
    omega
  · rw [rs1_toNat]
    omega
  · rw [funct3_toNat]
    omega
  · rw [rd_toNat]
    omega
  · rw [opcode_toNat]
    omega

/-- Words with the same fields. -/
theorem HasFields.eq (h : HasFields word f7 r2 r1 f3 d opc) {word' : U32}
    (h7 : (NexusVm.funct7 word').toNat = f7) (h2 : (NexusVm.rs2 word').toNat = r2)
    (h1 : (NexusVm.rs1 word').toNat = r1) (h3 : (NexusVm.funct3 word').toNat = f3)
    (hd : (NexusVm.rd word').toNat = d) (hc : (NexusVm.opcode word').toNat = opc) :
    word' = word := by
  apply BitVec.eq_of_toNat_eq
  rw [h.toNat_eq, HasFields.toNat_eq ⟨h7, h2, h1, h3, hd, hc⟩]

/-- A register operand is a field. -/
theorem eq_of_isReg {r r' : U32} (h : RV32.IsReg r) (heq : r'.toNat = r.toNat % 2 ^ 5) :
    r' = r := by
  apply BitVec.eq_of_toNat_eq
  rw [heq]
  exact Nat.mod_eq_of_lt h

namespace RV32

theorem fits_iff {w : ℕ} (hw : w < 31) (imm : U32) :
    Fits w imm ↔ imm.toNat < 2 ^ w ∨ 2 ^ 32 - 2 ^ w ≤ imm.toNat := by
  have hlt := imm.isLt
  have hpow : (2 : ℕ) ^ w < 2 ^ 31 := Nat.pow_lt_pow_right (by decide) hw
  have hcast : ((2 : ℕ) ^ w : ℕ) = ((2 : ℤ) ^ w) := by push_cast; rfl
  unfold Fits
  rw [BitVec.toInt_eq_toNat_cond, ← hcast]
  split_ifs <;> omega

section Rows

variable (stars : BitVec 25)

theorem hasFields_lui (rd imm : U32) : HasFields (encode stars (lui rd imm))
    (imm.toNat / 2 ^ 25) (imm.toNat / 2 ^ 20 % 2 ^ 5) (imm.toNat / 2 ^ 15 % 2 ^ 5)
    (imm.toNat / 2 ^ 12 % 2 ^ 3) (rd.toNat % 2 ^ 5) 0b0110111 := by
  have himm := imm.isLt
  apply hasFields_of_toNat (by omega) (by omega) (by omega) (by omega) (by decide)
  simp only [encode, toNat_append_eq, toNat_extract, toNat_selector, BitVec.toNat_ofNat]
  omega

theorem hasFields_auipc (rd imm : U32) : HasFields (encode stars (auipc rd imm))
    (imm.toNat / 2 ^ 25) (imm.toNat / 2 ^ 20 % 2 ^ 5) (imm.toNat / 2 ^ 15 % 2 ^ 5)
    (imm.toNat / 2 ^ 12 % 2 ^ 3) (rd.toNat % 2 ^ 5) 0b0010111 := by
  have himm := imm.isLt
  apply hasFields_of_toNat (by omega) (by omega) (by omega) (by omega) (by decide)
  simp only [encode, toNat_append_eq, toNat_extract, toNat_selector, BitVec.toNat_ofNat]
  omega

theorem hasFields_jal (rd imm : U32) : HasFields (encode stars (jal rd imm))
    (imm.toNat / 2 ^ 20 % 2 * 2 ^ 6 + imm.toNat / 2 ^ 5 % 2 ^ 6)
    (imm.toNat / 2 % 2 ^ 4 * 2 + imm.toNat / 2 ^ 11 % 2) (imm.toNat / 2 ^ 15 % 2 ^ 5)
    (imm.toNat / 2 ^ 12 % 2 ^ 3) (rd.toNat % 2 ^ 5) 0b1101111 := by
  have hlow : imm.toNat / 2 ^ 1 % 2 ^ 10 =
      imm.toNat / 2 ^ 5 % 2 ^ 6 * 2 ^ 4 + imm.toNat / 2 % 2 ^ 4 := by omega
  have hhigh : imm.toNat / 2 ^ 12 % 2 ^ 8 =
      imm.toNat / 2 ^ 15 % 2 ^ 5 * 2 ^ 3 + imm.toNat / 2 ^ 12 % 2 ^ 3 := by omega
  apply hasFields_of_toNat (by omega) (by omega) (by omega) (by omega) (by decide)
  simp only [encode, toNat_append_eq, toNat_extract, toNat_selector, BitVec.toNat_ofNat, hlow,
    hhigh]
  omega

theorem hasFields_jalr (rd rs1 imm : U32) : HasFields (encode stars (jalr rd rs1 imm))
    (imm.toNat / 2 ^ 5 % 2 ^ 7) (imm.toNat % 2 ^ 5) (rs1.toNat % 2 ^ 5) 0 (rd.toNat % 2 ^ 5)
    0b1100111 := by
  apply hasFields_of_toNat (by omega) (by omega) (by omega) (by omega) (by decide)
  simp only [encode, toNat_append_eq, toNat_extract, toNat_selector, BitVec.toNat_ofNat]
  omega

theorem hasFields_br (bop : BOP) (rs1 rs2 imm : U32) :
    HasFields (encode stars (br bop rs1 rs2 imm))
      (imm.toNat / 2 ^ 12 % 2 * 2 ^ 6 + imm.toNat / 2 ^ 5 % 2 ^ 6) (rs2.toNat % 2 ^ 5)
      (rs1.toNat % 2 ^ 5) bop.funct3.toNat
      (imm.toNat / 2 % 2 ^ 4 * 2 + imm.toNat / 2 ^ 11 % 2) 0b1100011 := by
  have hf3 := bop.funct3.isLt
  apply hasFields_of_toNat (by omega) (by omega) hf3 (by omega) (by decide)
  simp only [encode, toNat_append_eq, toNat_extract, toNat_selector, BitVec.toNat_ofNat]
  omega

theorem hasFields_load (lop : LOP) (rd rs1 imm : U32) :
    HasFields (encode stars (load lop rd rs1 imm)) (imm.toNat / 2 ^ 5 % 2 ^ 7) (imm.toNat % 2 ^ 5)
      (rs1.toNat % 2 ^ 5) lop.funct3.toNat (rd.toNat % 2 ^ 5) 0b0000011 := by
  have hf3 := lop.funct3.isLt
  apply hasFields_of_toNat (by omega) (by omega) hf3 (by omega) (by decide)
  simp only [encode, toNat_append_eq, toNat_extract, toNat_selector, BitVec.toNat_ofNat]
  omega

theorem hasFields_store (sop : SOP) (rs1 rs2 imm : U32) :
    HasFields (encode stars (store sop rs1 rs2 imm)) (imm.toNat / 2 ^ 5 % 2 ^ 7)
      (rs2.toNat % 2 ^ 5) (rs1.toNat % 2 ^ 5) sop.funct3.toNat (imm.toNat % 2 ^ 5)
      0b0100011 := by
  have hf3 := sop.funct3.isLt
  apply hasFields_of_toNat (by omega) (by omega) hf3 (by omega) (by decide)
  simp only [encode, toNat_append_eq, toNat_extract, toNat_selector, BitVec.toNat_ofNat]
  omega

theorem hasFields_alui (aop : AOP) (rd rs1 imm : U32) :
    HasFields (encode stars (alui aop rd rs1 imm))
      (if aop.Shifts then aop.funct7.toNat else imm.toNat / 2 ^ 5 % 2 ^ 7) (imm.toNat % 2 ^ 5)
      (rs1.toNat % 2 ^ 5) aop.funct3.toNat (rd.toNat % 2 ^ 5) 0b0010011 := by
  have hf3 := aop.funct3.isLt
  apply hasFields_of_toNat (by omega) (by omega) hf3 (by omega) (by decide)
  by_cases hshift : aop.Shifts
  · simp only [encode, if_pos hshift, toNat_append_eq, toNat_extract, toNat_selector,
      BitVec.toNat_ofNat]
    omega
  · simp only [encode, if_neg hshift, toNat_append_eq, toNat_extract, toNat_selector,
      BitVec.toNat_ofNat]
    omega

theorem hasFields_alu (aop : AOP) (rd rs1 rs2 : U32) :
    HasFields (encode stars (alu aop rd rs1 rs2)) aop.funct7.toNat (rs2.toNat % 2 ^ 5)
      (rs1.toNat % 2 ^ 5) aop.funct3.toNat (rd.toNat % 2 ^ 5) 0b0110011 := by
  have hf3 := aop.funct3.isLt
  apply hasFields_of_toNat (by omega) (by omega) hf3 (by omega) (by decide)
  simp only [encode, toNat_append_eq, toNat_selector, BitVec.toNat_ofNat]
  omega

theorem hasFields_fence : HasFields (encode stars fence) (stars.toNat / 2 ^ 18)
    (stars.toNat / 2 ^ 13 % 2 ^ 5) (stars.toNat / 2 ^ 8 % 2 ^ 5) (stars.toNat / 2 ^ 5 % 2 ^ 3)
    (stars.toNat % 2 ^ 5) 0b0001111 := by
  have hstars := stars.isLt
  apply hasFields_of_toNat (by omega) (by omega) (by omega) (by omega) (by decide)
  simp only [encode, toNat_append_eq, BitVec.toNat_ofNat]
  omega

theorem hasFields_ecall (rd : U32) :
    HasFields (encode stars (ecall rd)) 0 0 0 0 (rd.toNat % 2 ^ 5) 0b1110011 := by
  apply hasFields_of_toNat (by decide) (by decide) (by decide) (by omega) (by decide)
  simp only [encode, toNat_append_eq, toNat_selector, BitVec.toNat_ofNat]
  omega

theorem hasFields_ebreak (rd : U32) :
    HasFields (encode stars (ebreak rd)) 0 1 0 0 (rd.toNat % 2 ^ 5) 0b1110011 := by
  apply hasFields_of_toNat (by decide) (by decide) (by decide) (by omega) (by decide)
  simp only [encode, toNat_append_eq, toNat_selector, BitVec.toNat_ofNat]
  omega

theorem hasFields_unimp :
    HasFields (encode stars unimp) 96 0 0 1 (stars.toNat % 2 ^ 5) 0b1110011 := by
  have hlow : (stars.extractLsb' 0 5).toNat = stars.toNat % 2 ^ 5 := by
    rw [BitVec.extractLsb'_toNat, Nat.shiftRight_zero]
  apply hasFields_of_toNat (by decide) (by decide) (by decide) (by omega) (by decide)
  simp only [encode, toNat_append_eq, hlow, BitVec.toNat_ofNat]
  omega

end Rows

/-! ## Immediates and their fields -/

theorem immU_fields (word : U32) : (immU word).toNat / 2 ^ 25 = (funct7 word).toNat ∧
    (immU word).toNat / 2 ^ 20 % 2 ^ 5 = (rs2 word).toNat ∧
    (immU word).toNat / 2 ^ 15 % 2 ^ 5 = (rs1 word).toNat ∧
    (immU word).toNat / 2 ^ 12 % 2 ^ 3 = (funct3 word).toNat ∧
    (immU word).toNat % 2 ^ 12 = 0 := by
  have hword := word.isLt
  rw [immU_toNat, funct7_toNat, rs2_toNat, rs1_toNat, funct3_toNat]
  omega

theorem immI_fields (word : U32) : (immI word).toNat / 2 ^ 5 % 2 ^ 7 = (funct7 word).toNat ∧
    (immI word).toNat % 2 ^ 5 = (rs2 word).toNat ∧ Fits 11 (immI word) := by
  have hword := word.isLt
  rw [fits_iff (by decide), immI_toNat, signPart_eq, funct7_toNat, rs2_toNat]
  omega

theorem immS_fields (word : U32) : (immS word).toNat / 2 ^ 5 % 2 ^ 7 = (funct7 word).toNat ∧
    (immS word).toNat % 2 ^ 5 = (NexusVm.rd word).toNat ∧ Fits 11 (immS word) := by
  have hword := word.isLt
  rw [fits_iff (by decide), immS_toNat, signPart_eq, funct7_toNat, rd_toNat]
  omega

theorem immB_fields (word : U32) :
    (immB word).toNat / 2 ^ 12 % 2 * 2 ^ 6 + (immB word).toNat / 2 ^ 5 % 2 ^ 6 =
        (funct7 word).toNat ∧
      (immB word).toNat / 2 % 2 ^ 4 * 2 + (immB word).toNat / 2 ^ 11 % 2 =
        (NexusVm.rd word).toNat ∧
      Fits 12 (immB word) ∧ (immB word).toNat % 2 = 0 := by
  have hword := word.isLt
  have h7 : word.toNat / 2 ^ 25 % 2 ^ 7 =
      word.toNat / 2 ^ 31 * 2 ^ 6 + word.toNat / 2 ^ 25 % 2 ^ 6 := by omega
  have hd : word.toNat / 2 ^ 7 % 2 ^ 5 =
      word.toNat / 2 ^ 8 % 2 ^ 4 * 2 + word.toNat / 2 ^ 7 % 2 := by omega
  have hbit : word.toNat / 2 ^ 31 < 2 := by omega
  rw [fits_iff (by decide), immB_toNat, signPart_eq, funct7_toNat, rd_toNat, h7, hd]
  generalize word.toNat / 2 ^ 31 = sign at hbit ⊢
  have hlow : word.toNat / 2 ^ 8 % 2 ^ 4 < 2 ^ 4 := Nat.mod_lt _ (by decide)
  have hmid : word.toNat / 2 ^ 25 % 2 ^ 6 < 2 ^ 6 := Nat.mod_lt _ (by decide)
  have htop : word.toNat / 2 ^ 7 % 2 < 2 := Nat.mod_lt _ (by decide)
  generalize word.toNat / 2 ^ 8 % 2 ^ 4 = low at hlow ⊢
  generalize word.toNat / 2 ^ 25 % 2 ^ 6 = mid at hmid ⊢
  generalize word.toNat / 2 ^ 7 % 2 = top at htop ⊢
  omega

theorem immJ_fields (word : U32) :
    (immJ word).toNat / 2 ^ 20 % 2 * 2 ^ 6 + (immJ word).toNat / 2 ^ 5 % 2 ^ 6 =
        (funct7 word).toNat ∧
      (immJ word).toNat / 2 % 2 ^ 4 * 2 + (immJ word).toNat / 2 ^ 11 % 2 = (rs2 word).toNat ∧
      (immJ word).toNat / 2 ^ 15 % 2 ^ 5 = (rs1 word).toNat ∧
      (immJ word).toNat / 2 ^ 12 % 2 ^ 3 = (funct3 word).toNat ∧
      Fits 20 (immJ word) ∧ (immJ word).toNat % 2 = 0 := by
  have hword := word.isLt
  have h7 : word.toNat / 2 ^ 25 % 2 ^ 7 =
      word.toNat / 2 ^ 31 * 2 ^ 6 + word.toNat / 2 ^ 21 % 2 ^ 10 / 2 ^ 4 := by omega
  have h2 : word.toNat / 2 ^ 20 % 2 ^ 5 =
      word.toNat / 2 ^ 21 % 2 ^ 10 % 2 ^ 4 * 2 + word.toNat / 2 ^ 20 % 2 := by omega
  have h1 : word.toNat / 2 ^ 15 % 2 ^ 5 = word.toNat / 2 ^ 12 % 2 ^ 8 / 2 ^ 3 := by omega
  have h3 : word.toNat / 2 ^ 12 % 2 ^ 3 = word.toNat / 2 ^ 12 % 2 ^ 8 % 2 ^ 3 := by omega
  have hbit : word.toNat / 2 ^ 31 < 2 := by omega
  rw [fits_iff (by decide), immJ_toNat, signPart_eq, funct7_toNat, rs2_toNat, rs1_toNat,
    funct3_toNat, h7, h2, h1, h3]
  generalize word.toNat / 2 ^ 31 = sign at hbit ⊢
  have hlow : word.toNat / 2 ^ 21 % 2 ^ 10 < 2 ^ 10 := Nat.mod_lt _ (by decide)
  have hmid : word.toNat / 2 ^ 20 % 2 < 2 := Nat.mod_lt _ (by decide)
  have htop : word.toNat / 2 ^ 12 % 2 ^ 8 < 2 ^ 8 := Nat.mod_lt _ (by decide)
  generalize word.toNat / 2 ^ 21 % 2 ^ 10 = low at hlow ⊢
  generalize word.toNat / 2 ^ 20 % 2 = mid at hmid ⊢
  generalize word.toNat / 2 ^ 12 % 2 ^ 8 = top at htop ⊢
  omega

/-- Signed immediates in range are given by their low bits. -/
theorem Fits.eq {w : ℕ} (hw : w < 31) {a b : U32} (ha : Fits w a) (hb : Fits w b)
    (h : a.toNat % 2 ^ (w + 1) = b.toNat % 2 ^ (w + 1)) : a = b := by
  have hsub : (2 : ℕ) ^ 32 = 2 ^ (w + 1) * 2 ^ (31 - w) := by
    rw [← pow_add, show w + 1 + (31 - w) = 32 by omega]
  have hsucc : (2 : ℕ) ^ (w + 1) = 2 * 2 ^ w := pow_succ' 2 w
  have hpos := Nat.two_pow_pos w
  have hlow : ∀ c : U32, c.toNat < 2 ^ w → c.toNat % 2 ^ (w + 1) = c.toNat := by
    intro c hc
    exact Nat.mod_eq_of_lt (by omega)
  have hhigh : ∀ c : U32, 2 ^ 32 - 2 ^ w ≤ c.toNat →
      c.toNat % 2 ^ (w + 1) = c.toNat + 2 ^ (w + 1) - 2 ^ 32 := by
    intro c hc
    have hlt := c.isLt
    have hmul : 2 ^ (w + 1) * (2 ^ (31 - w) - 1) = 2 ^ 32 - 2 ^ (w + 1) := by
      rw [Nat.mul_sub, Nat.mul_one, ← hsub]
    have hle : (2 : ℕ) ^ (w + 1) ≤ 2 ^ 32 := Nat.pow_le_pow_right (by decide) (by omega)
    have hc' : c.toNat = 2 ^ (w + 1) * (2 ^ (31 - w) - 1) + (c.toNat + 2 ^ (w + 1) - 2 ^ 32) := by
      omega
    rw [hc', Nat.mul_add_mod, Nat.mod_eq_of_lt (by omega)]
    omega
  have halt := a.isLt
  have hblt := b.isLt
  apply BitVec.eq_of_toNat_eq
  rw [fits_iff hw] at ha hb
  rcases ha with ha | ha <;> rcases hb with hb | hb
  · rwa [hlow a ha, hlow b hb] at h
  · rw [hlow a ha, hhigh b hb] at h
    omega
  · rw [hhigh a ha, hlow b hb] at h
    omega
  · rw [hhigh a ha, hhigh b hb] at h
    omega

/-- Twenty-one bits in the groups of the row for `jal`. -/
theorem mod_two_pow_21 (v : ℕ) : v % 2 ^ 21 = v / 2 ^ 20 % 2 * 2 ^ 20 +
    v / 2 ^ 15 % 2 ^ 5 * 2 ^ 15 + v / 2 ^ 12 % 2 ^ 3 * 2 ^ 12 + v / 2 ^ 11 % 2 * 2 ^ 11 +
    v / 2 ^ 5 % 2 ^ 6 * 2 ^ 5 + v / 2 % 2 ^ 4 * 2 + v % 2 := by
  have h5 : v % 2 ^ 5 = v / 2 % 2 ^ 4 * 2 + v % 2 := by omega
  have h11 : v % 2 ^ 11 = v / 2 ^ 5 % 2 ^ 6 * 2 ^ 5 + v % 2 ^ 5 := by omega
  have h15 : v % 2 ^ 15 = v / 2 ^ 12 % 2 ^ 3 * 2 ^ 12 + v / 2 ^ 11 % 2 * 2 ^ 11 + v % 2 ^ 11 := by
    omega
  omega

/-- Thirteen bits in the groups of the rows for branches. -/
theorem mod_two_pow_13 (v : ℕ) : v % 2 ^ 13 = v / 2 ^ 12 % 2 * 2 ^ 12 +
    v / 2 ^ 11 % 2 * 2 ^ 11 + v / 2 ^ 5 % 2 ^ 6 * 2 ^ 5 + v / 2 % 2 ^ 4 * 2 + v % 2 := by
  have h5 : v % 2 ^ 5 = v / 2 % 2 ^ 4 * 2 + v % 2 := by omega
  have h11 : v % 2 ^ 11 = v / 2 ^ 5 % 2 ^ 6 * 2 ^ 5 + v % 2 ^ 5 := by omega
  omega

/-! ## The decoder and the table -/

/-- The part of a word above the destination. -/
theorem upper_toNat {word : U32} {f7 r2 r1 f3 d opc : ℕ} (h : HasFields word f7 r2 r1 f3 d opc) :
    (word >>> 12).toNat = f7 * 2 ^ 13 + r2 * 2 ^ 8 + r1 * 2 ^ 3 + f3 := by
  have hword := h.toNat_eq
  have hlt := field_lt word
  rw [h.rd, h.opcode] at hlt
  rw [BitVec.toNat_ushiftRight, Nat.shiftRight_eq_div_pow]
  omega

/-- **The decoder reads the table**: the word of an instruction in range. -/
theorem parses_encode (stars : BitVec 25) {i : RV32} (h : i.InRange) :
    Parses (encode stars i) i := by
  cases i with
  | lui rd imm =>
      obtain ⟨hrd, himm⟩ := h
      have hf := hasFields_lui stars rd imm
      have hparses := Parses.lui hf.opcode
      obtain ⟨h7, h2, h1, h3, hlow⟩ := immU_fields (encode stars (lui rd imm))
      rw [hf.funct7] at h7
      rw [hf.rs2] at h2
      rw [hf.rs1] at h1
      rw [hf.funct3] at h3
      have hU : immU (encode stars (lui rd imm)) = imm := by
        apply BitVec.eq_of_toNat_eq
        omega
      rwa [eq_of_isReg hrd hf.rd, hU] at hparses
  | auipc rd imm =>
      obtain ⟨hrd, himm⟩ := h
      have hf := hasFields_auipc stars rd imm
      have hparses := Parses.auipc hf.opcode
      obtain ⟨h7, h2, h1, h3, hlow⟩ := immU_fields (encode stars (auipc rd imm))
      rw [hf.funct7] at h7
      rw [hf.rs2] at h2
      rw [hf.rs1] at h1
      rw [hf.funct3] at h3
      have hU : immU (encode stars (auipc rd imm)) = imm := by
        apply BitVec.eq_of_toNat_eq
        omega
      rwa [eq_of_isReg hrd hf.rd, hU] at hparses
  | jal rd imm =>
      obtain ⟨hrd, himm, heven⟩ := h
      have hf := hasFields_jal stars rd imm
      have hparses := Parses.jal hf.opcode
      obtain ⟨h7, h2, h1, h3, hfits, heven'⟩ := immJ_fields (encode stars (jal rd imm))
      rw [hf.funct7] at h7
      rw [hf.rs2] at h2
      rw [hf.rs1] at h1
      rw [hf.funct3] at h3
      have hJ : immJ (encode stars (jal rd imm)) = imm := by
        apply hfits.eq (by decide) himm
        have hsign : (immJ (encode stars (jal rd imm))).toNat / 2 ^ 20 % 2 =
            imm.toNat / 2 ^ 20 % 2 := by omega
        have hmid : (immJ (encode stars (jal rd imm))).toNat / 2 ^ 11 % 2 =
            imm.toNat / 2 ^ 11 % 2 := by omega
        rw [mod_two_pow_21, mod_two_pow_21, hsign, hmid, h1, h3, heven, heven']
        omega
      rwa [eq_of_isReg hrd hf.rd, hJ] at hparses
  | jalr rd rs1 imm =>
      obtain ⟨hrd, hrs1, himm⟩ := h
      have hf := hasFields_jalr stars rd rs1 imm
      have hparses := Parses.jalr hf.opcode (BitVec.eq_of_toNat_eq hf.funct3)
      obtain ⟨h7, h2, hfits⟩ := immI_fields (encode stars (jalr rd rs1 imm))
      rw [hf.funct7] at h7
      rw [hf.rs2] at h2
      have hI : immI (encode stars (jalr rd rs1 imm)) = imm :=
        hfits.eq (by decide) himm (by omega)
      rwa [eq_of_isReg hrd hf.rd, eq_of_isReg hrs1 hf.rs1, hI] at hparses
  | br bop rs1 rs2 imm =>
      obtain ⟨hrs1, hrs2, himm, heven⟩ := h
      have hf := hasFields_br stars bop rs1 rs2 imm
      have hparses := Parses.br hf.opcode (bop_eq_some.mpr hf.funct3)
      obtain ⟨h7, hd, hfits, heven'⟩ := immB_fields (encode stars (br bop rs1 rs2 imm))
      rw [hf.funct7] at h7
      rw [hf.rd] at hd
      have hB : immB (encode stars (br bop rs1 rs2 imm)) = imm := by
        apply hfits.eq (by decide) himm
        have hsign : (immB (encode stars (br bop rs1 rs2 imm))).toNat / 2 ^ 12 % 2 =
            imm.toNat / 2 ^ 12 % 2 := by omega
        have hmid : (immB (encode stars (br bop rs1 rs2 imm))).toNat / 2 ^ 11 % 2 =
            imm.toNat / 2 ^ 11 % 2 := by omega
        rw [mod_two_pow_13, mod_two_pow_13, hsign, hmid, heven, heven']
        omega
      rwa [eq_of_isReg hrs1 hf.rs1, eq_of_isReg hrs2 hf.rs2, hB] at hparses
  | load lop rd rs1 imm =>
      obtain ⟨hrd, hrs1, himm⟩ := h
      have hf := hasFields_load stars lop rd rs1 imm
      have hparses := Parses.load hf.opcode (lop_eq_some.mpr hf.funct3)
      obtain ⟨h7, h2, hfits⟩ := immI_fields (encode stars (load lop rd rs1 imm))
      rw [hf.funct7] at h7
      rw [hf.rs2] at h2
      have hI : immI (encode stars (load lop rd rs1 imm)) = imm :=
        hfits.eq (by decide) himm (by omega)
      rwa [eq_of_isReg hrd hf.rd, eq_of_isReg hrs1 hf.rs1, hI] at hparses
  | store sop rs1 rs2 imm =>
      obtain ⟨hrs1, hrs2, himm⟩ := h
      have hf := hasFields_store stars sop rs1 rs2 imm
      have hparses := Parses.store hf.opcode (sop_eq_some.mpr hf.funct3)
      obtain ⟨h7, hd, hfits⟩ := immS_fields (encode stars (store sop rs1 rs2 imm))
      rw [hf.funct7] at h7
      rw [hf.rd] at hd
      have hS : immS (encode stars (store sop rs1 rs2 imm)) = imm :=
        hfits.eq (by decide) himm (by omega)
      rwa [eq_of_isReg hrs1 hf.rs1, eq_of_isReg hrs2 hf.rs2, hS] at hparses
  | alui aop rd rs1 imm =>
      obtain ⟨hsub, hrd, hrs1, himm⟩ := h
      have hf := hasFields_alui stars aop rd rs1 imm
      have haop : aopi (encode stars (alui aop rd rs1 imm)) = some aop := by
        refine aopi_eq_some.mpr ⟨hsub, hf.funct3, fun hshift => ?_⟩
        rw [hf.funct7, if_pos hshift]
      have hparses := Parses.alui hf.opcode haop
      have hA : immA (encode stars (alui aop rd rs1 imm)) = imm := by
        rw [immA_eq, hf.funct3]
        by_cases hshift : aop.Shifts
        · rw [if_pos hshift] at himm
          rw [if_pos (shifts_iff hsub |>.mp hshift)]
          exact eq_of_isReg himm hf.rs2
        · rw [if_neg hshift] at himm
          rw [if_neg fun hf3 => hshift ((shifts_iff hsub).mpr hf3)]
          obtain ⟨h7, h2, hfits⟩ := immI_fields (encode stars (alui aop rd rs1 imm))
          rw [hf.funct7, if_neg hshift] at h7
          rw [hf.rs2] at h2
          exact hfits.eq (by decide) himm (by omega)
      rwa [eq_of_isReg hrd hf.rd, eq_of_isReg hrs1 hf.rs1, hA] at hparses
  | alu aop rd rs1 rs2 =>
      obtain ⟨hrd, hrs1, hrs2⟩ := h
      have hf := hasFields_alu stars aop rd rs1 rs2
      have hparses := Parses.alu hf.opcode (aop_eq_some.mpr ⟨hf.funct3, hf.funct7⟩)
      rwa [eq_of_isReg hrd hf.rd, eq_of_isReg hrs1 hf.rs1, eq_of_isReg hrs2 hf.rs2] at hparses
  | fence => exact Parses.fence (hasFields_fence stars).opcode
  | ecall rd =>
      have hf := hasFields_ecall stars rd
      have hparses := Parses.ecall hf.opcode (upper_toNat hf)
      rwa [eq_of_isReg h hf.rd] at hparses
  | ebreak rd =>
      have hf := hasFields_ebreak stars rd
      have hparses := Parses.ebreak hf.opcode (upper_toNat hf)
      rwa [eq_of_isReg h hf.rd] at hparses
  | unimp => exact Parses.unimp (hasFields_unimp stars).opcode (upper_toNat (hasFields_unimp stars))

theorem toNat_eq_upper (word : U32) : word.toNat =
    (word >>> 12).toNat * 2 ^ 12 + (NexusVm.rd word).toNat * 2 ^ 7 + (opcode word).toNat := by
  rw [BitVec.toNat_ushiftRight, Nat.shiftRight_eq_div_pow, rd_toNat, opcode_toNat]
  omega

/-- **A word that parses is in the table**: it is the word of its instruction. -/
theorem encode_of_parses {word : U32} {i : RV32} (h : Parses word i) :
    i.InRange ∧ ∃ stars, word = encode stars i := by
  obtain ⟨-, -, -, hrd, hrs1, hrs2, hshamt⟩ := field_lt word
  have hreg : ∀ {r : U32}, r.toNat < 32 → r.toNat = r.toNat % 2 ^ 5 :=
    fun hr => (Nat.mod_eq_of_lt hr).symm
  cases h with
  | lui hopc =>
      obtain ⟨h7, h2, h1, h3, hlow⟩ := immU_fields word
      exact ⟨⟨hrd, hlow⟩, 0, (hasFields_lui 0 _ _).eq h7.symm h2.symm h1.symm h3.symm
        (hreg hrd) hopc⟩
  | auipc hopc =>
      obtain ⟨h7, h2, h1, h3, hlow⟩ := immU_fields word
      exact ⟨⟨hrd, hlow⟩, 0, (hasFields_auipc 0 _ _).eq h7.symm h2.symm h1.symm h3.symm
        (hreg hrd) hopc⟩
  | jal hopc =>
      obtain ⟨h7, h2, h1, h3, hfits, heven⟩ := immJ_fields word
      exact ⟨⟨hrd, hfits, heven⟩, 0, (hasFields_jal 0 _ _).eq h7.symm h2.symm h1.symm h3.symm
        (hreg hrd) hopc⟩
  | jalr hopc hf3 =>
      obtain ⟨h7, h2, hfits⟩ := immI_fields word
      exact ⟨⟨hrd, hrs1, hfits⟩, 0, (hasFields_jalr 0 _ _ _).eq h7.symm h2.symm (hreg hrs1)
        (congrArg BitVec.toNat hf3) (hreg hrd) hopc⟩
  | br hopc hb =>
      obtain ⟨h7, hd, hfits, heven⟩ := immB_fields word
      exact ⟨⟨hrs1, hrs2, hfits, heven⟩, 0, (hasFields_br 0 _ _ _ _).eq h7.symm (hreg hrs2)
        (hreg hrs1) (bop_eq_some.mp hb) hd.symm hopc⟩
  | load hopc hl =>
      obtain ⟨h7, h2, hfits⟩ := immI_fields word
      exact ⟨⟨hrd, hrs1, hfits⟩, 0, (hasFields_load 0 _ _ _ _).eq h7.symm h2.symm (hreg hrs1)
        (lop_eq_some.mp hl) (hreg hrd) hopc⟩
  | store hopc hs =>
      obtain ⟨h7, hd, hfits⟩ := immS_fields word
      exact ⟨⟨hrs1, hrs2, hfits⟩, 0, (hasFields_store 0 _ _ _ _).eq h7.symm (hreg hrs2)
        (hreg hrs1) (sop_eq_some.mp hs) hd.symm hopc⟩
  | @alui hopc aop ha =>
      obtain ⟨hsub, hf3, hshift⟩ := aopi_eq_some.mp ha
      have himm := immA_eq word
      rw [hf3] at himm
      by_cases hs : aop.Shifts
      · rw [if_pos ((shifts_iff hsub).mp hs)] at himm
        rw [himm]
        refine ⟨⟨hsub, hrd, hrs1, by rwa [if_pos hs]⟩, 0, ?_⟩
        refine (hasFields_alui 0 aop _ _ _).eq ?_ (hreg hrs2) (hreg hrs1) hf3 (hreg hrd) hopc
        rw [if_pos hs]
        exact hshift hs
      · rw [if_neg fun hf => hs ((shifts_iff hsub).mpr hf)] at himm
        rw [himm]
        obtain ⟨h7, h2, hfits⟩ := immI_fields word
        refine ⟨⟨hsub, hrd, hrs1, by rwa [if_neg hs]⟩, 0, ?_⟩
        refine (hasFields_alui 0 aop _ _ _).eq ?_ h2.symm (hreg hrs1) hf3 (hreg hrd) hopc
        rw [if_neg hs]
        exact h7.symm
  | alu hopc ha =>
      obtain ⟨hf3, hf7⟩ := aop_eq_some.mp ha
      exact ⟨⟨hrd, hrs1, hrs2⟩, 0, (hasFields_alu 0 _ _ _ _).eq hf7 (hreg hrs2) (hreg hrs1) hf3
        (hreg hrd) hopc⟩
  | fence hopc =>
      refine ⟨trivial, word.extractLsb' 7 25, ?_⟩
      rw [opcode_toNat] at hopc
      apply BitVec.eq_of_toNat_eq
      simp only [encode, toNat_append_eq, toNat_extract, BitVec.toNat_ofNat]
      have hword := word.isLt
      have hopc' : word.toNat % 2 ^ 7 = 0b0001111 := hopc
      omega
  | ecall hopc hupper =>
      refine ⟨hrd, 0, BitVec.eq_of_toNat_eq ?_⟩
      rw [toNat_eq_upper word, hupper, hopc]
      simp only [encode, toNat_append_eq, toNat_selector, BitVec.toNat_ofNat, opcEcall]
      omega
  | ebreak hopc hupper =>
      refine ⟨hrd, 0, BitVec.eq_of_toNat_eq ?_⟩
      rw [toNat_eq_upper word, hupper, hopc]
      simp only [encode, toNat_append_eq, toNat_selector, BitVec.toNat_ofNat, opcEcall]
      omega
  | unimp hopc hupper =>
      refine ⟨trivial, (NexusVm.rd word).setWidth 25, BitVec.eq_of_toNat_eq ?_⟩
      have hlow : (((NexusVm.rd word).setWidth 25).extractLsb' 0 5).toNat =
          (NexusVm.rd word).toNat := by
        rw [BitVec.extractLsb'_toNat, Nat.shiftRight_zero, BitVec.toNat_setWidth]
        omega
      rw [toNat_eq_upper word, hupper, hopc]
      simp only [encode, toNat_append_eq, hlow, BitVec.toNat_ofNat, opcEcall]
      omega

end RV32

theorem parseU32_of_parses {i : RV32} (h : Parses word i) :
    parseU32 word = some i := by
  unfold parseU32
  cases h with
  | lui hopc => rw [hopc]; rfl
  | auipc hopc => rw [hopc]; rfl
  | jal hopc => rw [hopc]; rfl
  | jalr hopc hf3 => rw [hopc, hf3]; rfl
  | br hopc hb => rw [hopc, hb]; rfl
  | load hopc hl => rw [hopc, hl]; rfl
  | store hopc hs => rw [hopc, hs]; rfl
  | alui hopc ha => rw [hopc, ha]; rfl
  | alu hopc ha => rw [hopc, ha]; rfl
  | fence hopc => rw [hopc]; rfl
  | ecall hopc hupper => rw [hopc, hupper]; rfl
  | ebreak hopc hupper => rw [hopc, hupper]; rfl
  | unimp hopc hupper => rw [hopc, hupper]; rfl

/-- The decoder succeeds on the words of instructions in range. -/
theorem parseU32_eq_some {i : RV32} :
    parseU32 word = some i ↔ i.InRange ∧ ∃ stars, word = i.encode stars := by
  constructor
  · intro h
    exact RV32.encode_of_parses (parses_of_parseU32 h)
  · rintro ⟨hrange, stars, rfl⟩
    exact parseU32_of_parses (RV32.parses_encode stars hrange)

/-- The stars of a row change only its don't-care bits. -/
theorem RV32.getLsbD_encode (i : RV32) (stars stars' : BitVec 25) {j : ℕ}
    (h : ¬ i.DontCare j) : (i.encode stars).getLsbD j = (i.encode stars').getLsbD j := by
  cases i with
  | fence =>
      have hj : j < 7 := not_le.mp h
      simp only [encode, BitVec.getLsbD_append, hj, if_true]
  | unimp =>
      rw [DontCare, not_and_or, not_le, not_lt] at h
      simp only [encode, BitVec.getLsbD_append]
      rcases h with hj | hj
      · simp only [hj, if_true]
      · have h7 : ¬ j < 7 := by omega
        have h5 : ¬ j - 7 < 5 := by omega
        simp only [h7, h5, if_false]
  | _ => rfl

/-- **The decoder is the inverse of the table**: it succeeds exactly on the words of the
table, it gives back an instruction from any of its words, and a word from its instruction
up to the don't-care bits. -/
theorem decode_inverse :
    (∀ word, (parseU32 word).isSome ↔
        ∃ (i : RV32) (stars : BitVec 25), i.InRange ∧ word = i.encode stars) ∧
      (∀ (i : RV32) (stars : BitVec 25), i.InRange → parseU32 (i.encode stars) = some i) ∧
      ∀ (word : U32) (i : RV32) (stars : BitVec 25), parseU32 word = some i → ∀ j, ¬ i.DontCare j →
        (i.encode stars).getLsbD j = word.getLsbD j := by
  refine ⟨fun word => ?_, fun i stars hrange => ?_, fun word i stars h j hj => ?_⟩
  · rw [Option.isSome_iff_exists]
    constructor
    · rintro ⟨i, h⟩
      obtain ⟨hrange, stars, hword⟩ := parseU32_eq_some.mp h
      exact ⟨i, stars, hrange, hword⟩
    · rintro ⟨i, stars, hrange, hword⟩
      exact ⟨i, parseU32_eq_some.mpr ⟨hrange, stars, hword⟩⟩
  · exact parseU32_eq_some.mpr ⟨hrange, stars, rfl⟩
  · obtain ⟨-, stars', rfl⟩ := parseU32_eq_some.mp h
    exact i.getLsbD_encode stars stars' hj

/-- A branch back by four bytes. -/
theorem decode_inverse_beq : (RV32.br .beq 5 6 0xfffffffc).encode 0 = 0xfe628ee3 ∧
    parseU32 0xfe628ee3 = some (.br .beq 5 6 0xfffffffc) := by
  have hrange : (RV32.br .beq 5 6 0xfffffffc).InRange := by
    refine ⟨?_, ?_, ?_, ?_⟩
    · show (5 : U32).toNat < 32
      decide
    · show (6 : U32).toNat < 32
      decide
    · rw [RV32.fits_iff (by decide)]
      decide
    · decide
  exact ⟨by decide, decode_inverse.2.1 (.br .beq 5 6 0xfffffffc) 0 hrange⟩

end NexusVm
