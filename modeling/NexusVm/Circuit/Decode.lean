import NexusVm.Circuit.Riscv
import NexusVm.Rv32.Encoding

/-!
# Decoding in the circuit

The rows of `parse_J` select an instruction by the opcode, `funct3` and single
bits of the word, and check `funct7` for some selectors.  `Decodes` says that
exactly one selector fits a word; each word that parses decodes to its index.
-/

namespace NexusVm.Circuit

/-- The parts of a word that the selectors look at. -/
structure Key where
  opc : ℕ
  f3 : ℕ
  f7 : ℕ
  b12 : Bool
  b20 : Bool
  b30 : Bool

def keyOf (word : U32) : Key where
  opc := (opcode word).toNat
  f3 := (funct3 word).toNat
  f7 := (funct7 word).toNat
  b12 := word.getLsbD 12
  b20 := word.getLsbD 20
  b30 := word.getLsbD 30

/-- The product that the row for selector `j` equates with it; selector 20 has
no row. -/
def selects (k : Key) : ℕ → Bool
  | 1 => k.opc == 55
  | 2 => k.opc == 23
  | 3 => k.opc == 111
  | 4 => k.opc == 103
  | 5 => k.opc == 99 && k.f3 == 0
  | 6 => k.opc == 99 && k.f3 == 1
  | 7 => k.opc == 99 && k.f3 == 4
  | 8 => k.opc == 99 && k.f3 == 5
  | 9 => k.opc == 99 && k.f3 == 6
  | 10 => k.opc == 99 && k.f3 == 7
  | 11 => k.opc == 3 && k.f3 == 0
  | 12 => k.opc == 3 && k.f3 == 1
  | 13 => k.opc == 3 && k.f3 == 2
  | 14 => k.opc == 3 && k.f3 == 4
  | 15 => k.opc == 3 && k.f3 == 5
  | 16 => k.opc == 35 && k.f3 == 0
  | 17 => k.opc == 35 && k.f3 == 1
  | 18 => k.opc == 35 && k.f3 == 2
  | 19 => k.opc == 19 && k.f3 == 0
  | 21 => k.opc == 19 && k.f3 == 1
  | 22 => k.opc == 19 && k.f3 == 2
  | 23 => k.opc == 19 && k.f3 == 3
  | 24 => k.opc == 19 && k.f3 == 4
  | 25 => k.opc == 19 && (k.f3 == 5 && !k.b30)
  | 26 => k.opc == 19 && (k.f3 == 5 && k.b30)
  | 27 => k.opc == 19 && k.f3 == 6
  | 28 => k.opc == 19 && k.f3 == 7
  | 29 => k.opc == 51 && (k.f3 == 0 && !k.b30)
  | 30 => k.opc == 51 && (k.f3 == 0 && k.b30)
  | 31 => k.opc == 51 && k.f3 == 1
  | 32 => k.opc == 51 && k.f3 == 2
  | 33 => k.opc == 51 && k.f3 == 3
  | 34 => k.opc == 51 && k.f3 == 4
  | 35 => k.opc == 51 && (k.f3 == 5 && !k.b30)
  | 36 => k.opc == 51 && (k.f3 == 5 && k.b30)
  | 37 => k.opc == 51 && k.f3 == 6
  | 38 => k.opc == 51 && k.f3 == 7
  | 39 => k.opc == 15
  | 40 => k.opc == 115 && (!k.b12 && !k.b20)
  | 41 => k.opc == 115 && k.b20
  | 42 => k.opc == 115 && k.b12
  | _ => false

/-- The check on `funct7`, or `funct3`, that goes with selector `j`. -/
def checks (k : Key) (j : ℕ) : Bool :=
  match j with
  | 4 => k.f3 == 0
  | 21 | 25 | 29 | 31 | 32 | 33 | 34 | 35 | 37 | 38 => k.f7 == 0
  | 26 | 30 | 36 => k.f7 == 32
  | _ => true

/-- Selector `J` is the one that fits. -/
def decodes (k : Key) (J : ℕ) : Bool :=
  ((List.range' 1 RV32.maxJ).all fun j => j == 20 || selects k j == (j == J)) &&
    (List.range' 1 RV32.maxJ).contains J && checks k J

/-- `parseU32` as a function of the key and of the upper 20 bits. -/
def indexOfKey (k : Key) (upper : ℕ) : Option ℕ :=
  match k.opc with
  | 55 => some 1
  | 23 => some 2
  | 111 => some 3
  | 103 => if k.f3 = 0 then some 4 else none
  | 99 => match k.f3 with
    | 0 => some 5 | 1 => some 6 | 4 => some 7 | 5 => some 8 | 6 => some 9 | 7 => some 10
    | _ => none
  | 3 => match k.f3 with
    | 0 => some 11 | 1 => some 12 | 2 => some 13 | 4 => some 14 | 5 => some 15
    | _ => none
  | 35 => match k.f3 with
    | 0 => some 16 | 1 => some 17 | 2 => some 18
    | _ => none
  | 19 => match k.f3, k.f7 with
    | 0, _ => some 19 | 1, 0 => some 21 | 2, _ => some 22 | 3, _ => some 23 | 4, _ => some 24
    | 5, 0 => some 25 | 5, 32 => some 26 | 6, _ => some 27 | 7, _ => some 28
    | _, _ => none
  | 51 => match k.f3, k.f7 with
    | 0, 32 => some 30 | 0, 0 => some 29 | 1, 0 => some 31 | 2, 0 => some 32 | 3, 0 => some 33
    | 4, 0 => some 34 | 5, 0 => some 35 | 5, 32 => some 36 | 6, 0 => some 37 | 7, 0 => some 38
    | _, _ => none
  | 15 => some 39
  | 115 => match upper with
    | 0x00000 => some 40 | 0x00100 => some 41 | 0xc0001 => some 42
    | _ => none
  | _ => none

theorem parseU32_indexJ (word : U32) :
    (parseU32 word).map RV32.indexJ = indexOfKey (keyOf word) (word >>> 12).toNat := by
  have hf3 : funct3 word = 0 ↔ (funct3 word).toNat = 0 :=
    ⟨fun h => by rw [h]; rfl, fun h => BitVec.eq_of_toNat_eq h⟩
  unfold parseU32 indexOfKey keyOf bop lop sop aopi aop
  simp only [hf3]
  generalize (opcode word).toNat = opc
  generalize (funct3 word).toNat = f3
  generalize (funct7 word).toNat = f7
  generalize (word >>> 12).toNat = upper
  split
  · rfl
  · rfl
  · rfl
  · split_ifs <;> rfl
  · split <;> simp_all [RV32.indexJ]
  · split <;> simp_all [RV32.indexJ]
  · split <;> simp_all [RV32.indexJ]
  · split <;> simp_all [RV32.indexJ]
  · split <;> simp_all [RV32.indexJ]
  · rfl
  · split <;> simp_all [RV32.indexJ]
  · simp_all

theorem getLsbD_30 (word : U32) : word.getLsbD 30 = decide (32 ≤ (funct7 word).toNat % 64) := by
  have hbit : word.getLsbD 30 = decide (word.toNat / 2 ^ 30 % 2 = 1) := by
    rw [← BitVec.testBit_toNat, Nat.testBit_eq_decide_div_mod_eq]
  rw [hbit, funct7_toNat, decide_eq_decide]
  omega

/-- Bits 12 and 20 in terms of the upper bits. -/
theorem getLsbD_upper (word : U32) :
    word.getLsbD 12 = (word >>> 12).toNat.testBit 0 ∧
      word.getLsbD 20 = (word >>> 12).toNat.testBit 8 := by
  rw [BitVec.testBit_toNat, BitVec.testBit_toNat, BitVec.getLsbD_ushiftRight,
    BitVec.getLsbD_ushiftRight]
  exact ⟨rfl, rfl⟩

/-- The bits of a key agree with its fields and with the upper bits of the word. -/
structure Key.Of (k : Key) (upper : ℕ) : Prop where
  b12 : k.b12 = upper.testBit 0
  b20 : k.b20 = upper.testBit 8
  b30 : k.b30 = decide (32 ≤ k.f7 % 64)

theorem keyOf_of (word : U32) : (keyOf word).Of (word >>> 12).toNat :=
  ⟨(getLsbD_upper word).1, (getLsbD_upper word).2, getLsbD_30 word⟩

variable {k : Key}

theorem decodes_of_indexOfKey {upper j : ℕ} (hk : k.Of upper) (h : indexOfKey k upper = some j) :
    decodes k j = true := by
  obtain ⟨opc, f3, f7, b12, b20, b30⟩ := k
  obtain rfl : b12 = upper.testBit 0 := hk.b12
  obtain rfl : b20 = upper.testBit 8 := hk.b20
  obtain rfl : b30 = decide (32 ≤ f7 % 64) := hk.b30
  unfold indexOfKey at h
  dsimp only at h
  split at h
  · obtain rfl := Option.some.inj h; rfl
  · obtain rfl := Option.some.inj h; rfl
  · obtain rfl := Option.some.inj h; rfl
  · split_ifs at h with h0
    subst h0
    obtain rfl := Option.some.inj h; rfl
  · split at h <;> first | cases h; done | (obtain rfl := Option.some.inj h; rfl)
  · split at h <;> first | cases h; done | (obtain rfl := Option.some.inj h; rfl)
  · split at h <;> first | cases h; done | (obtain rfl := Option.some.inj h; rfl)
  · split at h <;> first | cases h; done | (obtain rfl := Option.some.inj h; rfl)
  · split at h <;> first | cases h; done | (obtain rfl := Option.some.inj h; rfl)
  · obtain rfl := Option.some.inj h; rfl
  · split at h <;> first | cases h; done | (obtain rfl := Option.some.inj h; rfl)
  · cases h

/-- **Completeness of decoding**: a word that parses decodes to its index. -/
theorem decodes_of_parse {word : U32} {i : RV32} (h : parseU32 word = some i) :
    decodes (keyOf word) i.indexJ = true := by
  refine decodes_of_indexOfKey (keyOf_of word) ?_
  rw [← parseU32_indexJ, h, Option.map_some]

/-- What `decodes` says about the rows. -/
theorem selects_of_decodes {J j : ℕ} (h : decodes k J = true) (h1 : 1 ≤ j) (hj : j ≤ RV32.maxJ)
    (h20 : j ≠ 20) : selects k j = (j == J) := by
  simp only [decodes, Bool.and_eq_true] at h
  have hrow := List.all_eq_true.mp h.1.1 j (List.mem_range'_1.mpr ⟨h1, by omega⟩)
  simpa [h20] using hrow

theorem checks_of_decodes {J : ℕ} (h : decodes k J = true) : checks k J = true := by
  simp only [decodes, Bool.and_eq_true] at h
  exact h.2

theorem range_of_decodes {J : ℕ} (h : decodes k J = true) :
    1 ≤ J ∧ J ≤ RV32.maxJ := by
  simp only [decodes, Bool.and_eq_true, List.contains_eq_mem, decide_eq_true_eq,
    List.mem_range'_1] at h
  omega

end NexusVm.Circuit
