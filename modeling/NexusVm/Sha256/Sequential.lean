import Mathlib.Data.Nat.Digits.Lemmas
import Mathlib.Data.Nat.Size
import Mathlib.Data.ZMod.Basic
import NexusVm.Gadget
import NexusVm.Sha256.Digest
import NexusVm.Numerals

/-!
# Sequential SHA-256 steps

`nova/src/tree_folding/circuit/sha256.rs` and `sequential_sha256.rs`, over the field of order `p`.
The hash gadget is a parameter that computes `sha256` of its message bytes.  A step allocates
the message as new witnesses and does not tie it to the state.
-/

namespace NexusVm.Sha256

open Gadget

section Conversions

variable {p : ℕ}

/-- `F::MODULUS_BIT_SIZE`. -/
def modulusBitSize (p : ℕ) : ℕ := p.size

/-- The number of bytes that fit in the field. -/
def maxBytes (p : ℕ) : ℕ := (modulusBitSize p - 1) / 8

/-- `bytes_to_field`, and the loop over the digest in the circuit. -/
def bytesToField (bytes : List UInt8) : ZMod p :=
  ((bytes.take (maxBytes p)).foldl
    (fun acc byte => (acc.1 + (byte.toNat : ZMod p) * acc.2, acc.2 * 256)) (0, 1)).1

/-- `into_bigint`: limbs of 64 bits, the lowest first. -/
def intoBigint (v : ZMod p) : List ℕ :=
  (List.range ((modulusBitSize p + 63) / 64)).map fun k => v.val / (2 ^ 64) ^ k % 2 ^ 64

/-- The loop that shifts a big integer to the right by a byte, with its last carry. -/
def shiftRight (bigint : List ℕ) : List ℕ × ℕ :=
  bigint.foldr
    (fun limb acc =>
      let temp := limb + acc.2 * 2 ^ 64
      (temp / 2 ^ 8 % 2 ^ 64 :: acc.1, temp % 2 ^ 8))
    ([], 0)

/-- The loop of `field_to_bytes`. -/
def lowBytes : ℕ → List ℕ → List UInt8
  | 0, _ => []
  | n + 1, bigint =>
      if bigint.all (· = 0) then 0 :: lowBytes n bigint
      else UInt8.ofNat (bigint.headD 0 % 256) :: lowBytes n (shiftRight bigint).1

/-- `field_to_bytes`. -/
def fieldToBytes (v : ZMod p) : List UInt8 :=
  let actualBytes := min (maxBytes p) 32
  lowBytes actualBytes (intoBigint v) ++ List.replicate (32 - actualBytes) 0

/-- The number that is packed. -/
def packed (bytes : List UInt8) : ℕ := Nat.ofDigits 256 (bytes.map UInt8.toNat)

theorem packed_lt (bytes : List UInt8) : packed bytes < 256 ^ bytes.length := by
  have hlt := Nat.ofDigits_lt_base_pow_length (b := 256) (l := bytes.map UInt8.toNat) (by decide)
    fun x hx => by
      obtain ⟨byte, -, rfl⟩ := List.mem_map.mp hx
      exact UInt8.toNat_lt byte
  rwa [List.length_map] at hlt

theorem foldl_pack (bytes : List UInt8) (acc : ZMod p × ZMod p) :
    (bytes.foldl (fun acc byte => (acc.1 + (byte.toNat : ZMod p) * acc.2, acc.2 * 256)) acc).1 =
      acc.1 + acc.2 * (packed bytes : ZMod p) := by
  induction bytes generalizing acc with
  | nil => simp [packed]
  | cons byte bytes ih =>
      rw [List.foldl_cons, ih, packed, packed, List.map_cons, Nat.ofDigits_cons, Nat.cast_add,
        Nat.cast_mul, Nat.cast_ofNat]
      ring

/-- The loop packs the bytes that fit. -/
theorem bytesToField_eq (bytes : List UInt8) :
    (bytesToField bytes : ZMod p) = (packed (bytes.take (maxBytes p)) : ZMod p) := by
  rw [bytesToField, foldl_pack, zero_add, one_mul]

/-- As many bytes as are packed fit in the field. -/
theorem pow_maxBytes_le {p : ℕ} (hp : 0 < p) : 256 ^ maxBytes p ≤ p := by
  have hsize : 0 < p.size := Nat.size_pos.mpr hp
  have hlt : 8 * maxBytes p < p.size := by
    unfold maxBytes modulusBitSize
    omega
  have hpow := Nat.lt_size.mp hlt
  rwa [pow_mul] at hpow

theorem packed_take_lt (hp : 0 < p) (bytes : List UInt8) :
    packed (bytes.take (maxBytes p)) < p := by
  refine (packed_lt _).trans_le ((Nat.pow_le_pow_right (by decide) ?_).trans (pow_maxBytes_le hp))
  exact List.length_take_le _ _

/-- Nothing is packed in a field of at most eight bits. -/
theorem maxBytes_eq_zero_iff : maxBytes p = 0 ↔ p < 2 ^ 8 := by
  rw [← Nat.size_le, maxBytes, modulusBitSize]
  omega

/-- Packed messages with different first bytes differ. -/
theorem bytesToField_ne (hp : 2 ^ 8 ≤ p) {bytes bytes' : List UInt8}
    (h : bytes.head? ≠ bytes'.head?) (hlen : bytes.length = bytes'.length) :
    (bytesToField bytes : ZMod p) ≠ bytesToField bytes' := by
  intro heq
  have hpos : 0 < p := lt_of_lt_of_le (by decide) hp
  rw [bytesToField_eq, bytesToField_eq] at heq
  have hpacked : packed (bytes.take (maxBytes p)) = packed (bytes'.take (maxBytes p)) :=
    CharP.natCast_injOn_Iio (ZMod p) p (packed_take_lt hpos bytes) (packed_take_lt hpos bytes') heq
  obtain ⟨n, hn⟩ := Nat.exists_eq_succ_of_ne_zero
    (mt maxBytes_eq_zero_iff.mp (Nat.not_lt.mpr hp))
  cases bytes with
  | nil =>
      cases bytes' with
      | nil => exact h rfl
      | cons byte' bytes' => simp at hlen
  | cons byte bytes =>
      cases bytes' with
      | nil => simp at hlen
      | cons byte' bytes' =>
          have hmod := congrArg (· % 256) hpacked
          simp only [hn, Nat.succ_eq_add_one, List.take_succ_cons, packed, List.map_cons,
            Nat.ofDigits_cons, Nat.add_mul_mod_self_left,
            Nat.mod_eq_of_lt (UInt8.toNat_lt _)] at hmod
          exact h (congrArg some (UInt8.toNat_inj.mp hmod))

/-! ## The bytes of a field element, the circuits and the field of the source's tests -/

/-- The shift divides by 256. -/
theorem shiftRight_spec {bigint : List ℕ} (h : ∀ limb ∈ bigint, limb < 2 ^ 64) :
    (∀ limb ∈ (shiftRight bigint).1, limb < 2 ^ 64) ∧
      Nat.ofDigits (2 ^ 64) (shiftRight bigint).1 = Nat.ofDigits (2 ^ 64) bigint / 256 ∧
      (shiftRight bigint).2 = Nat.ofDigits (2 ^ 64) bigint % 256 := by
  induction bigint with
  | nil => simp [shiftRight, Nat.ofDigits]
  | cons limb bigint ih =>
      rw [List.forall_mem_cons] at h
      obtain ⟨hlt, hvalue, hcarry⟩ := ih h.2
      have hstep : shiftRight (limb :: bigint) =
          ((limb + (shiftRight bigint).2 * 2 ^ 64) / 2 ^ 8 % 2 ^ 64 :: (shiftRight bigint).1,
            (limb + (shiftRight bigint).2 * 2 ^ 64) % 2 ^ 8) := rfl
      have hlimb := h.1
      rw [hstep, Nat.ofDigits_cons, Nat.ofDigits_cons, hvalue, hcarry, List.forall_mem_cons]
      refine ⟨⟨Nat.mod_lt _ (by decide), hlt⟩, ?_, ?_⟩ <;> omega

/-- The loop reads the bytes of the number. -/
theorem lowBytes_eq (n : ℕ) {bigint : List ℕ} (h : ∀ limb ∈ bigint, limb < 2 ^ 64) :
    lowBytes n bigint = (List.range n).map fun i =>
      UInt8.ofNat (Nat.ofDigits (2 ^ 64) bigint / 256 ^ i % 256) := by
  induction n generalizing bigint with
  | zero => rfl
  | succ n ih =>
      rw [List.range_succ_eq_map, List.map_cons, List.map_map, lowBytes]
      split_ifs with hzero
      · have hvalue : Nat.ofDigits (2 ^ 64) bigint = 0 := by
          have hrep : bigint = List.replicate bigint.length 0 := by
            rw [List.eq_replicate_iff]
            simpa using hzero
          rw [hrep, Nat.ofDigits_replicate_zero]
        rw [ih h, hvalue]
        simp only [Nat.zero_div, Nat.zero_mod, Function.comp_def]
        rfl
      · obtain ⟨hlt, hvalue, -⟩ := shiftRight_spec h
        have hhead : bigint.headD 0 % 256 = Nat.ofDigits (2 ^ 64) bigint / 256 ^ 0 % 256 := by
          rw [pow_zero, Nat.div_one]
          cases bigint with
          | nil => rfl
          | cons limb bigint =>
              rw [Nat.ofDigits_cons, List.headD_cons]
              omega
        rw [ih hlt, hvalue, hhead]
        congr 1
        apply List.map_congr_left
        intro i _
        rw [Function.comp_apply, Nat.succ_eq_add_one, pow_succ' 256, Nat.div_div_eq_div_mul]

theorem intoBigint_lt (v : ZMod p) : ∀ limb ∈ intoBigint v, limb < 2 ^ 64 := by
  intro limb hlimb
  obtain ⟨k, -, rfl⟩ := List.mem_map.mp hlimb
  exact Nat.mod_lt _ (by decide)

/-- The limbs of a number that fits in them. -/
theorem ofDigits_limbs (n v : ℕ) (hv : v < (2 ^ 64) ^ n) :
    Nat.ofDigits (2 ^ 64) ((List.range n).map fun k => v / (2 ^ 64) ^ k % 2 ^ 64) = v := by
  induction n generalizing v with
  | zero =>
      rw [pow_zero, Nat.lt_one_iff] at hv
      rw [hv]
      rfl
  | succ n ih =>
      have hdiv : v / 2 ^ 64 < (2 ^ 64) ^ n := by
        rw [pow_succ] at hv
        exact Nat.div_lt_of_lt_mul (by rwa [mul_comm] at hv)
      have htail : ∀ k, v / (2 ^ 64) ^ (k + 1) % 2 ^ 64 = v / 2 ^ 64 / (2 ^ 64) ^ k % 2 ^ 64 := by
        intro k
        rw [pow_succ', Nat.div_div_eq_div_mul]
      rw [List.range_succ_eq_map, List.map_cons, List.map_map, Nat.ofDigits_cons]
      simp only [Function.comp_def, Nat.succ_eq_add_one, htail, ih _ hdiv, pow_zero, Nat.div_one]
      exact Nat.mod_add_div v (2 ^ 64)

/-- The big integer of a field element is its value. -/
theorem ofDigits_intoBigint [NeZero p] (v : ZMod p) :
    Nat.ofDigits (2 ^ 64) (intoBigint v) = v.val := by
  apply ofDigits_limbs
  have hsize : v.val < 2 ^ modulusBitSize p := (ZMod.val_lt v).trans (Nat.lt_size_self p)
  rw [← pow_mul]
  refine hsize.trans_le (Nat.pow_le_pow_right (by decide) ?_)
  omega

/-- **The bytes of a field element**: as many as fit, then zeros. -/
theorem fieldToBytes_eq [NeZero p] (v : ZMod p) :
    fieldToBytes v = (List.range (min (maxBytes p) 32)).map
        (fun i => UInt8.ofNat (v.val / 256 ^ i % 256)) ++
      List.replicate (32 - min (maxBytes p) 32) 0 := by
  rw [fieldToBytes, lowBytes_eq _ (intoBigint_lt v), ofDigits_intoBigint]

theorem length_fieldToBytes [NeZero p] (v : ZMod p) : (fieldToBytes v).length = 32 := by
  rw [fieldToBytes_eq, List.length_append, List.length_map, List.length_range,
    List.length_replicate]
  omega

/-- The bytes of a packed number. -/
theorem packed_bytes (bytes : List UInt8) :
    (List.range bytes.length).map (fun i => UInt8.ofNat (packed bytes / 256 ^ i % 256)) =
      bytes := by
  induction bytes with
  | nil => rfl
  | cons byte bytes ih =>
      have hbyte := UInt8.toNat_lt byte
      have hpacked : packed (byte :: bytes) = byte.toNat + 256 * packed bytes := rfl
      have htail : ∀ i, packed (byte :: bytes) / 256 ^ (i + 1) % 256 =
          packed bytes / 256 ^ i % 256 := by
        intro i
        rw [hpacked, pow_succ', ← Nat.div_div_eq_div_mul]
        congr 2
        omega
      rw [List.length_cons, List.range_succ_eq_map, List.map_cons, List.map_map]
      simp only [Function.comp_def, Nat.succ_eq_add_one, htail, ih]
      congr 1
      apply UInt8.toNat_inj.mp
      rw [hpacked, pow_zero, Nat.div_one, UInt8.toNat_ofNat']
      omega

/-- **Round trip**: the bytes that fit come back, and zeros fill up the 32 bytes. -/
theorem fieldToBytes_bytesToField [NeZero p] {bytes : List UInt8} (hp : maxBytes p ≤ 32)
    (hlen : maxBytes p ≤ bytes.length) :
    fieldToBytes (bytesToField bytes : ZMod p) =
      bytes.take (maxBytes p) ++ List.replicate (32 - maxBytes p) 0 := by
  have hval : (bytesToField bytes : ZMod p).val = packed (bytes.take (maxBytes p)) := by
    rw [bytesToField_eq]
    exact ZMod.val_cast_of_lt (packed_take_lt (NeZero.pos p) bytes)
  have hbytes := packed_bytes (bytes.take (maxBytes p))
  rw [List.length_take_of_le hlen] at hbytes
  rw [fieldToBytes_eq, min_eq_left hp, hval, hbytes]

variable (sha256 : List UInt8 → List UInt8)

/-- `Sha256Circuit::generate_constraints`: `new_witness_vec` fixes only the number of bytes. -/
def sha256Circuit (message : List UInt8) : Gadget (List (ZMod p)) := do
  let messageVars : List UInt8 ← witness
  enforce (messageVars.length = message.length)
  let digestVar := sha256 messageVars
  return [bytesToField digestVar]

/-- `SequentialSha256Circuit::generate_constraints`. -/
def sequentialSha256Circuit (z : List (ZMod p)) : Gadget (List (ZMod p)) := do
  let currentState ← entry z 0
  let stateBytes := fieldToBytes currentState
  sha256Circuit sha256 stateBytes

theorem sha256Circuit_iff {message : List UInt8} {out : List (ZMod p)} :
    sha256Circuit sha256 message out ↔ ∃ bytes : List UInt8,
      bytes.length = message.length ∧ out = [bytesToField (sha256 bytes)] := by
  simp only [sha256Circuit, bind_iff, witness_iff, enforce_iff, pure_iff, true_and, exists_const]

/-- **All that a step enforces**: its output is the hash of some 32 bytes. -/
theorem sequentialSha256Circuit_iff [NeZero p] {z : ZMod p} {out : List (ZMod p)} :
    sequentialSha256Circuit sha256 [z] out ↔ ∃ bytes : List UInt8,
      bytes.length = 32 ∧ out = [bytesToField (sha256 bytes)] := by
  simp only [sequentialSha256Circuit, bind_iff, entry_iff, List.getElem?_cons_zero,
    Option.some_inj, exists_eq_left', sha256Circuit_iff, length_fieldToBytes]

/-- The output of a step on a state is the packed hash of its bytes. -/
def StepSound (z : ZMod p) : Prop :=
  ∀ out, sequentialSha256Circuit sha256 [z] out →
    out = [bytesToField (sha256 (fieldToBytes z))]

/-- **Step soundness**: for a hash whose first byte is not the same for all messages of 32 bytes,
the state determines the output exactly if the field is too small to hold a byte of it. -/
theorem stepSound_iff [NeZero p] (hlen : ∀ message, (sha256 message).length = 32)
    (hfirst : ∃ m m' : List UInt8, m.length = 32 ∧ m'.length = 32 ∧
      (sha256 m).head? ≠ (sha256 m').head?) (z : ZMod p) :
    StepSound sha256 z ↔ p < 2 ^ 8 := by
  constructor
  · intro hsound
    obtain ⟨m, m', hm, hm', hne⟩ := hfirst
    by_contra hp
    have hout : ∀ bytes : List UInt8, bytes.length = 32 →
        [(bytesToField (sha256 bytes) : ZMod p)] = [bytesToField (sha256 (fieldToBytes z))] :=
      fun bytes hbytes =>
        hsound _ ((sequentialSha256Circuit_iff sha256).mpr ⟨bytes, hbytes, rfl⟩)
    have heq := (hout m hm).trans (hout m' hm').symm
    exact bytesToField_ne (Nat.le_of_not_lt hp) hne ((hlen m).trans (hlen m').symm)
      (List.head_eq_of_cons_eq heq)
  · intro hp out hout
    obtain ⟨bytes, -, rfl⟩ := (sequentialSha256Circuit_iff sha256).mp hout
    rw [bytesToField_eq, bytesToField_eq, maxBytes_eq_zero_iff.mpr hp, List.take_zero,
      List.take_zero]

end Conversions

/-- The order of the scalar field of BN254. -/
def bn254Fr : ℕ := 21888242871839275222246405745257275088548364400416034343698204186575808495617

instance : NeZero bn254Fr := ⟨by decide⟩

/-- The digests of two messages of 32 bytes differ in the first byte. -/
theorem digest_head_ne :
    (digest (List.replicate 32 0)).head? ≠ (digest (1 :: List.replicate 31 0)).head? := by
  decide +kernel

/-- In the field of the source's tests no state determines the output. -/
theorem stepSound_iff_bn254 : StepSound digest (0 : ZMod bn254Fr) ↔ bn254Fr < 2 ^ 8 :=
  stepSound_iff digest length_digest
    ⟨List.replicate 32 0, 1 :: List.replicate 31 0, rfl, rfl, digest_head_ne⟩ 0

/-- A step on the state 0 with the hash of other bytes. -/
theorem unrelated_bytes_hashed :
    sequentialSha256Circuit digest [(0 : ZMod bn254Fr)]
        [bytesToField (digest (1 :: List.replicate 31 0))] ∧
      (bytesToField (digest (1 :: List.replicate 31 0)) : ZMod bn254Fr) ≠
        bytesToField (digest (fieldToBytes (0 : ZMod bn254Fr))) := by
  constructor
  · exact (sequentialSha256Circuit_iff digest).mpr ⟨1 :: List.replicate 31 0, rfl, rfl⟩
  · have hbytes : fieldToBytes (0 : ZMod bn254Fr) = List.replicate 32 0 := by
      decide +kernel
    rw [hbytes]
    exact bytesToField_ne (by decide) digest_head_ne.symm
      ((length_digest _).trans (length_digest _).symm)

end NexusVm.Sha256
