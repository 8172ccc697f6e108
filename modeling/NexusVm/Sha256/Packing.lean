import NexusVm.Bn254
import NexusVm.Builder.Bits
import NexusVm.Sha256.Sequential

/-!
# Bytes packed in field elements

The conversions of `nova/src/tree_folding/circuit/sha256.rs` are inverse to each other on what fits,
and the circuits pack bytes in the same way: `Sha256Circuit` its digest, and `Sha256Var` of
`nova/src/tree_folding/mangrove/circuit/sha256_var.rs` its bytes.
-/

namespace NexusVm.Sha256

/-- A `UInt8` variable: the values of its bits, the lowest first. -/
structure UInt8Var where
  bits : List Bool
  length : bits.length = 8

/-- `UInt8::new_variable`. -/
def UInt8Var.newVariable (byte : UInt8) : UInt8Var where
  bits := (List.range' 0 8).map byte.toNat.testBit
  length := rfl

section Packing

variable {p : ℕ}

/-- `UInt8::to_fp`: the powers of two are added up by doubling. -/
def UInt8Var.toFp (var : UInt8Var) : ZMod p :=
  (var.bits.foldl
    (fun acc bit => (acc.1 + if bit then acc.2 else 0, acc.2 + acc.2)) ((0 : ZMod p), 1)).1

/-- The loop that packs as many bytes as fit, on variables. -/
def packVars (byteVars : List UInt8Var) : ZMod p :=
  ((byteVars.take (maxBytes p)).foldl
    (fun acc byteVar => (acc.1 + byteVar.toFp * acc.2, acc.2 * 256)) (0, 1)).1

/-- `Sha256Var`. -/
structure Sha256Var where
  bytes : List UInt8Var
  length : bytes.length = 32

/-- `Sha256Var::new`; `none` is `Unsatisfiable`. -/
def Sha256Var.new (bytes : List UInt8Var) : Option Sha256Var :=
  if h : bytes.length = 32 then some ⟨bytes, h⟩ else none

/-- `Sha256Var::new_variable`; other numbers of bytes are an error. -/
def Sha256Var.newVariable (bytes : List UInt8) : Option Sha256Var :=
  Sha256Var.new (bytes.map .newVariable)

/-- `Sha256Var::to_field_var`. -/
def Sha256Var.toFieldVar (var : Sha256Var) : ZMod p := packVars var.bytes

/-- The end of `Sha256Circuit::generate_constraints`. -/
def packDigest (digestVar : List UInt8Var) : ZMod p := packVars digestVar

section Circuits

variable [Fact p.Prime]

theorem foldl_double (bits : List Bool) (acc : ZMod p × ZMod p) :
    (bits.foldl (fun acc bit => (acc.1 + if bit then acc.2 else 0, acc.2 + acc.2)) acc).1 =
      acc.1 + acc.2 * Builder.bitSum (bits.map Builder.flag) := by
  induction bits generalizing acc with
  | nil => simp
  | cons bit bits ih =>
      rw [List.foldl_cons, ih, List.map_cons, Builder.bitSum_cons]
      cases bit with
      | false =>
          rw [if_neg Bool.false_ne_true, Builder.flag_false]
          ring
      | true =>
          rw [if_pos rfl, Builder.flag_true]
          ring

/-- The bits of a byte add up to the byte. -/
theorem toFp_newVariable (byte : UInt8) :
    ((UInt8Var.newVariable byte).toFp : ZMod p) = (byte.toNat : ZMod p) := by
  have hbits := Builder.bitSum_testBit (F := ZMod p) byte.toNat 0 8
  rw [pow_zero, Nat.div_one, Nat.mod_eq_of_lt byte.toNat_lt] at hbits
  rw [UInt8Var.toFp, foldl_double, zero_add, one_mul, UInt8Var.newVariable, List.map_map]
  exact hbits

/-- Variables are packed as their bytes are. -/
theorem packVars_newVariable (bytes : List UInt8) :
    (packVars (bytes.map .newVariable) : ZMod p) = bytesToField bytes := by
  rw [packVars, bytesToField, ← List.map_take, List.foldl_map]
  simp only [toFp_newVariable]

end Circuits

/-! ## Digits and round trips -/

theorem packed_append_zeros (bytes : List UInt8) (n : ℕ) :
    packed (bytes ++ List.replicate n 0) = packed bytes := by
  rw [packed, packed, List.map_append, List.map_replicate, Nat.ofDigits_append]
  have hzero : Nat.ofDigits 256 (List.replicate n (UInt8.toNat 0)) = 0 :=
    Nat.ofDigits_replicate_zero
  rw [hzero, Nat.mul_zero, Nat.add_zero]

/-- The lowest digits of a number are packed to what they are of it. -/
theorem packed_range (n v : ℕ) :
    packed ((List.range n).map fun i => UInt8.ofNat (v / 256 ^ i % 256)) = v % 256 ^ n := by
  induction n generalizing v with
  | zero =>
      rw [pow_zero, Nat.mod_one]
      rfl
  | succ n ih =>
      have hrest := ih (v / 256)
      have hshift : (List.range n).map
          ((fun i => UInt8.ofNat (v / 256 ^ i % 256)) ∘ Nat.succ) =
          (List.range n).map fun i => UInt8.ofNat (v / 256 / 256 ^ i % 256) := by
        apply List.map_congr_left
        intro i _
        rw [Function.comp_apply, Nat.succ_eq_add_one, pow_succ', Nat.div_div_eq_div_mul]
      have hfirst : v % 256 % 2 ^ 8 = v % 256 := Nat.mod_mod v 256
      have hsplit : v % 256 ^ (n + 1) = v % 256 + 256 * (v / 256 % 256 ^ n) := by
        rw [pow_succ', Nat.mod_mul]
      rw [packed] at hrest ⊢
      rw [List.range_succ_eq_map, List.map_cons, List.map_map, hshift, List.map_cons,
        Nat.ofDigits_cons, hrest, pow_zero, Nat.div_one, UInt8.toNat_ofNat', hfirst, hsplit]

variable [NeZero p]

/-- Bytes that fit come back, filled up to 32. -/
theorem fieldToBytes_bytesToField_of_length_le {bytes : List UInt8}
    (hlen : bytes.length ≤ min 32 (maxBytes p)) :
    fieldToBytes (bytesToField bytes : ZMod p) =
      bytes ++ List.replicate (32 - bytes.length) 0 := by
  obtain ⟨hlen32, hlenMax⟩ := le_min_iff.mp hlen
  have htake : bytes.take (maxBytes p) = bytes := List.take_of_length_le hlenMax
  have hval : (bytesToField bytes : ZMod p).val = packed bytes := by
    have hlt := packed_take_lt (NeZero.pos p) bytes
    rw [bytesToField_eq]
    rw [htake] at hlt ⊢
    exact ZMod.val_cast_of_lt hlt
  -- the bytes that are read, with the zeros between them and the end of the field
  have hread := packed_bytes (bytes ++ List.replicate (min (maxBytes p) 32 - bytes.length) 0)
  have hreadLen : (bytes ++ List.replicate (min (maxBytes p) 32 - bytes.length) 0).length =
      min (maxBytes p) 32 := by
    rw [List.length_append, List.length_replicate]
    omega
  rw [hreadLen, packed_append_zeros] at hread
  rw [fieldToBytes_eq, hval, hread, List.append_assoc, ← List.replicate_add]
  congr 2
  omega

/-- Numbers that fit come back. -/
theorem bytesToField_fieldToBytes {x : ZMod p} (hx : x.val < 256 ^ min 32 (maxBytes p)) :
    bytesToField (fieldToBytes x) = x := by
  have htake : packed ((fieldToBytes x).take (maxBytes p)) = x.val := by
    rw [fieldToBytes_eq, List.take_append, List.take_replicate, packed_append_zeros,
      List.take_of_length_le (by simp), packed_range, Nat.mod_eq_of_lt]
    rwa [min_comm]
  rw [bytesToField_eq, htake, ZMod.natCast_val, ZMod.cast_id', id_eq]

end Packing

/-- **Packing.**  In a prime field where `k` of 32 bytes fit: all strings of at most `k` bytes come
back from the field with zeros up to 32 bytes, all elements below `256 ^ k` come back from their
bytes, and both circuits pack 32 bytes as the native conversion does. -/
theorem packing_roundTrips {p : ℕ} [Fact p.Prime] (k : ℕ)
    (hk : k = min 32 ((modulusBitSize p - 1) / 8)) :
    (∀ bytes : List UInt8, bytes.length ≤ k → fieldToBytes (bytesToField bytes : ZMod p) =
        bytes ++ List.replicate (32 - bytes.length) 0) ∧
      (∀ x : ZMod p, x.val < 256 ^ k → bytesToField (fieldToBytes x) = x) ∧
      ∀ bytes : List UInt8, bytes.length = 32 →
        packDigest (bytes.map .newVariable) = (bytesToField bytes : ZMod p) ∧
          ∃ var, Sha256Var.newVariable bytes = some var ∧
            var.toFieldVar = (bytesToField bytes : ZMod p) := by
  subst hk
  refine ⟨fun bytes hlen => fieldToBytes_bytesToField_of_length_le hlen,
    fun x hx => bytesToField_fieldToBytes hx, fun bytes hlen => ?_⟩
  have hnew : Sha256Var.newVariable bytes = some ⟨bytes.map .newVariable, by simp [hlen]⟩ :=
    dif_pos _
  exact ⟨packVars_newVariable bytes, _, hnew, packVars_newVariable bytes⟩

/-- In the scalar field of BN254 a string of 31 bytes fits. -/
theorem packing_roundTrips_bn254 :
    fieldToBytes (bytesToField (1 :: List.replicate 30 200) : ZMod Bn254.fr) =
      1 :: List.replicate 30 200 ++ [0] := by
  have hsize : modulusBitSize Bn254.fr = 254 :=
    le_antisymm (Nat.size_le.mpr (by decide)) (Nat.lt_size.mpr (by decide))
  have hk : 31 = min 32 ((modulusBitSize Bn254.fr - 1) / 8) := by
    rw [hsize]
    decide
  exact (packing_roundTrips (p := Bn254.fr) 31 hk).1 _ (by decide)

end NexusVm.Sha256
