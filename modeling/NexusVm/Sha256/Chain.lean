import NexusVm.Sha256.Packing

/-!
# Chains of SHA-256 steps

`run_native_sequential_sha256` of `nova/src/tree_folding/circuit/sequential_sha256.rs` hashes all 32
bytes of each digest.  A step of the circuit hashes the bytes that it reads from its state, which
are those that fit in the field.
-/

namespace NexusVm.Sha256

section Chains

variable {p : ℕ} (sha256 : List UInt8 → List UInt8)

/-- `run_native_sequential_sha256`. -/
def runNativeSequentialSha256 (initial_message : List UInt8) (steps : ℕ) : List UInt8 :=
  sha256^[steps] (sha256 initial_message)

/-- The state that a prover's synthesis of `SequentialSha256Circuit` computes: the message that it
allocates has the bytes of the old state. -/
def stepState (z : ZMod p) : ZMod p := bytesToField (sha256 (fieldToBytes z))

variable (p) in
/-- After `n` steps from the packed hash of the message the state is the packed native hash. -/
def ChainsAgree (message : List UInt8) (n : ℕ) : Prop :=
  (stepState sha256)^[n] (bytesToField (sha256 message) : ZMod p) =
    bytesToField (runNativeSequentialSha256 sha256 message n)

variable {sha256}

variable {bytes : List UInt8}

/-- A step on bytes that come back from the field. -/
theorem stepState_bytesToField (h : fieldToBytes (bytesToField bytes : ZMod p) = bytes) :
    stepState sha256 (bytesToField bytes : ZMod p) = bytesToField (sha256 bytes) := by
  rw [stepState, h]

/-- Chains agree as long as all digests come back from the field. -/
theorem chainsAgree_of_fits {message : List UInt8} {n : ℕ}
    (h : ∀ k < n,
      fieldToBytes (bytesToField (runNativeSequentialSha256 sha256 message k) : ZMod p) =
        runNativeSequentialSha256 sha256 message k) : ChainsAgree p sha256 message n := by
  induction n with
  | zero => rfl
  | succ n ih =>
      have hprev : (stepState sha256)^[n] (bytesToField (sha256 message) : ZMod p) = _ :=
        ih fun k hk => h k (Nat.lt_succ_of_lt hk)
      rw [ChainsAgree, Function.iterate_succ_apply', hprev,
        stepState_bytesToField (h n (Nat.lt_succ_self n)), runNativeSequentialSha256,
        runNativeSequentialSha256, Function.iterate_succ_apply']

variable [NeZero p]

/-- A string comes back if it has 32 bytes and all that do not fit are zeros. -/
def Fits (p : ℕ) (bytes : List UInt8) : Prop :=
  bytes.length = 32 ∧ ∀ byte ∈ bytes.drop (maxBytes p), byte = 0

instance (p : ℕ) (bytes : List UInt8) : Decidable (Fits p bytes) :=
  inferInstanceAs (Decidable (_ ∧ _))

omit [NeZero p] in
theorem fits_of_le (hp : 32 ≤ maxBytes p) (hlen : bytes.length = 32) :
    Fits p bytes := by
  refine ⟨hlen, fun byte hbyte => ?_⟩
  rw [List.drop_of_length_le (hlen.le.trans hp)] at hbyte
  cases hbyte

omit [NeZero p] in
/-- The digits of a packed number are the bytes. -/
theorem packed_digit (bytes : List UInt8) (i : ℕ) :
    UInt8.ofNat (packed bytes / 256 ^ i % 256) = bytes.getD i 0 := by
  induction bytes generalizing i with
  | nil => simp [packed]
  | cons byte bytes ih =>
      have hbyte := byte.toNat_lt
      have hpacked : packed (byte :: bytes) = byte.toNat + 256 * packed bytes := rfl
      cases i with
      | zero =>
          apply UInt8.toNat_inj.mp
          rw [hpacked, pow_zero, Nat.div_one, UInt8.toNat_ofNat', List.getD_cons_zero]
          omega
      | succ i =>
          have hdiv : packed (byte :: bytes) / 256 = packed bytes := by omega
          rw [pow_succ', ← Nat.div_div_eq_div_mul, hdiv, ih, List.getD_cons_succ]

/-- The bytes of a packed string: its own as long as they fit, then zeros. -/
theorem getElem?_fieldToBytes_bytesToField (bytes : List UInt8) {i : ℕ} (hi : i < 32) :
    (fieldToBytes (bytesToField bytes : ZMod p))[i]? =
      some (if i < maxBytes p then bytes.getD i 0 else 0) := by
  have hval : (bytesToField bytes : ZMod p).val = packed (bytes.take (maxBytes p)) := by
    rw [bytesToField_eq]
    exact ZMod.val_cast_of_lt (packed_take_lt (NeZero.pos p) bytes)
  rw [fieldToBytes_eq, hval, List.getElem?_append, List.length_map, List.length_range]
  by_cases hfits : i < maxBytes p
  · rw [if_pos hfits, if_pos (lt_min hfits hi), List.getElem?_map,
      List.getElem?_range (lt_min hfits hi), Option.map_some, packed_digit]
    congr 1
    rw [List.getD_eq_getElem?_getD, List.getD_eq_getElem?_getD, List.getElem?_take_of_lt hfits]
  · rw [if_neg hfits, if_neg (by omega), List.getElem?_replicate, if_pos (by omega)]

theorem fieldToBytes_bytesToField_iff :
    fieldToBytes (bytesToField bytes : ZMod p) = bytes ↔ Fits p bytes := by
  constructor
  · intro h
    refine ⟨by rw [← h, length_fieldToBytes], fun byte hbyte => ?_⟩
    have hlen : bytes.length = 32 := by rw [← h, length_fieldToBytes]
    obtain ⟨i, hi, rfl⟩ := List.mem_iff_getElem.mp hbyte
    rw [List.length_drop, hlen] at hi
    have hread := getElem?_fieldToBytes_bytesToField (p := p) bytes
      (show maxBytes p + i < 32 by omega)
    rw [h, if_neg (by omega), List.getElem?_eq_some_iff] at hread
    obtain ⟨_, hread⟩ := hread
    rw [List.getElem_drop, hread]
  · rintro ⟨hlen, hzero⟩
    apply List.ext_getElem?
    intro i
    by_cases hi : i < 32
    · rw [getElem?_fieldToBytes_bytesToField bytes hi, List.getElem?_eq_getElem (by omega)]
      congr 1
      split_ifs with hfits
      · rw [List.getD_eq_getElem?_getD, List.getElem?_eq_getElem (by omega), Option.getD_some]
      · apply Eq.symm
        apply hzero
        rw [List.mem_iff_getElem]
        have hlt : i - maxBytes p < (bytes.drop (maxBytes p)).length := by
          rw [List.length_drop]
          omega
        refine ⟨i - maxBytes p, hlt, ?_⟩
        rw [List.getElem_drop]
        congr 1
        omega
    · rw [List.getElem?_eq_none (by rw [length_fieldToBytes]; omega),
        List.getElem?_eq_none (by omega)]

/-! ## When chains agree -/

omit [NeZero p] in
/-- In a field that holds no byte all strings are packed to zero. -/
theorem bytesToField_of_maxBytes_eq_zero (hp : maxBytes p = 0) (bytes : List UInt8) :
    (bytesToField bytes : ZMod p) = 0 := by
  rw [bytesToField_eq, hp, List.take_zero]
  exact Nat.cast_zero

/-- A digest of which no byte is zero. -/
def ones : List UInt8 := List.replicate 32 255

/-- A digest of zeros. -/
def zeros : List UInt8 := List.replicate 32 0

/-- A hash with two digests: of some strings, and of all others. -/
def twoDigests (strings : List (List UInt8)) (message : List UInt8) : List UInt8 :=
  if message ∈ strings then ones else zeros

theorem length_twoDigests (strings : List (List UInt8)) (message : List UInt8) :
    (twoDigests strings message).length = 32 := by
  rw [twoDigests]
  split_ifs <;> rfl

omit [NeZero p] in
theorem bytesToField_ones_ne (hp : maxBytes p ≠ 0) :
    (bytesToField ones : ZMod p) ≠ bytesToField zeros :=
  bytesToField_ne (Nat.le_of_not_lt (mt maxBytes_eq_zero_iff.mpr hp)) (by decide) rfl

theorem fieldToBytes_bytesToField_zeros : fieldToBytes (bytesToField zeros : ZMod p) = zeros := by
  refine fieldToBytes_bytesToField_iff.mpr ⟨rfl, fun byte hbyte => ?_⟩
  exact List.eq_of_mem_replicate (List.mem_of_mem_drop hbyte)

omit [NeZero p] in
theorem not_fits_ones (hp : maxBytes p < 32) : ¬Fits p ones := by
  rintro ⟨-, hzero⟩
  have hbyte : (255 : UInt8) ∈ ones.drop (maxBytes p) := by
    rw [ones, List.drop_replicate, List.mem_replicate]
    exact ⟨by omega, rfl⟩
  exact absurd (hzero 255 hbyte) (by decide)

/-- A hash whose native chain stays at one digest, while the chain of steps falls to the other. -/
theorem stepState_twoDigests (hp : maxBytes p < 32) (n : ℕ) :
    (stepState (twoDigests [[], ones]))^[n + 1] (bytesToField ones : ZMod p) =
      bytesToField zeros := by
  induction n with
  | zero =>
      have hne : fieldToBytes (bytesToField ones : ZMod p) ∉ [[], ones] := by
        rw [List.mem_cons, List.mem_singleton, fieldToBytes_bytesToField_iff, not_or]
        refine ⟨fun hnil => ?_, not_fits_ones hp⟩
        have hlen := length_fieldToBytes (bytesToField ones : ZMod p)
        rw [hnil] at hlen
        cases hlen
      rw [Function.iterate_succ_apply', Function.iterate_zero_apply, stepState, twoDigests,
        if_neg hne]
  | succ n ih =>
      rw [Function.iterate_succ_apply', ih, stepState, fieldToBytes_bytesToField_zeros]
      rfl

/-- **When chains of steps follow the native chain**: for one message where all digests of its
native chain but the last fit in the field; for all hash functions with values of 32 bytes and all
messages without a step, in fields that hold no byte, and in fields that hold all 32 bytes of a
digest. -/
theorem chainsAgree_iff (n : ℕ) :
    (∀ (sha256 : List UInt8 → List UInt8) (message : List UInt8),
      (∀ k < n, Fits p (runNativeSequentialSha256 sha256 message k)) →
        ChainsAgree p sha256 message n) ∧
    ((∀ sha256 : List UInt8 → List UInt8, (∀ message, (sha256 message).length = 32) →
      ∀ message, ChainsAgree p sha256 message n) ↔ n = 0 ∨ maxBytes p = 0 ∨ 32 ≤ maxBytes p) := by
  refine ⟨fun sha256 message hfits => chainsAgree_of_fits fun k hk =>
    fieldToBytes_bytesToField_iff.mpr (hfits k hk), ?_⟩
  constructor
  · intro hall
    by_contra hnot
    obtain ⟨hn, hzero, hlt⟩ : n ≠ 0 ∧ maxBytes p ≠ 0 ∧ maxBytes p < 32 := by omega
    obtain ⟨n, rfl⟩ := Nat.exists_eq_succ_of_ne_zero hn
    have hagree := hall (twoDigests [[], ones]) (length_twoDigests _) []
    have hnative : runNativeSequentialSha256 (twoDigests [[], ones]) [] (n + 1) = ones :=
      Function.iterate_fixed rfl (n + 1)
    rw [ChainsAgree, hnative] at hagree
    exact bytesToField_ones_ne hzero (hagree.symm.trans (stepState_twoDigests hlt n))
  · rintro (rfl | hzero | hle) sha256 hlen message
    · rfl
    · rw [ChainsAgree, bytesToField_of_maxBytes_eq_zero hzero (runNativeSequentialSha256 _ _ _)]
      cases n with
      | zero => exact bytesToField_of_maxBytes_eq_zero hzero _
      | succ n =>
          rw [Function.iterate_succ_apply', stepState, bytesToField_of_maxBytes_eq_zero hzero]
    · apply chainsAgree_of_fits
      intro k _
      apply fieldToBytes_bytesToField_iff.mpr
      apply fits_of_le hle
      cases k with
      | zero => exact hlen _
      | succ k =>
          rw [runNativeSequentialSha256, Function.iterate_succ_apply']
          exact hlen _

end Chains

/-- In the field of the source's tests one step is too much. -/
theorem chainsAgree_iff_bn254 :
    (∀ sha256 : List UInt8 → List UInt8, (∀ message, (sha256 message).length = 32) →
      ∀ message, ChainsAgree bn254Fr sha256 message 1) ↔
        1 = 0 ∨ maxBytes bn254Fr = 0 ∨ 32 ≤ maxBytes bn254Fr :=
  (chainsAgree_iff 1).2

theorem maxBytes_bn254Fr : maxBytes bn254Fr = 31 := by decide +kernel

/-- SHA-256 itself, from the empty message: 31 of the 32 bytes of its digest are hashed. -/
theorem chains_disagree : ¬ChainsAgree bn254Fr digest [] 1 := by
  intro hagree
  have hbytes : fieldToBytes (bytesToField (digest []) : ZMod bn254Fr) =
      (digest []).take 31 ++ List.replicate (32 - 31) 0 := by
    rw [← maxBytes_bn254Fr]
    apply fieldToBytes_bytesToField
    · rw [maxBytes_bn254Fr]
      norm_num
    · rw [maxBytes_bn254Fr, length_digest]
      norm_num
  have hne : (digest ((digest []).take 31 ++ List.replicate (32 - 31) 0)).head? ≠
      (digest (digest [])).head? := by
    decide +kernel
  have hstep : stepState digest (bytesToField (digest []) : ZMod bn254Fr) =
      bytesToField (digest (digest [])) := hagree
  rw [stepState, hbytes] at hstep
  exact bytesToField_ne (by decide) hne ((length_digest _).trans (length_digest _).symm) hstep

end NexusVm.Sha256
