import NexusVm.Shuffling.Circuit
import NexusVm.Shuffling.PlayerEncryption
import Mathlib.Data.Nat.Digits.Lemmas

/-!
# Re-randomization in and outside the circuit

`scalar_to_base_field` of `data_structures.rs`, and `prove.rs`, whose witness the circuit's
re-encryption has to reproduce.  A scalar is carried into the base field through its bytes.
-/

namespace NexusVm.Shuffling

/-- The bytes of the elements of a prime field. -/
def byteSize (p : ℕ) : ℕ := (p.size + 7) / 8

/-- The number with these little-endian bytes. -/
def littleEndian (bytes : List UInt8) : ℕ := Nat.ofDigits 256 (bytes.map UInt8.toNat)

/-- `serialize_uncompressed` of the scalar field and `deserialize_uncompressed` of the base field:
canonical little-endian integers of the field's size, and an error where there are too few bytes
or the integer is not below the modulus. -/
structure FieldBytes (r q : ℕ) where
  serialize : ZMod r → List UInt8
  deserialize : List UInt8 → Option (ZMod q)
  length_serialize : ∀ s, (serialize s).length = byteSize r
  value_serialize : ∀ s, littleEndian (serialize s) = s.val
  deserialize_eq : ∀ bytes, deserialize bytes =
    if byteSize q ≤ bytes.length ∧ littleEndian (bytes.take (byteSize q)) < q then
      some (littleEndian (bytes.take (byteSize q)) : ZMod q)
    else none

/-- `scalar_to_base_field`. -/
def scalarToBaseField {r q : ℕ} (K : FieldBytes r q) (scalar : ZMod r) : ZMod q :=
  (K.deserialize (K.serialize scalar)).getD 0

section Bytes

theorem lt_pow_byteSize (p : ℕ) : p < 256 ^ byteSize p := by
  have hbits : p.size ≤ 8 * byteSize p := by
    rw [byteSize]
    omega
  calc
    p < 2 ^ p.size := Nat.lt_size_self p
    _ ≤ 2 ^ (8 * byteSize p) := Nat.pow_le_pow_right Nat.two_pos hbits
    _ = 256 ^ byteSize p := Nat.pow_mul 2 8 _

theorem littleEndian_take (bytes : List UInt8) (n : ℕ) :
    littleEndian (bytes.take n) = littleEndian bytes % 256 ^ n := by
  have hdigits : ∀ d ∈ bytes.map UInt8.toNat, d < 256 := by
    intro d hd
    obtain ⟨byte, -, rfl⟩ := List.mem_map.mp hd
    exact byte.toNat_lt
  rw [littleEndian, littleEndian, List.map_take,
    Nat.ofDigits_mod_pow_eq_ofDigits_take n (by norm_num) _ hdigits]

/-- The scalars that the base field represents. -/
def Representable (r q : ℕ) (scalar : ZMod r) : Prop :=
  scalar = 0 ∨ (byteSize q ≤ byteSize r ∧ scalar.val < q)

variable {r q : ℕ} [NeZero r] (K : FieldBytes r q)

/-- **The conversion keeps the scalar** exactly where the base field represents it. -/
theorem val_scalarToBaseField_iff (scalar : ZMod r) :
    ((scalarToBaseField K scalar).val : ZMod r) = scalar ↔ Representable r q scalar := by
  have hq := lt_pow_byteSize q
  rw [scalarToBaseField, K.deserialize_eq, K.length_serialize, littleEndian_take,
    K.value_serialize]
  split_ifs with hread
  · -- what is read is the scalar, or its lowest bytes
    obtain ⟨hsize, hlt⟩ := hread
    have hle : scalar.val % 256 ^ byteSize q ≤ scalar.val := Nat.mod_le _ _
    have hcast : ((scalar.val % 256 ^ byteSize q : ℕ) : ZMod r) = scalar ↔
        scalar.val % 256 ^ byteSize q = scalar.val := by
      rw [← (ZMod.val_injective r).eq_iff, ZMod.val_cast_of_lt (hle.trans_lt scalar.val_lt)]
    rw [Option.getD_some, ZMod.val_cast_of_lt hlt, hcast]
    constructor
    · intro hsame
      exact Or.inr ⟨hsize, hsame ▸ hlt⟩
    · rintro (rfl | ⟨-, hval⟩)
      · rw [ZMod.val_zero, Nat.zero_mod]
      · exact Nat.mod_eq_of_lt (hval.trans hq)
  · rw [Option.getD_none, ZMod.val_zero, Nat.cast_zero]
    constructor
    · exact fun hzero => Or.inl hzero.symm
    · rintro (hzero | ⟨hsize, hval⟩)
      · exact hzero.symm
      · rw [Nat.mod_eq_of_lt (hval.trans hq)] at hread
        exact absurd ⟨hsize, hval⟩ hread

end Bytes

section Bits

/-- The number with these little-endian bits. -/
def bitsValue (bits : List Bool) : ℕ := Nat.ofDigits 2 (bits.map Bool.toNat)

theorem bitsValue_range (n x : ℕ) : bitsValue ((List.range n).map x.testBit) = x % 2 ^ n := by
  induction n generalizing x with
  | zero =>
      rw [pow_zero, Nat.mod_one]
      rfl
  | succ n ih =>
      have hbit : (x.testBit 0).toNat = x % 2 := by
        rw [Nat.testBit_zero]
        rcases Nat.mod_two_eq_zero_or_one x with h | h <;> simp [h]
      have hrest := ih (x / 2)
      have hshift : (List.range n).map (x.testBit ∘ Nat.succ) =
          (List.range n).map (x / 2).testBit := by
        apply List.map_congr_left
        intro i _
        exact Nat.testBit_succ x i
      rw [bitsValue] at hrest ⊢
      rw [List.range_succ_eq_map, List.map_cons, List.map_map, hshift, List.map_cons,
        Nat.ofDigits_cons, hrest, hbit, pow_succ', Nat.mod_mul]

theorem bitsValue_toBitsLe {q : ℕ} [NeZero q] (x : ZMod q) : bitsValue (toBitsLe x) = x.val := by
  rw [toBitsLe, bitsValue_range, Nat.mod_eq_of_lt]
  exact x.val_lt.trans (Nat.lt_size_self q)

end Bits

/-- What the gadgets of a curve compute: the points of a group of prime order, of which the
allocated coordinates are representatives. -/
structure PointGadgets {r q : ℕ} {E : Type} [AddCommGroup E] [Module (ZMod r) E]
    (G : CurveGroup r E) (C : CurveVar (ZMod q)) where
  value : ProjectiveVar (ZMod q) → E
  value_generator : value C.generator = G.generator
  allocated_add : ∀ P Q, C.Allocated P → C.Allocated Q → C.Allocated (C.add P Q)
  value_add : ∀ P Q, C.Allocated P → C.Allocated Q → value (C.add P Q) = value P + value Q
  allocated_scalarMulLe : ∀ P bits, C.Allocated P → C.Allocated (C.scalarMulLe P bits)
  value_scalarMulLe : ∀ P bits, C.Allocated P →
    value (C.scalarMulLe P bits) = bitsValue bits • value P

section Gadgets

variable {r q : ℕ} {E : Type} [AddCommGroup E] [Module (ZMod r) E] {G : CurveGroup r E}
  {C : CurveVar (ZMod q)} (V : PointGadgets G C)

/-- The ciphertext that variables stand for. -/
def PointGadgets.ciphertext (ct : ElGamalCiphertextVar (ZMod q)) : ElGamalCiphertext E :=
  ⟨V.value ct.c1, V.value ct.c2⟩

/-- Both points are allocated. -/
def CurveVar.AllocatedCiphertext {F : Type} (C : CurveVar F) (ct : ElGamalCiphertextVar F) : Prop :=
  C.Allocated ct.c1 ∧ C.Allocated ct.c2

theorem value_scalar_mul [NeZero q] (x : ZMod q) {P : ProjectiveVar (ZMod q)} (hP : C.Allocated P) :
    V.value (C.scalarMulLe P (toBitsLe x)) = (x.val : ZMod r) • V.value P := by
  rw [V.value_scalarMulLe P _ hP, bitsValue_toBitsLe, Nat.cast_smul_eq_nsmul]

/-- The circuit adds a layer with the scalar that the base field's element stands for. -/
theorem ciphertext_rerandomize [NeZero q] {ct : ElGamalCiphertextVar (ZMod q)}
    (hct : C.AllocatedCiphertext ct) {pk : ProjectiveVar (ZMod q)} (hpk : C.Allocated pk)
    (x : ZMod q) : V.ciphertext (rerandomizeCiphertext C ct x pk) =
      (V.ciphertext ct).addEncryptionLayer G (x.val : ZMod r) (V.value pk) := by
  have hgenerator := C.allocated_generator
  have hc1 := V.value_add ct.c1 _ hct.1 (V.allocated_scalarMulLe _ (toBitsLe x) hgenerator)
  have hc2 := V.value_add ct.c2 _ hct.2 (V.allocated_scalarMulLe _ (toBitsLe x) hpk)
  rw [value_scalar_mul V x hgenerator, V.value_generator] at hc1
  rw [value_scalar_mul V x hpk] at hc2
  exact congrArg₂ ElGamalCiphertext.mk hc1 hc2

/-- Layers with different scalars differ. -/
theorem addEncryptionLayer_inj [Fact r.Prime] {ct : ElGamalCiphertext E} {pk : E} {a b : ZMod r} :
    ct.addEncryptionLayer G a pk = ct.addEncryptionLayer G b pk ↔ a = b := by
  constructor
  · intro h
    have hc1 : ct.c1 + a • G.generator = ct.c1 + b • G.generator :=
      congrArg ElGamalCiphertext.c1 h
    exact (smul_inj G.generator_ne_zero).mp (add_left_cancel hc1)
  · rintro rfl
    rfl

/-- **One ciphertext.** -/
theorem rerandomize_eq_iff [Fact r.Prime] [NeZero q] (K : FieldBytes r q)
    {ct : ElGamalCiphertextVar (ZMod q)} (hct : C.AllocatedCiphertext ct)
    {pk : ProjectiveVar (ZMod q)} (hpk : C.Allocated pk) (scalar : ZMod r) :
    V.ciphertext (rerandomizeCiphertext C ct (scalarToBaseField K scalar) pk) =
        (V.ciphertext ct).addEncryptionLayer G scalar (V.value pk) ↔
      Representable r q scalar := by
  have : NeZero r := ⟨(Fact.out : r.Prime).ne_zero⟩
  rw [ciphertext_rerandomize V hct hpk, addEncryptionLayer_inj, val_scalarToBaseField_iff]

end Gadgets

/-! ## The prover, agreement and a curve with more points than its field -/

inductive ShuffleError
  | invalidDeckSize (size : ℕ)
deriving DecidableEq

/-- `ShuffleProof`. -/
structure ShuffleProof (r q : ℕ) (E : Type) where
  inputDeck : List (ElGamalCiphertext E)
  sortedDeck : List (ElGamalCiphertext E × ZMod q)
  rerandomizationValues : List (ZMod r)

def deckSize : ℕ := 52

def ShuffleProof.new {r q : ℕ} {E : Type} (inputDeck : List (ElGamalCiphertext E))
    (sortedDeck : List (ElGamalCiphertext E × ZMod q)) (rerandomizationValues : List (ZMod r)) :
    Except ShuffleError (ShuffleProof r q E) :=
  if inputDeck.length ≠ deckSize ∨ sortedDeck.length ≠ deckSize ∨
      rerandomizationValues.length ≠ deckSize then
    .error (.invalidDeckSize inputDeck.length)
  else .ok ⟨inputDeck, sortedDeck, rerandomizationValues⟩

/-- The sort by the random values. -/
def sortByValue {α : Type} {q : ℕ} (deck : List (α × ZMod q)) : List (α × ZMod q) :=
  deck.mergeSort fun a b => decide (a.2.val ≤ b.2.val)

section Prover

variable {r q : ℕ} {E : Type} [AddCommGroup E] [Module (ZMod r) E]

/-- `prove_as_subprotocol`, with what the random number generator gives as an argument. -/
def proveAsSubprotocol (S : Sponge (ZMod q)) (G : CurveGroup r E) (rng : List (ZMod r))
    (seed : ZMod q) (inputDeck : List (ElGamalCiphertext E)) (publicKey : E) :
    Except ShuffleError (ShuffleProof r q E) :=
  if inputDeck.length ≠ deckSize then .error (.invalidDeckSize inputDeck.length)
  else
    let randomValues := generateRandomValuesForDeck S seed deckSize
    let rerandomizedCards := List.zipWith
      (fun card rerand => card.addEncryptionLayer G rerand publicKey) inputDeck rng
    let associatedList := rerandomizedCards.zip randomValues
    ShuffleProof.new inputDeck (sortByValue associatedList) rng

theorem proveAsSubprotocol_eq_ok {S : Sponge (ZMod q)} {G : CurveGroup r E} {rng : List (ZMod r)}
    {seed : ZMod q} {inputDeck : List (ElGamalCiphertext E)} {publicKey : E}
    {proof : ShuffleProof r q E}
    (h : proveAsSubprotocol S G rng seed inputDeck publicKey = .ok proof) :
    inputDeck.length = deckSize ∧ rng.length = deckSize ∧
      proof.rerandomizationValues = rng ∧
      proof.sortedDeck = sortByValue ((List.zipWith
        (fun card rerand => card.addEncryptionLayer G rerand publicKey) inputDeck rng).zip
          (generateRandomValuesForDeck S seed deckSize)) := by
  simp only [proveAsSubprotocol, ShuffleProof.new] at h
  split_ifs at h with hdeck hsizes
  obtain rfl := Except.ok.inj h
  simp only [not_or, not_not] at hdeck hsizes
  exact ⟨hdeck, hsizes.2.2, rfl, rfl⟩

/-- The sort orders by the random values alone, so it tells the cards of two decks apart. -/
theorem sortByValue_zip_inj {α : Type} {as bs : List α} {values : List (ZMod q)}
    (hlen : as.length = bs.length) (hvalues : as.length ≤ values.length) :
    sortByValue (as.zip values) = sortByValue (bs.zip values) ↔ as = bs := by
  constructor
  · intro h
    -- both are images of the sort of the cards side by side
    let both := (as.zip bs).zip values
    let sorted := both.mergeSort fun a b => decide (a.2.val ≤ b.2.val)
    have hmap : ∀ f : α × α → α, (sorted.map fun t => (f t.1, t.2)) =
        sortByValue (((as.zip bs).map f).zip values) := by
      intro f
      have hsort := List.map_mergeSort (l := both) (f := fun t => (f t.1, t.2))
        (r := fun a b => decide (a.2.val ≤ b.2.val)) (s := fun a b => decide (a.2.val ≤ b.2.val))
        (fun _ _ _ _ => rfl)
      rw [sortByValue, List.zip_map_left]
      exact hsort
    have hfst := hmap Prod.fst
    have hsnd := hmap Prod.snd
    rw [List.map_fst_zip hlen.le] at hfst
    rw [List.map_snd_zip hlen.ge, ← h, ← hfst] at hsnd
    have hsame : ∀ t ∈ sorted, t.1.2 = t.1.1 := by
      intro t ht
      exact congrArg Prod.fst (List.map_inj_left.mp hsnd t ht)
    have hboth : ∀ u ∈ as.zip bs, u.2 = u.1 := by
      intro u hu
      have hfst : both.map Prod.fst = as.zip bs := by
        apply List.map_fst_zip
        rw [List.length_zip]
        omega
      obtain ⟨t, ht, rfl⟩ := List.mem_map.mp (hfst ▸ hu)
      exact hsame t (List.mem_mergeSort.mpr ht)
    calc
      as = (as.zip bs).map Prod.fst := (List.map_fst_zip hlen.le).symm
      _ = (as.zip bs).map Prod.snd := List.map_congr_left fun u hu => (hboth u hu).symm
      _ = bs := List.map_snd_zip hlen.ge
  · rintro rfl
    rfl

variable {G : CurveGroup r E} {C : CurveVar (ZMod q)} (V : PointGadgets G C) (K : FieldBytes r q)

/-- The circuit re-encrypts the deck of a witness to cards whose sort is the witness's. -/
def Consistent (S : Sponge (ZMod q)) (seed : ZMod q) (deck : List (ElGamalCiphertextVar (ZMod q)))
    (pk : ProjectiveVar (ZMod q)) (proof : ShuffleProof r q E) : Prop :=
  ∃ out, reencryptCardsWithNewRandomization C deck
      (proof.rerandomizationValues.map (scalarToBaseField K)) pk out ∧
    sortByValue ((out.map V.ciphertext).zip (generateRandomValuesForDeck S seed deckSize)) =
      proof.sortedDeck

variable [Fact r.Prime] [NeZero q]

/-- Card by card. -/
theorem zipWith_rerandomize_eq_iff {deck : List (ElGamalCiphertextVar (ZMod q))}
    (hdeck : ∀ ct ∈ deck, C.AllocatedCiphertext ct) {pk : ProjectiveVar (ZMod q)}
    (hpk : C.Allocated pk) {scalars : List (ZMod r)} (hlen : deck.length = scalars.length) :
    (List.zipWith (fun card r => rerandomizeCiphertext C card r pk) deck
        (scalars.map (scalarToBaseField K))).map V.ciphertext =
      List.zipWith (fun card rerand => card.addEncryptionLayer G rerand (V.value pk))
        (deck.map V.ciphertext) scalars ↔
      ∀ s ∈ scalars, Representable r q s := by
  induction deck generalizing scalars with
  | nil =>
      obtain rfl := List.length_eq_zero_iff.mp hlen.symm
      simp
  | cons ct deck ih =>
      cases scalars with
      | nil => cases hlen
      | cons s scalars =>
          obtain ⟨hct, hdeck⟩ := List.forall_mem_cons.mp hdeck
          rw [List.map_cons, List.map_cons, List.zipWith_cons_cons, List.zipWith_cons_cons,
            List.map_cons, List.cons_eq_cons, rerandomize_eq_iff V K hct hpk,
            ih hdeck (Nat.succ.inj hlen), List.forall_mem_cons]

/-- **The circuit reproduces the prover's re-randomization** of a ciphertext exactly for the
scalars that the base field represents, and its witness exactly when it does all of them. -/
theorem rerandomization_agrees_iff :
    (∀ (ct : ElGamalCiphertextVar (ZMod q)) (pk : ProjectiveVar (ZMod q)) (scalar : ZMod r),
      C.AllocatedCiphertext ct → C.Allocated pk →
      (V.ciphertext (rerandomizeCiphertext C ct (scalarToBaseField K scalar) pk) =
          (V.ciphertext ct).addEncryptionLayer G scalar (V.value pk) ↔
        Representable r q scalar)) ∧
    ∀ (S : Sponge (ZMod q)) (seed : ZMod q) (deck : List (ElGamalCiphertextVar (ZMod q)))
      (pk : ProjectiveVar (ZMod q)) (rng : List (ZMod r)) (proof : ShuffleProof r q E),
      (∀ ct ∈ deck, C.AllocatedCiphertext ct) → C.Allocated pk →
      proveAsSubprotocol S G rng seed (deck.map V.ciphertext) (V.value pk) = .ok proof →
      (Consistent V K S seed deck pk proof ↔ ∀ scalar ∈ rng, Representable r q scalar) := by
  constructor
  · intro ct pk scalar hct hpk
    exact rerandomize_eq_iff V K hct hpk scalar
  · intro S seed deck pk rng proof hdeck hpk hproof
    obtain ⟨hcards, hscalars, hvalues, hsorted⟩ := proveAsSubprotocol_eq_ok hproof
    rw [List.length_map] at hcards
    have hlen : deck.length = rng.length := hcards.trans hscalars.symm
    have hrandom : (generateRandomValuesForDeck S seed deckSize).length = deckSize :=
      length_squeezeValues _ _
    rw [← zipWith_rerandomize_eq_iff V K hdeck hpk hlen, Consistent, hvalues, hsorted]
    simp only [reencryptCardsWithNewRandomization, Gadget.bind_iff, Gadget.enforce_iff,
      Gadget.pure_iff, List.length_map, hlen, exists_const, true_and, exists_eq_left]
    apply sortByValue_zip_inj
    · simp only [List.length_map, List.length_zipWith]
    · simp only [List.length_map, List.length_zipWith, hlen, hscalars, hrandom, Nat.min_self,
        le_refl]

end Prover

/-- The multiples of the point `(0, 1)` of `y ^ 2 = x ^ 3 + 2 x + 1` over the field of order 5. -/
def sevenPoints : ZMod 7 → ProjectiveVar (ZMod 5) :=
  ![⟨0, 1, 0⟩, ⟨0, 1, 1⟩, ⟨1, 3, 1⟩, ⟨3, 3, 1⟩, ⟨3, 2, 1⟩, ⟨1, 2, 1⟩, ⟨0, 4, 1⟩]

/-- The multiple that a point is, after division by `z`. -/
def sevenLog (P : ProjectiveVar (ZMod 5)) : ZMod 7 :=
  let inverse := P.z ^ 3
  ((List.finRange 7).find? fun k : ZMod 7 =>
    decide (sevenPoints k = ⟨P.x * inverse, P.y * inverse, 1⟩)).getD 0

theorem sevenLog_sevenPoints (k : ZMod 7) : sevenLog (sevenPoints k) = k := by
  revert k
  decide

def sevenCurve : CurveVar (ZMod 5) where
  Allocated P := P ≠ ⟨0, 0, 0⟩ ∧ P.y ^ 2 * P.z = P.x ^ 3 + 2 * P.x * P.z ^ 2 + P.z ^ 3
  generator := ⟨0, 1, 1⟩
  add P Q := sevenPoints (sevenLog P + sevenLog Q)
  scalarMulLe P bits := sevenPoints (bitsValue bits • sevenLog P)
  allocated_generator := by decide

theorem allocated_sevenPoints (k : ZMod 7) : sevenCurve.Allocated (sevenPoints k) := by
  rw [sevenCurve]
  revert k
  decide

/-- The complete addition formulas of the curve go through the multiples of the generator. -/
example : ∀ k : ZMod 7, sevenLog (addPoints 2 1 (sevenPoints k) sevenCurve.generator) = k + 1 := by
  decide

def sevenGroup : CurveGroup 7 (ZMod 7) where
  generator := 1
  serializeCompressed x := [UInt8.ofNat x.val]
  compressedSize := 1
  generator_ne_zero := one_ne_zero
  exists_smul x := ⟨x, by rw [smul_eq_mul, mul_one]⟩
  serialize_injective := by decide
  length_serialize _ := rfl

def sevenGadgets : PointGadgets sevenGroup sevenCurve where
  value := sevenLog
  value_generator := by decide
  allocated_add P Q _ _ := allocated_sevenPoints (sevenLog P + sevenLog Q)
  value_add _ _ _ _ := sevenLog_sevenPoints _
  allocated_scalarMulLe P bits _ := allocated_sevenPoints (bitsValue bits • sevenLog P)
  value_scalarMulLe _ _ _ := sevenLog_sevenPoints _

/-- Both fields have elements of one byte. -/
def oneByte : FieldBytes 7 5 where
  serialize s := [UInt8.ofNat s.val]
  deserialize bytes :=
    if byteSize 5 ≤ bytes.length ∧ littleEndian (bytes.take (byteSize 5)) < 5 then
      some (littleEndian (bytes.take (byteSize 5)) : ZMod 5)
    else none
  length_serialize _ := rfl
  value_serialize := by decide
  deserialize_eq _ := rfl

/-- The scalar `3` is represented, so the circuit re-encrypts a ciphertext and a deck with it as
the prover does. -/
theorem rerandomization_agrees_three :
    sevenGadgets.ciphertext (rerandomizeCiphertext sevenCurve
        ⟨sevenCurve.generator, sevenCurve.generator⟩ (scalarToBaseField oneByte 3)
        sevenCurve.generator) =
      (sevenGadgets.ciphertext ⟨sevenCurve.generator, sevenCurve.generator⟩).addEncryptionLayer
        sevenGroup 3 (sevenGadgets.value sevenCurve.generator) ∧
    ∃ proof, proveAsSubprotocol (Sponge.constant 2) sevenGroup (List.replicate 52 3) 4
        ((List.replicate 52 ⟨sevenCurve.generator, sevenCurve.generator⟩).map
          sevenGadgets.ciphertext) (sevenGadgets.value sevenCurve.generator) = .ok proof ∧
      Consistent sevenGadgets oneByte (Sponge.constant 2) 4
        (List.replicate 52 ⟨sevenCurve.generator, sevenCurve.generator⟩) sevenCurve.generator
        proof := by
  have hagrees := rerandomization_agrees_iff sevenGadgets oneByte
  have hgenerator := sevenCurve.allocated_generator
  have hthree : Representable 7 5 3 := Or.inr (by decide)
  constructor
  · exact (hagrees.1 _ _ 3 ⟨hgenerator, hgenerator⟩ hgenerator).mpr hthree
  · obtain ⟨proof, hproof⟩ : ∃ proof, proveAsSubprotocol (Sponge.constant (2 : ZMod 5)) sevenGroup
        (List.replicate 52 3) 4 ((List.replicate 52 ⟨sevenCurve.generator,
          sevenCurve.generator⟩).map sevenGadgets.ciphertext)
        (sevenGadgets.value sevenCurve.generator) = .ok proof := by
      simp [proveAsSubprotocol, ShuffleProof.new, sortByValue, deckSize, length_squeezeValues,
        generateRandomValuesForDeck]
    refine ⟨proof, hproof, (hagrees.2 _ _ _ _ _ proof ?_ hgenerator hproof).mpr ?_⟩
    · intro ct hct
      rw [List.eq_of_mem_replicate hct]
      exact ⟨hgenerator, hgenerator⟩
    · intro scalar hscalar
      rw [List.eq_of_mem_replicate hscalar]
      exact hthree

/-- **A scalar that is the base field's modulus becomes `0`**: the circuit leaves the ciphertext
as it is. -/
theorem modulus_scalar_lost :
    scalarToBaseField oneByte 5 = 0 ∧
      sevenGadgets.ciphertext (rerandomizeCiphertext sevenCurve
          ⟨sevenCurve.generator, sevenCurve.generator⟩ (scalarToBaseField oneByte 5)
          sevenCurve.generator) ≠
        (sevenGadgets.ciphertext ⟨sevenCurve.generator, sevenCurve.generator⟩).addEncryptionLayer
          sevenGroup 5 (sevenGadgets.value sevenCurve.generator) := by
  decide

end NexusVm.Shuffling
