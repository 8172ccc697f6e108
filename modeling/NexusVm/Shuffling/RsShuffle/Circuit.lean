import NexusVm.Shuffling.Encryption
import NexusVm.Shuffling.RsShuffle.Levels
import Mathlib.Algebra.Field.ZMod
import Mathlib.Data.Fin.VecNotation

/-!
# The RS shuffle in a circuit

`nova/src/shuffling/rs_shuffle/circuit.rs` and `permutation.rs`, with the variables of
`data_structures.rs`.
-/

namespace NexusVm.Shuffling.RsShuffle

open Gadget

/-- `UnsortedRowVar`. -/
structure UnsortedRowVar (F : Type) where
  bit : Bool
  numZeros : F
  numOnes : F
  totalZerosInBucket : F
  bucketLength : F
  idx : F
  nextPos : F
  bucketId : F

/-- `SortedRowVar`. -/
structure SortedRowVar (F : Type) where
  idx : F
  length : F
  bucket : F

/-- `WitnessDataVar`. -/
structure WitnessDataVar (F : Type) (N LEVELS : ℕ) where
  bitsMat : Fin LEVELS → Fin N → Bool
  unsLevels : Fin LEVELS → Fin N → UnsortedRowVar F
  sortedLevels : Fin LEVELS → Fin N → SortedRowVar F

section New

variable {F : Type} [NatCast F]

/-- The values that `new_variable` allocates. -/
def UnsortedRowVar.new (row : UnsortedRow) : UnsortedRowVar F :=
  ⟨row.bit, row.numZeros, row.numOnes, row.numZerosInBucket, row.bucketLength, row.idx,
    row.nextPos, row.bucketId⟩

def SortedRowVar.new (row : SortedRow) : SortedRowVar F := ⟨row.idx, row.length, row.bucket⟩

def WitnessDataVar.new {N LEVELS : ℕ} (w : WitnessData N LEVELS) : WitnessDataVar F N LEVELS :=
  ⟨w.bitsMat, fun level i => .new (w.unsLevels level i), fun level i => .new (w.nextLevels level i)⟩

end New

/-- `PermutationProduct`: items that are compressed with `n` challenges. -/
class PermutationProduct (F T : Type) (n : ℕ) where
  product : T → (Fin n → F) → F

/-- `IndexPositionPair`. -/
structure IndexPositionPair (F : Type) where
  idx : F
  pos : F

/-- `IndexedElGamalCiphertext`. -/
structure IndexedElGamalCiphertext (F : Type) where
  idx : F
  ciphertext : ElGamalCiphertextVar F

section Product

variable {F : Type} [CommRing F]

instance : PermutationProduct F (IndexPositionPair F) 2 where
  product pair challenges := challenges 0 * pair.idx + challenges 1 * pair.pos

instance : PermutationProduct F (IndexedElGamalCiphertext F) 7 where
  product item challenges :=
    challenges 0 * item.idx + challenges 1 * item.ciphertext.c1.x +
      challenges 2 * item.ciphertext.c1.y + challenges 3 * item.ciphertext.c1.z +
      challenges 4 * item.ciphertext.c2.x + challenges 5 * item.ciphertext.c2.y +
      challenges 6 * item.ciphertext.c2.z

/-- `check_grand_product`. -/
def checkGrandProduct {T : Type} {n : ℕ} [PermutationProduct F T n] (left right : List T)
    (challenges : Fin n → F) : Gadget Unit := do
  let prodLeft := left.foldl
    (fun prod item => prod * PermutationProduct.product item challenges) 1
  let prodRight := right.foldl
    (fun prod item => prod * PermutationProduct.product item challenges) 1
  enforceEqual prodLeft prodRight

end Product

section Levels

variable {F : Type} [Field F] [DecidableEq F]

/-- The body of the loop of `verify_row_constraints`: row `i` and the row after it, if any. -/
def rowConstraints (i : ℕ) (u : UnsortedRowVar F) (uNext : Option (UnsortedRowVar F)) :
    Gadget (IndexPositionPair F) := do
  let bitAsFp : F := if u.bit then 1 else 0
  let oneMinusBit := 1 - bitAsFp
  let isLastInBucket : Bool :=
    match uNext with
    | some next => !decide (u.bucketId = next.bucketId)
    | none => true
  match uNext with
  | some next =>
      let sameBucket := !isLastInBucket
      enforceEqual next.numZeros (if sameBucket then u.numZeros + oneMinusBit else next.numZeros)
      enforceEqual next.numOnes (if sameBucket then u.numOnes + bitAsFp else next.numOnes)
      enforceEqual next.totalZerosInBucket
        (if sameBucket then u.totalZerosInBucket else next.totalZerosInBucket)
      enforceEqual next.bucketLength (if sameBucket then u.bucketLength else next.bucketLength)
  | none => pure ()
  enforceEqual u.numZeros
    (if isLastInBucket then u.totalZerosInBucket - oneMinusBit else u.numZeros)
  enforceEqual u.numOnes
    (if isLastInBucket then u.bucketLength - u.totalZerosInBucket - bitAsFp else u.numOnes)
  let base := (i : F) - (u.numZeros + u.numOnes)
  let offset := u.numZeros + bitAsFp * (u.totalZerosInBucket - u.numZeros + u.numOnes)
  enforceEqual u.nextPos (base + offset)
  return ⟨u.idx, u.nextPos⟩

/-- `verify_row_constraints`. -/
def verifyRowConstraints {N : ℕ} (unsorted : Fin N → UnsortedRowVar F) :
    Gadget (List (IndexPositionPair F)) :=
  (List.finRange N).mapM fun i : Fin N =>
    rowConstraints i.val (unsorted i)
      (if h : i.val + 1 < N then some (unsorted ⟨i.val + 1, h⟩) else none)

/-- `verify_shuffle_level`. -/
def verifyShuffleLevel {N : ℕ} (unsortedArr : Fin N → UnsortedRowVar F)
    (sortedArr : Fin N → SortedRowVar F) (alpha beta : F) : Gadget Unit := do
  let idxNextPosPairs ← verifyRowConstraints unsortedArr
  let idxPosPairs := List.ofFn fun j : Fin N => IndexPositionPair.mk (sortedArr j).idx (j.val : F)
  checkGrandProduct idxNextPosPairs idxPosPairs ![alpha, beta]

/-- The items of `rs_shuffle`: indices zipped with ciphertexts. -/
def indexedCiphertexts (indices : List F) (ciphertexts : List (ElGamalCiphertextVar F)) :
    List (IndexedElGamalCiphertext F) :=
  List.zipWith IndexedElGamalCiphertext.mk indices ciphertexts

/-- `rs_shuffle`. -/
def rsShuffle {N LEVELS : ℕ} (ctInitPub ctAfterShuffle : List (ElGamalCiphertextVar F))
    (witness : WitnessDataVar F N LEVELS) (alpha beta : F) : Gadget Unit := do
  let firstLevel ← entry (List.ofFn witness.unsLevels) 0
  let lastLevel ← entry (List.ofFn witness.sortedLevels) (LEVELS - 1)
  let ciphertextsInitial := indexedCiphertexts (List.ofFn fun i => (firstLevel i).idx) ctInitPub
  let ciphertextsFinal := indexedCiphertexts (List.ofFn fun i => (lastLevel i).idx) ctAfterShuffle
  let beta2 := beta * beta
  let beta3 := beta2 * beta
  let beta4 := beta3 * beta
  let beta5 := beta4 * beta
  let beta6 := beta5 * beta
  (List.finRange LEVELS).forM fun level =>
    verifyShuffleLevel (witness.unsLevels level) (witness.sortedLevels level) alpha beta
  checkGrandProduct ciphertextsInitial ciphertextsFinal
    ![alpha, beta, beta2, beta3, beta4, beta5, beta6]

/-! ## The constraints -/

/-- The bit of a row as a field element. -/
def UnsortedRowVar.bitAsFp {F : Type} [Field F] (u : UnsortedRowVar F) : F := if u.bit then 1 else 0

/-- What the constraints say of row `i` and the row after it. -/
structure RowSatisfied (i : ℕ) (u : UnsortedRowVar F) (uNext : Option (UnsortedRowVar F)) :
    Prop where
  next : ∀ next, uNext = some next → u.bucketId = next.bucketId →
    next.numZeros = u.numZeros + (1 - u.bitAsFp) ∧ next.numOnes = u.numOnes + u.bitAsFp ∧
    next.totalZerosInBucket = u.totalZerosInBucket ∧ next.bucketLength = u.bucketLength
  last : (∀ next, uNext = some next → u.bucketId ≠ next.bucketId) →
    u.numZeros = u.totalZerosInBucket - (1 - u.bitAsFp) ∧
    u.numOnes = u.bucketLength - u.totalZerosInBucket - u.bitAsFp
  nextPos : u.nextPos = (i : F) - (u.numZeros + u.numOnes) +
    (u.numZeros + u.bitAsFp * (u.totalZerosInBucket - u.numZeros + u.numOnes))

theorem rowConstraints_iff (i : ℕ) (u : UnsortedRowVar F) (uNext : Option (UnsortedRowVar F))
    (pair : IndexPositionPair F) : rowConstraints i u uNext pair ↔
      RowSatisfied i u uNext ∧ pair = ⟨u.idx, u.nextPos⟩ := by
  cases uNext with
  | none =>
      simp only [rowConstraints, bind_iff, enforceEqual_iff, pure_iff, exists_const, if_true]
      constructor
      · rintro ⟨hzeros, hones, hpos, rfl⟩
        exact ⟨⟨fun _ h => (by cases h), fun _ => ⟨hzeros, hones⟩, hpos⟩, rfl⟩
      · rintro ⟨h, rfl⟩
        obtain ⟨hzeros, hones⟩ := h.last fun _ h => by cases h
        exact ⟨hzeros, hones, h.nextPos, rfl⟩
  | some next =>
      by_cases hbucket : u.bucketId = next.bucketId
      · simp only [rowConstraints, bind_iff, enforceEqual_iff, pure_iff, exists_const,
          decide_eq_true hbucket, Bool.not_true, Bool.not_false, if_true, Bool.false_eq_true,
          if_false, true_and]
        constructor
        · rintro ⟨hzeros, hones, htotal, hlength, hpos, rfl⟩
          refine ⟨⟨?_, fun h => absurd hbucket (h next rfl), hpos⟩, rfl⟩
          intro _ hnext _
          obtain rfl := Option.some.inj hnext
          exact ⟨hzeros, hones, htotal, hlength⟩
        · rintro ⟨h, rfl⟩
          obtain ⟨hzeros, hones, htotal, hlength⟩ := h.next next rfl hbucket
          exact ⟨hzeros, hones, htotal, hlength, h.nextPos, rfl⟩
      · simp only [rowConstraints, bind_iff, enforceEqual_iff, pure_iff, exists_const,
          decide_eq_false hbucket, Bool.not_true, Bool.not_false, if_true, Bool.false_eq_true,
          if_false, true_and]
        constructor
        · rintro ⟨hzeros, hones, hpos, rfl⟩
          refine ⟨⟨?_, fun _ => ⟨hzeros, hones⟩, hpos⟩, rfl⟩
          intro _ hnext heq
          obtain rfl := Option.some.inj hnext
          exact absurd heq hbucket
        · rintro ⟨h, rfl⟩
          have hlast : ∀ n, some next = some n → u.bucketId ≠ n.bucketId := by
            intro _ hnext
            obtain rfl := Option.some.inj hnext
            exact hbucket
          obtain ⟨hzeros, hones⟩ := h.last hlast
          exact ⟨hzeros, hones, h.nextPos, rfl⟩

/-- The row after row `i`. -/
def rowAfter {α : Type} {N : ℕ} (rows : Fin N → α) (i : Fin N) : Option α :=
  if h : i.val + 1 < N then some (rows ⟨i.val + 1, h⟩) else none

theorem verifyRowConstraints_iff {N : ℕ} {unsorted : Fin N → UnsortedRowVar F}
    {pairs : List (IndexPositionPair F)} : verifyRowConstraints unsorted pairs ↔
      (∀ i, RowSatisfied i.val (unsorted i) (rowAfter unsorted i)) ∧
        pairs = List.ofFn fun i => ⟨(unsorted i).idx, (unsorted i).nextPos⟩ := by
  have hloop : verifyRowConstraints unsorted pairs ↔
      (∀ i ∈ List.finRange N, RowSatisfied i.val (unsorted i) (rowAfter unsorted i)) ∧
        pairs = (List.finRange N).map fun i => ⟨(unsorted i).idx, (unsorted i).nextPos⟩ :=
    mapM_iff fun i pair => rowConstraints_iff i.val (unsorted i) (rowAfter unsorted i) pair
  rw [hloop, List.ofFn_eq_map]
  simp only [List.mem_finRange, true_imp_iff]

omit [DecidableEq F] in
theorem foldl_product {T : Type} {n : ℕ} [PermutationProduct F T n] (items : List T)
    (challenges : Fin n → F) :
    items.foldl (fun prod item => prod * PermutationProduct.product item challenges) 1 =
      (items.map fun item => PermutationProduct.product item challenges).prod := by
  rw [List.prod_eq_foldl, List.foldl_map]

omit [DecidableEq F] in
theorem checkGrandProduct_iff {T : Type} {n : ℕ} [PermutationProduct F T n] {left right : List T}
    {challenges : Fin n → F} {u : Unit} : checkGrandProduct left right challenges u ↔
      (left.map fun item => PermutationProduct.product item challenges).prod =
        (right.map fun item => PermutationProduct.product item challenges).prod := by
  rw [checkGrandProduct, enforceEqual_iff, foldl_product, foldl_product]

omit [DecidableEq F] in
/-- Lists with the same items pass for all challenges. -/
theorem checkGrandProduct_of_perm {T : Type} {n : ℕ} [PermutationProduct F T n]
    {left right : List T} (h : left.Perm right) (challenges : Fin n → F) :
    checkGrandProduct left right challenges () :=
  checkGrandProduct_iff.mpr (h.map _).prod_eq

theorem verifyShuffleLevel_iff {N : ℕ} {unsorted : Fin N → UnsortedRowVar F}
    {sorted : Fin N → SortedRowVar F} {alpha beta : F} {u : Unit} :
    verifyShuffleLevel unsorted sorted alpha beta u ↔
      (∀ i, RowSatisfied i.val (unsorted i) (rowAfter unsorted i)) ∧
        checkGrandProduct
          (List.ofFn fun i => IndexPositionPair.mk (unsorted i).idx (unsorted i).nextPos)
          (List.ofFn fun j => IndexPositionPair.mk (sorted j).idx (j.val : F))
          ![alpha, beta] () := by
  simp only [verifyShuffleLevel, bind_iff, verifyRowConstraints_iff]
  constructor
  · rintro ⟨_, ⟨hrows, rfl⟩, hproduct⟩
    exact ⟨hrows, hproduct⟩
  · rintro ⟨hrows, hproduct⟩
    exact ⟨_, ⟨hrows, rfl⟩, hproduct⟩

omit [Field F] [DecidableEq F] in
theorem indexedCiphertexts_ofFn {N : ℕ} (indices : Fin N → F)
    (deck : Fin N → ElGamalCiphertextVar F) :
    indexedCiphertexts (List.ofFn indices) (List.ofFn deck) =
      List.ofFn fun i => ⟨indices i, deck i⟩ := by
  apply List.ext_getElem
  · simp only [indexedCiphertexts, List.length_zipWith, List.length_ofFn, Nat.min_self]
  · intro i h₁ h₂
    simp only [indexedCiphertexts, List.getElem_zipWith, List.getElem_ofFn]

/-- The challenges of the ciphertexts. -/
def ciphertextChallenges (alpha beta : F) : Fin 7 → F :=
  ![alpha, beta, beta * beta, beta * beta * beta, beta * beta * beta * beta,
    beta * beta * beta * beta * beta, beta * beta * beta * beta * beta * beta]

/-- **The constraints of `rs_shuffle`**, with at least one level. -/
theorem rsShuffle_iff {N LEVELS : ℕ} (h : 0 < LEVELS)
    {ctInitPub ctAfterShuffle : List (ElGamalCiphertextVar F)} {w : WitnessDataVar F N LEVELS}
    {alpha beta : F} {u : Unit} : rsShuffle ctInitPub ctAfterShuffle w alpha beta u ↔
      (∀ level, verifyShuffleLevel (w.unsLevels level) (w.sortedLevels level) alpha beta ()) ∧
      checkGrandProduct
        (indexedCiphertexts (List.ofFn fun i => (w.unsLevels ⟨0, h⟩ i).idx) ctInitPub)
        (indexedCiphertexts
          (List.ofFn fun i => (w.sortedLevels ⟨LEVELS - 1, Nat.sub_one_lt_of_lt h⟩ i).idx)
          ctAfterShuffle)
        (ciphertextChallenges alpha beta) () := by
  have hlast : LEVELS - 1 < LEVELS := Nat.sub_one_lt_of_lt h
  simp only [rsShuffle, bind_iff, entry_iff, List.getElem?_ofFn, dif_pos h, dif_pos hlast,
    Option.some.injEq, exists_eq_left', forM_iff, List.mem_finRange, true_imp_iff, exists_const]
  rfl

end Levels

end NexusVm.Shuffling.RsShuffle
