import NexusVm.Memory.Basic
import NexusVm.Rank

/-!
# The witness of an RS shuffle

`nova/src/shuffling/rs_shuffle/witness_preparation.rs`, with the rows of
`data_structures.rs`.  Machine integers are natural numbers below `2 ^ 16`; code that panics
has no result.  The split bits, which the source derives from a seed, are an argument.
-/

namespace NexusVm

/-- Rust's `a + b` on `u16`. -/
def Build.addU16 (B : Build) (a b : ℕ) : Option ℕ :=
  if B.overflowChecks && decide (2 ^ 16 ≤ a + b) then none else some ((a + b) % 2 ^ 16)

/-- Rust's `a * b` on `u16`. -/
def Build.mulU16 (B : Build) (a b : ℕ) : Option ℕ :=
  if B.overflowChecks && decide (2 ^ 16 ≤ a * b) then none else some (a * b % 2 ^ 16)

theorem Build.addU16_of_lt (B : Build) {a b : ℕ} (h : a + b < 2 ^ 16) :
    B.addU16 a b = some (a + b) := by
  rw [Build.addU16, decide_eq_false (not_le.mpr h), Bool.and_false, if_neg Bool.false_ne_true,
    Nat.mod_eq_of_lt h]

theorem Build.mulU16_of_lt (B : Build) {a b : ℕ} (h : a * b < 2 ^ 16) :
    B.mulU16 a b = some (a * b) := by
  rw [Build.mulU16, decide_eq_false (not_le.mpr h), Bool.and_false, if_neg Bool.false_ne_true,
    Nat.mod_eq_of_lt h]

namespace Shuffling.RsShuffle

/-- `UnsortedRow`. -/
structure UnsortedRow where
  bit : Bool
  numZeros : ℕ
  numOnes : ℕ
  numZerosInBucket : ℕ
  bucketLength : ℕ
  idx : ℕ
  nextPos : ℕ
  bucketId : ℕ
deriving DecidableEq

/-- `SortedRow`. -/
structure SortedRow where
  idx : ℕ
  length : ℕ
  bucket : ℕ
deriving DecidableEq

/-- `WitnessData`; an array `[T; N]` is a function on `Fin N`. -/
structure WitnessData (N LEVELS : ℕ) where
  bitsMat : Fin LEVELS → Fin N → Bool
  unsLevels : Fin LEVELS → Fin N → UnsortedRow
  nextLevels : Fin LEVELS → Fin N → SortedRow

/-- `try_into`, from a vector to an array. -/
def tryInto {α : Type} (N : ℕ) (l : List α) : Option (Fin N → α) :=
  if h : l.length = N then some fun i => l[i] else none

theorem tryInto_eq_some {α : Type} {N : ℕ} {l : List α} {f : Fin N → α} :
    tryInto N l = some f ↔ l = List.ofFn f := by
  unfold tryInto
  split_ifs with h
  · subst h
    rw [Option.some.injEq]
    constructor
    · rintro rfl
      exact List.ofFn_getElem.symm
    · intro hl
      funext i
      have hlt : i.val < (List.ofFn f).length := by
        rw [List.length_ofFn]
        exact i.isLt
      have hi : l[i] = (List.ofFn f)[i.val] := by
        congr 1
      rw [hi, List.getElem_ofFn]
  · simp only [false_iff]
    rintro rfl
    exact h List.length_ofFn

/-- `HashMap<u16, u16>`. -/
abbrev BucketMap := ℕ → Option ℕ

/-- `*map.entry(bucket).or_insert(0) += 1`. -/
def BucketMap.increment (B : Build) (m : BucketMap) (bucket : ℕ) : Option BucketMap := do
  let n ← B.addU16 ((m bucket).getD 0) 1
  return Function.update m bucket (some n)

/-- The maps of `build_level` and the position of its first pass. -/
structure BucketStats where
  bucketZeros : BucketMap
  bucketOnes : BucketMap
  bucketStarts : BucketMap
  bucketLengths : BucketMap
  currentPos : ℕ

def BucketStats.new : BucketStats := ⟨fun _ => none, fun _ => none, fun _ => none, fun _ => none, 0⟩

/-- The body of the first loop. -/
def BucketStats.count (B : Build) (stats : BucketStats) (row : SortedRow × Bool) :
    Option BucketStats := do
  let bucket := row.1.bucket
  let bucketStarts :=
    if (stats.bucketStarts bucket).isNone then
      Function.update stats.bucketStarts bucket (some stats.currentPos)
    else stats.bucketStarts
  let bucketZeros ←
    (if row.2 then some stats.bucketZeros else BucketMap.increment B stats.bucketZeros bucket)
  let bucketOnes ←
    (if row.2 then BucketMap.increment B stats.bucketOnes bucket else some stats.bucketOnes)
  let bucketLengths ← BucketMap.increment B stats.bucketLengths bucket
  let currentPos ← B.addU16 stats.currentPos 1
  return ⟨bucketZeros, bucketOnes, bucketStarts, bucketLengths, currentPos⟩

/-! ## The second pass, the next table and all levels -/

/-- The running counters, which are reset when the bucket changes. -/
structure Counters where
  currentBucket : Option ℕ
  numZeros : ℕ
  numOnes : ℕ

def Counters.enter (counters : Counters) (bucket : ℕ) : Counters :=
  if counters.currentBucket ≠ some bucket then ⟨some bucket, 0, 0⟩ else counters

/-- The body of the second loop: the row and the next counters. -/
def unsortedRow (B : Build) (stats : BucketStats) (row : SortedRow × Bool) (counters : Counters) :
    Option (UnsortedRow × Counters) := do
  let bucket := row.1.bucket
  let counters := counters.enter bucket
  let numZerosInBucket := (stats.bucketZeros bucket).getD 0
  let bucketLength := (stats.bucketLengths bucket).getD 0
  let bucketStart := (stats.bucketStarts bucket).getD 0
  let offset ←
    (if row.2 then B.addU16 numZerosInBucket counters.numOnes else some counters.numZeros)
  let nextPos ← B.addU16 bucketStart offset
  let numZeros ← (if row.2 then some counters.numZeros else B.addU16 counters.numZeros 1)
  let numOnes ← (if row.2 then B.addU16 counters.numOnes 1 else some counters.numOnes)
  return (⟨row.2, counters.numZeros, counters.numOnes, numZerosInBucket, bucketLength, row.1.idx,
    nextPos, bucket⟩, ⟨counters.currentBucket, numZeros, numOnes⟩)

/-- The second loop. -/
def unsortedRows (B : Build) (stats : BucketStats) :
    List (SortedRow × Bool) → Counters → Option (List UnsortedRow)
  | [], _ => some []
  | row :: rows, counters => do
      let (uns, counters) ← unsortedRow B stats row counters
      let rest ← unsortedRows B stats rows counters
      return uns :: rest

/-- An entry of `sortable`. -/
structure Sortable where
  nextPos : ℕ
  idx : ℕ
  bit : Bool
  bucket : ℕ

/-- The row that an entry of the sorted vector becomes. -/
def nextRow (B : Build) (stats : BucketStats) (entry : Sortable) : Option SortedRow := do
  let numZerosInBucket := (stats.bucketZeros entry.bucket).getD 0
  let numOnesInBucket := (stats.bucketOnes entry.bucket).getD 0
  let doubled ← B.mulU16 entry.bucket 2
  let nextBucket ← (if entry.bit then B.addU16 doubled 1 else some doubled)
  let nextBucketLength := if entry.bit then numOnesInBucket else numZerosInBucket
  return ⟨entry.idx, nextBucketLength, nextBucket⟩

/-- `build_level`. -/
def buildLevel (B : Build) {N : ℕ} (prevRows : Fin N → SortedRow) (bitsLvl : Fin N → Bool) :
    Option ((Fin N → UnsortedRow) × (Fin N → SortedRow)) := do
  let rowsWithBits := (List.ofFn prevRows).zip (List.ofFn bitsLvl)
  let stats ← rowsWithBits.foldlM (BucketStats.count B) .new
  let unsorted ← unsortedRows B stats rowsWithBits ⟨none, 0, 0⟩
  let sortable := List.zipWith
    (fun (uns : UnsortedRow) (row : SortedRow × Bool) =>
      (⟨uns.nextPos, row.1.idx, row.2, row.1.bucket⟩ : Sortable))
    unsorted rowsWithBits
  let sorted := sortable.mergeSort fun a b => decide (a.nextPos ≤ b.nextPos)
  let nextArr ← sorted.mapM (nextRow B stats)
  let unsortedArray ← tryInto N unsorted
  let nextArray ← tryInto N nextArr
  return (unsortedArray, nextArray)

/-- The rows of level 0: one bucket of full length. -/
def initialRows (N : ℕ) (i : Fin N) : SortedRow := ⟨i % 2 ^ 16, N % 2 ^ 16, 0⟩

/-- The `scan` over the levels. -/
def buildLevels (B : Build) {N : ℕ} : List (Fin N → Bool) → (Fin N → SortedRow) →
    Option (List ((Fin N → UnsortedRow) × (Fin N → SortedRow)))
  | [], _ => some []
  | bitsLevel :: levels, prev => do
      let (uns, next) ← buildLevel B prev bitsLevel
      let rest ← buildLevels B levels next
      return (uns, next) :: rest

/-- `prepare_witness_data`, from the split bits on. -/
def prepareWitnessData (B : Build) {N LEVELS : ℕ} (bitsMat : Fin LEVELS → Fin N → Bool) :
    Option (WitnessData N LEVELS) := do
  let levelResults ← buildLevels B (List.ofFn bitsMat) (initialRows N)
  let results ← tryInto LEVELS levelResults
  return ⟨bitsMat, fun level => (results level).1, fun level => (results level).2⟩

/-- `apply_rs_shuffle_permutation`, from the split bits on. -/
def applyRsShufflePermutation (B : Build) {N LEVELS : ℕ} {T : Type}
    (bitsMat : Fin LEVELS → Fin N → Bool) (input : Fin N → T) :
    Option (WitnessData N LEVELS × (Fin N → T)) := do
  let witnessData ← prepareWitnessData B bitsMat
  let finalSorted ← (List.ofFn witnessData.nextLevels)[LEVELS - 1]?
  let output ← (List.ofFn finalSorted).mapM fun sortedRow => (List.ofFn input)[sortedRow.idx]?
  let outputArray ← tryInto N output
  return (witnessData, outputArray)

end Shuffling.RsShuffle

end NexusVm
