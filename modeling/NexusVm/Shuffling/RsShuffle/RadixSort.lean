import NexusVm.Shuffling.RsShuffle.Levels
import Mathlib.Data.Fin.VecNotation

/-!
# The RS shuffle as a radix sort

A row of the first table goes from level to level where `next_pos` sends it, and the bits that it
meets on the way are its bucket id.  After each level the table is the stable sort of the first
one by these ids.
-/

namespace NexusVm.Shuffling.RsShuffle

/-- Where a row stands, and the binary number of the bits that it has met. -/
structure Place where
  position : ℕ
  bucketId : ℕ

section Follow

variable {N : ℕ}

/-- One level: the row meets the bit at its position, and moves on. -/
def Place.move (place : Place) (bits : Fin N → Bool) (uns : Fin N → UnsortedRow) : Place :=
  if h : place.position < N then
    ⟨(uns ⟨place.position, h⟩).nextPos, 2 * place.bucketId + (bits ⟨place.position, h⟩).toNat⟩
  else place

/-- The bits and the tables of a level. -/
abbrev BuiltLevel (N : ℕ) : Type :=
  (Fin N → Bool) × (Fin N → UnsortedRow) × (Fin N → SortedRow)

/-- Several levels. -/
def Place.follow (place : Place) (levels : List (BuiltLevel N)) : Place :=
  levels.foldl (fun place level => place.move level.1 level.2.1) place

/-- One bucket with these indices. -/
def oneBucket (idx₀ : Fin N → ℕ) (i : Fin N) : SortedRow := ⟨idx₀ i, N, 0⟩

/-- The bucket id of a row of the first table after some levels. -/
def bucketIdAfter (levels : List (BuiltLevel N)) (r : Fin N) : ℕ :=
  (Place.follow ⟨r, 0⟩ levels).bucketId

/-- **What a level should be**, after which the rows of the first table have these bucket ids. -/
structure RadixLevel (idx₀ ids : Fin N → ℕ) (uns : Fin N → UnsortedRow)
    (next : Fin N → SortedRow) : Prop where
  nextPos_perm : (List.ofFn fun i => (uns i).nextPos).Perm (List.range N)
  idx_perm : (List.ofFn fun j => (next j).idx).Perm (List.ofFn idx₀)
  contiguous : ∀ i j k, i ≤ j → j ≤ k → (next i).bucket = (next k).bucket →
    (next j).bucket = (next i).bucket
  increasing : ∀ i j, i ≤ j → (next i).bucket ≤ (next j).bucket
  unsorted_length : ∀ i, (uns i).bucketLength =
    (List.ofFn fun j => (uns j).bucketId).count (uns i).bucketId
  length : ∀ j, (next j).length = (List.ofFn fun i => (next i).bucket).count (next j).bucket
  stable : (List.ofFn fun j => ((next j).idx, (next j).bucket)) =
    ((List.finRange N).mergeSort fun r s => decide (ids r ≤ ids s)).map fun r => (idx₀ r, ids r)

/-- The table that belongs to the places of its rows: they stand in the order of their bucket
ids, and those of one bucket as in the first table. -/
structure Placed (idx₀ : Fin N → ℕ) (place : Fin N → Place) (rows : Fin N → SortedRow) : Prop where
  row : ∀ r, ∃ h : (place r).position < N, (rows ⟨(place r).position, h⟩).idx = idx₀ r ∧
    (rows ⟨(place r).position, h⟩).bucket = (place r).bucketId
  ordered : ∀ r s, (place r).position < (place s).position ↔
    (place r).bucketId < (place s).bucketId ∨
      ((place r).bucketId = (place s).bucketId ∧ r < s)

theorem Placed.initial (idx₀ : Fin N → ℕ) :
    Placed idx₀ (fun r => ⟨r, 0⟩) (oneBucket idx₀) := by
  constructor
  · exact fun r => ⟨r.isLt, rfl, rfl⟩
  · intro r s
    simp only [lt_irrefl, true_and, false_or, Fin.val_fin_lt]

variable {idx₀ : Fin N → ℕ} {place : Fin N → Place} {rows : Fin N → SortedRow}

theorem Placed.injective (h : Placed idx₀ place rows) :
    Function.Injective fun r => (place r).position := by
  intro r s hrs
  have hrs' := mt (h.ordered r s).mpr hrs.not_lt
  have hsr' := mt (h.ordered s r).mpr hrs.symm.not_lt
  rw [not_or, not_and] at hrs' hsr'
  have hid : (place r).bucketId = (place s).bucketId := by omega
  exact le_antisymm (not_lt.mp (hsr'.2 hid.symm)) (not_lt.mp (hrs'.2 hid))

/-- Every position is some row's. -/
theorem Placed.exists_position (h : Placed idx₀ place rows) (j : Fin N) :
    ∃ r, (place r).position = j := by
  have hinj : Function.Injective fun r => (⟨(place r).position, (h.row r).1⟩ : Fin N) := by
    intro r s hrs
    exact h.injective (Fin.mk.inj hrs)
  obtain ⟨r, hr⟩ := Finite.injective_iff_surjective.mp hinj j
  exact ⟨r, congrArg Fin.val hr⟩

theorem Placed.bucket_le (h : Placed idx₀ place rows) {i j : Fin N} (hij : i ≤ j) :
    (rows i).bucket ≤ (rows j).bucket := by
  obtain ⟨r, hr⟩ := h.exists_position i
  obtain ⟨s, hs⟩ := h.exists_position j
  obtain ⟨hlt, -, hbucket⟩ := h.row r
  obtain ⟨hlt', -, hbucket'⟩ := h.row s
  obtain rfl : i = ⟨(place r).position, hlt⟩ := Fin.ext hr.symm
  obtain rfl : j = ⟨(place s).position, hlt'⟩ := Fin.ext hs.symm
  rw [hbucket, hbucket']
  rcases (Fin.mk_le_mk.mp hij).lt_or_eq with hpos | hpos
  · rcases (h.ordered r s).mp hpos with hid | ⟨hid, -⟩
    · exact hid.le
    · exact hid.le
  · rw [h.injective hpos]

/-- **The table is the stable sort of the first one** by the bucket ids. -/
theorem Placed.stable (h : Placed idx₀ place rows) :
    (List.ofFn fun j => ((rows j).idx, (rows j).bucket)) =
      ((List.finRange N).mergeSort fun r s =>
        decide ((place r).bucketId ≤ (place s).bucketId)).map
          fun r => (idx₀ r, (place r).bucketId) := by
  -- the rows in the order of their positions
  have hrow : ∀ j : Fin N, ∃ r, (place r).position = j := h.exists_position
  choose row hposition using hrow
  have hinverse : ∀ r j, (place r).position = j.val → row j = r := by
    intro r j hr
    exact h.injective ((hposition j).trans hr.symm)
  have hperm : (List.ofFn row).Perm ((List.finRange N).mergeSort fun r s =>
      decide ((place r).bucketId ≤ (place s).bucketId)) := by
    refine List.Perm.trans ?_ (List.mergeSort_perm _ _).symm
    rw [List.perm_ext_iff_of_nodup (List.nodup_ofFn.mpr ?_) (List.nodup_finRange N)]
    · intro r
      obtain ⟨hlt, -⟩ := h.row r
      exact ⟨fun _ => List.mem_finRange r, fun _ => List.mem_ofFn.mpr ⟨⟨_, hlt⟩, hinverse r _ rfl⟩⟩
    · intro i j hij
      apply Fin.ext
      rw [← hposition i, ← hposition j, hij]
  have hsorted : (List.ofFn row).Pairwise fun r s => (place r).bucketId < (place s).bucketId ∨
      ((place r).bucketId = (place s).bucketId ∧ r < s) := by
    rw [List.pairwise_ofFn]
    intro i j hij
    rw [← h.ordered, hposition, hposition]
    exact hij
  have hstable := pairwise_lex_mergeSort (fun r => (place r).bucketId)
    (List.pairwise_lt_finRange N)
  have heq : List.ofFn row = (List.finRange N).mergeSort fun r s =>
      decide ((place r).bucketId ≤ (place s).bucketId) := by
    apply hperm.eq_of_pairwise _ hsorted hstable
    intro r s _ _ hrs hsr
    rcases hrs with hrs | ⟨hid, hrs⟩
    · rcases hsr with hsr | ⟨hid, -⟩
      · exact absurd hrs hsr.not_gt
      · exact absurd hid hrs.ne'
    · rcases hsr with hsr | ⟨-, hsr⟩
      · exact absurd hid hsr.ne'
      · exact absurd hrs hsr.not_gt
  rw [← heq, List.map_ofFn]
  congr 1
  funext j
  obtain ⟨hlt, hidx, hbucket⟩ := h.row (row j)
  have hj : (⟨(place (row j)).position, hlt⟩ : Fin N) = j := Fin.ext (hposition j)
  rw [hj] at hidx hbucket
  exact Prod.ext hidx hbucket

end Follow

/-! ## One level and all levels -/

section Step

variable {N : ℕ} {prev : Fin N → SortedRow} {bits : Fin N → Bool} {uns : Fin N → UnsortedRow}
  {next : Fin N → SortedRow}

theorem Level.nextPos_eq (h : Level prev bits uns next) (i : Fin N) :
    (uns i).nextPos = stableRank (levelKeys prev bits) i (keyOf (prev i, bits i)) := by
  rw [h.uns_apply i]
  rfl

theorem Level.nextPos_lt (h : Level prev bits uns next) (i : Fin N) : (uns i).nextPos < N := by
  have hlt := stableRank_lt_length (getElem?_keys prev bits i)
  rw [List.length_map, length_levelRows] at hlt
  rw [h.nextPos_eq]
  exact hlt

/-- A row stands in the next table where `next_pos` says. -/
theorem Level.next_nextPos (h : Level prev bits uns next) (i : Fin N) :
    next ⟨(uns i).nextPos, h.nextPos_lt i⟩ =
      ⟨(prev i).idx, (levelKeys prev bits).count (keyOf (prev i, bits i)),
        keyOf (prev i, bits i)⟩ := by
  let rows := levelRows prev bits
  have hentry : levelSortable (rows.map keyOf) i (prev i, bits i) ∈ levelSorted rows := by
    rw [(levelSorted_perm rows).mem_iff]
    apply List.mem_of_getElem? (i := i.val)
    rw [List.getElem?_mapIdx, getElem?_levelRows]
    rfl
  obtain ⟨j, hj⟩ := List.mem_iff_getElem?.mp hentry
  -- the entry's place is its rank
  have hpos : (uns i).nextPos = j := by
    have hrange := congrArg (fun l => l[j]?) (levelSorted_nextPos rows)
    have hjlt := (List.getElem?_eq_some_iff.mp hj).1
    rw [length_levelSorted] at hjlt
    simp only [List.getElem?_map, hj, Option.map_some, List.getElem?_range hjlt] at hrange
    rw [h.nextPos_eq]
    exact Option.some.inj hrange
  have hget : (levelSorted rows)[(uns i).nextPos]? =
      some (levelSortable (rows.map keyOf) i (prev i, bits i)) := by
    rw [hpos]
    exact hj
  have hnext := congrArg (fun l => l[(uns i).nextPos]?) h.next_eq
  simp only [List.getElem?_ofFn, dif_pos (h.nextPos_lt i), List.getElem?_map] at hnext
  rw [hget] at hnext
  exact Option.some.inj hnext

variable {place : Fin N → Place} {idx₀ : Fin N → ℕ}

/-- **The step of the invariant.** -/
theorem Placed.step (h : Placed idx₀ place prev) (hlevel : Level prev bits uns next) :
    Placed idx₀ (fun r => (place r).move bits uns) next := by
  -- the row's position, and its key there
  choose hlt hidx hbucket using h.row
  let at_ : Fin N → Fin N := fun r => ⟨(place r).position, hlt r⟩
  let key : Fin N → ℕ := fun r => 2 * (place r).bucketId + (bits (at_ r)).toNat
  have hmove : ∀ r, (place r).move bits uns = ⟨(uns (at_ r)).nextPos, key r⟩ :=
    fun r => dif_pos (hlt r)
  have hkey : ∀ r, keyOf (prev (at_ r), bits (at_ r)) = key r := by
    intro r
    rw [keyOf]
    dsimp only
    rw [hbucket r]
  have hget : ∀ r, (levelKeys prev bits)[(place r).position]? = some (key r) := by
    intro r
    rw [← hkey r]
    exact getElem?_keys prev bits (at_ r)
  have hnextPos : ∀ r, (uns (at_ r)).nextPos =
      stableRank (levelKeys prev bits) (place r).position (key r) := by
    intro r
    rw [hlevel.nextPos_eq, hkey]
  have hforward : ∀ r s, key r < key s ∨ (key r = key s ∧ r < s) →
      (uns (at_ r)).nextPos < (uns (at_ s)).nextPos := by
    intro r s hrs
    rw [hnextPos, hnextPos]
    rcases hrs with hrs | ⟨heq, hrs⟩
    · exact stableRank_lt_of_key_lt (hget r) hrs _
    · -- one bucket, in the order of the first table
      have hid : (place r).bucketId = (place s).bucketId := by
        have hr := (bits (at_ r)).toNat_le
        have hs := (bits (at_ s)).toNat_le
        simp only [key] at heq
        omega
      rw [← heq]
      exact stableRank_lt_of_lt (hget r) ((h.ordered r s).mpr (Or.inr ⟨hid, hrs⟩))
  constructor
  · intro r
    have hnext := hlevel.next_nextPos (at_ r)
    simp only [hmove]
    refine ⟨hlevel.nextPos_lt (at_ r), ?_, ?_⟩
    · rw [hnext]
      exact hidx r
    · rw [hnext]
      exact hkey r
  · intro r s
    simp only [hmove]
    constructor
    · intro hpos
      by_contra hnot
      have hback : key s < key r ∨ (key s = key r ∧ s < r) ∨ r = s := by
        rw [not_or, not_and, not_lt] at hnot
        rcases hnot.1.lt_or_eq with hlt | heq
        · exact Or.inl hlt
        · rcases (not_lt.mp (hnot.2 heq.symm)).lt_or_eq with hsr | hsr
          · exact Or.inr (Or.inl ⟨heq, hsr⟩)
          · exact Or.inr (Or.inr hsr.symm)
      rcases hback with hback | hback | rfl
      · exact hpos.not_gt (hforward s r (Or.inl hback))
      · exact hpos.not_gt (hforward s r (Or.inr hback))
      · exact lt_irrefl _ hpos
    · exact hforward r s

/-- The bucket column of the next table has the keys of the level. -/
theorem Level.buckets_perm (h : Level prev bits uns next) :
    (List.ofFn fun j => (next j).bucket).Perm (levelKeys prev bits) := by
  have hmap := congrArg (List.map SortedRow.bucket) h.next_eq
  rw [List.map_ofFn, List.map_map] at hmap
  have hperm := (levelSorted_perm (levelRows prev bits)).map
    (SortedRow.bucket ∘ levelNext ((levelRows prev bits).map keyOf))
  have hkeys : ((levelRows prev bits).mapIdx (levelSortable ((levelRows prev bits).map keyOf))).map
      (SortedRow.bucket ∘ levelNext ((levelRows prev bits).map keyOf)) = levelKeys prev bits := by
    apply List.ext_getElem?
    intro i
    rw [levelKeys, List.getElem?_map, List.getElem?_mapIdx, List.getElem?_map, Option.map_map]
    rfl
  rw [hkeys] at hperm
  exact (List.Perm.of_eq hmap).trans hperm

/-- The keys of a bucket are its rows. -/
theorem count_key_add (rows : List (SortedRow × Bool)) (b : ℕ) :
    (rows.map keyOf).count (2 * b) + (rows.map keyOf).count (2 * b + 1) =
      (rows.map fun row => row.1.bucket).count b := by
  induction rows with
  | nil => rfl
  | cons row rows ih =>
      have hbit := row.2.toNat_le
      have hkey : keyOf row = 2 * row.1.bucket + row.2.toNat := rfl
      simp only [List.map_cons, List.count_cons, beq_iff_eq]
      split_ifs <;> omega

theorem Level.bucketIds_eq (h : Level prev bits uns next) :
    (List.ofFn fun i => (uns i).bucketId) = (levelRows prev bits).map fun row => row.1.bucket := by
  have hmap := congrArg (List.map UnsortedRow.bucketId) h.uns_eq
  rw [List.map_ofFn] at hmap
  refine Eq.trans hmap ?_
  apply List.ext_getElem?
  intro i
  rw [List.getElem?_map, List.getElem?_mapIdx, List.getElem?_map, Option.map_map]
  rfl

/-- **A built level is what it should be.** -/
theorem Placed.radixLevel (h : Placed idx₀ place next) (hlevel : Level prev bits uns next) :
    RadixLevel idx₀ (fun r => (place r).bucketId) uns next := by
  have hstable := h.stable
  constructor
  · have hpairs := hlevel.pairs_perm.map Prod.snd
    rw [List.map_ofFn, List.map_ofFn] at hpairs
    have hrange : List.ofFn (Prod.snd ∘ fun j : Fin N => ((next j).idx, j.val)) = List.range N := by
      apply List.ext_getElem
      · rw [List.length_ofFn, List.length_range]
      · intro i h₁ h₂
        rw [List.getElem_ofFn, List.getElem_range]
        rfl
    rw [hrange] at hpairs
    exact hpairs
  · have hidx := congrArg (List.map Prod.fst) hstable
    rw [List.map_ofFn, List.map_map] at hidx
    refine (List.Perm.of_eq hidx).trans (((List.mergeSort_perm _ _).map _).trans ?_)
    rw [List.ofFn_eq_map]
    exact List.Perm.refl _
  · intro i j k hij hjk hsame
    exact le_antisymm (hsame ▸ h.bucket_le hjk) (h.bucket_le hij)
  · exact fun i j hij => h.bucket_le hij
  · intro i
    have hrow := hlevel.uns_apply i
    rw [hlevel.bucketIds_eq, ← count_key_add, hrow]
    rfl
  · intro j
    have hmem : next j ∈ List.ofFn next := List.mem_ofFn.mpr ⟨j, rfl⟩
    rw [hlevel.next_eq] at hmem
    obtain ⟨entry, -, heq⟩ := List.mem_map.mp hmem
    rw [hlevel.buckets_perm.count_eq, ← heq]
    rfl
  · exact hstable

end Step

theorem Placed.grouped {N k : ℕ} {idx₀ : Fin N → ℕ} {place : Fin N → Place}
    {prev : Fin N → SortedRow} (h : Placed idx₀ place prev)
    (hid : ∀ r, (place r).bucketId < 2 ^ k) (hN : N < 2 ^ 16) (hk : k < 15)
    (bits : Fin N → Bool) : Grouped (levelRows prev bits) := by
  apply grouped_levelRows _ _ hN hk
  · rw [List.pairwise_ofFn]
    exact fun i j hij => h.bucket_le hij.le
  · intro i
    obtain ⟨r, hr⟩ := h.exists_position i
    obtain ⟨hlt, -, hbucket⟩ := h.row r
    obtain rfl : i = ⟨(place r).position, hlt⟩ := Fin.ext hr.symm
    rw [hbucket]
    exact hid r

theorem Place.move_bucketId_lt {N k : ℕ} {place : Place} (h : place.bucketId < 2 ^ k)
    (bits : Fin N → Bool) (uns : Fin N → UnsortedRow) :
    (place.move bits uns).bucketId < 2 ^ (k + 1) := by
  rw [Place.move, Nat.pow_succ]
  split_ifs with hlt
  · have hbit := (bits ⟨place.position, hlt⟩).toNat_le
    dsimp only
    omega
  · omega

/-- **The levels from a table on**: each is built, and sorts the first table's rows. -/
theorem exists_radixLevels (B : Build) {N : ℕ} (hN : N < 2 ^ 16) {idx₀ : Fin N → ℕ} :
    ∀ (levels : List (Fin N → Bool)) (k : ℕ) (prev : Fin N → SortedRow) (place : Fin N → Place),
      Placed idx₀ place prev → (∀ r, (place r).bucketId < 2 ^ k) → k + levels.length ≤ 15 →
      ∃ results, buildLevels B levels prev = some results ∧ results.length = levels.length ∧
        ∀ n level, (levels.zip results)[n]? = some level →
          RadixLevel idx₀
            (fun r => ((place r).follow ((levels.zip results).take (n + 1))).bucketId)
            level.2.1 level.2.2
  | [], _, _, _, _, _, _ => ⟨[], rfl, rfl, fun _ _ h => nomatch h⟩
  | bits :: levels, k, prev, place, h, hid, hk => by
      rw [List.length_cons] at hk
      obtain ⟨uns, next, hbuild, hlevel⟩ := exists_buildLevel B (h.grouped hid hN (by omega) bits)
      have hnext := h.step hlevel
      obtain ⟨results, hresults, hlen, hall⟩ := exists_radixLevels B hN levels (k + 1) next
        (fun r => (place r).move bits uns) hnext
        (fun r => Place.move_bucketId_lt (hid r) bits uns) (by omega)
      refine ⟨(uns, next) :: results, ?_, congrArg Nat.succ hlen, ?_⟩
      · rw [buildLevels, hbuild, Option.bind_eq_bind, Option.bind_some]
        dsimp only
        rw [hresults]
        rfl
      · intro n level hget
        rw [List.zip_cons_cons] at hget ⊢
        cases n with
        | zero =>
            obtain rfl := Option.some.inj hget
            exact hnext.radixLevel hlevel
        | succ n => exact hall n level hget

/-- **The RS shuffle is a stable radix sort.**  From one bucket of rows with any indices every
level is built, and is the stable sort of these rows by the bits that they have met. -/
theorem rs_shuffle_radix_sort (B : Build) {N LEVELS : ℕ} (hN : N < 2 ^ 16) (hlevels : LEVELS ≤ 15)
    (idx₀ : Fin N → ℕ) (bitsMat : Fin LEVELS → Fin N → Bool) :
    ∃ results, buildLevels B (List.ofFn bitsMat) (oneBucket idx₀) = some results ∧
      results.length = LEVELS ∧
      ∀ n level, ((List.ofFn bitsMat).zip results)[n]? = some level →
        RadixLevel idx₀ (bucketIdAfter (((List.ofFn bitsMat).zip results).take (n + 1)))
          level.2.1 level.2.2 := by
  have hlen : (List.ofFn bitsMat).length = LEVELS := List.length_ofFn
  obtain ⟨results, hbuild, hresults, hall⟩ := exists_radixLevels B hN (List.ofFn bitsMat) 0
    (oneBucket idx₀) (fun r => ⟨r, 0⟩) (Placed.initial idx₀) (fun _ => Nat.one_pos)
    (by rw [hlen]; omega)
  exact ⟨results, hbuild, hresults.trans hlen, hall⟩

/-- Three rows, two levels, in a build that checks for overflows. -/
theorem rs_shuffle_radix_sort_three :
    ∃ results, buildLevels ⟨true⟩ (List.ofFn ![![true, false, true], ![false, false, true]])
        (oneBucket ![5, 6, 7]) = some results ∧
      results.length = 2 ∧
      ∀ n level, ((List.ofFn ![![true, false, true], ![false, false, true]]).zip results)[n]? =
          some level →
        RadixLevel ![5, 6, 7]
          (bucketIdAfter (((List.ofFn ![![true, false, true], ![false, false, true]]).zip
            results).take (n + 1)))
          level.2.1 level.2.2 :=
  rs_shuffle_radix_sort ⟨true⟩ (by decide) (by decide) ![5, 6, 7]
    ![![true, false, true], ![false, false, true]]

end NexusVm.Shuffling.RsShuffle
