import NexusVm.Shuffling.RsShuffle.Witness

/-!
# What a level of an RS shuffle builds

A row of bucket `b` goes to the bucket `2 * b` or `2 * b + 1`, its key.  On a table whose rows
are in the order of their buckets, the counters of `build_level` count keys, and `next_pos` is
the rank of the row in a stable sort by the keys.
-/

namespace NexusVm.Shuffling.RsShuffle

/-- The bucket that the row enters. -/
def keyOf (row : SortedRow × Bool) : ℕ := 2 * row.1.bucket + row.2.toNat

/-- The rows are in the order of their buckets, and no `u16` overflows. -/
structure Grouped (rows : List (SortedRow × Bool)) : Prop where
  sorted : rows.Pairwise fun r s => r.1.bucket ≤ s.1.bucket
  length_lt : rows.length < 2 ^ 16
  key_lt : ∀ row ∈ rows, 2 * row.1.bucket + 1 < 2 ^ 16

variable {pre post : List (SortedRow × Bool)}

theorem Grouped.of_append (h : Grouped (pre ++ post)) :
    Grouped pre := by
  constructor
  · exact (List.pairwise_append.mp h.sorted).1
  · have := h.length_lt
    rw [List.length_append] at this
    omega
  · exact fun row hrow => h.key_lt row (List.mem_append_left post hrow)

/-- The entry of a map of counters. -/
def counted (n : ℕ) : Option ℕ := if n = 0 then none else some n

@[simp] theorem counted_getD (n : ℕ) : (counted n).getD 0 = n := by
  unfold counted
  split_ifs with h
  · exact h.symm
  · rfl

theorem increment_counted (B : Build) {f : ℕ → ℕ} {bucket : ℕ} (h : f bucket + 1 < 2 ^ 16) :
    BucketMap.increment B (fun b => counted (f b)) bucket =
      some fun b => counted (f b + if b = bucket then 1 else 0) := by
  rw [BucketMap.increment, counted_getD, B.addU16_of_lt h, Option.bind_eq_bind, Option.bind_some]
  apply congrArg some
  funext b
  by_cases hb : b = bucket
  · subst hb
    rw [Function.update_self, if_pos rfl, counted, if_neg (Nat.succ_ne_zero _)]
  · rw [Function.update_of_ne hb, if_neg hb, Nat.add_zero]

/-- The statistics of the rows with these keys. -/
def statsOf (keys : List ℕ) : BucketStats where
  bucketZeros b := counted (keys.count (2 * b))
  bucketOnes b := counted (keys.count (2 * b + 1))
  bucketStarts b :=
    if keys.count (2 * b) + keys.count (2 * b + 1) = 0 then none
    else some (keys.countP (· < 2 * b))
  bucketLengths b := counted (keys.count (2 * b) + keys.count (2 * b + 1))
  currentPos := keys.length

theorem count_concat (keys : List ℕ) (key b : ℕ) :
    (keys ++ [key]).count b = keys.count b + if b = key then 1 else 0 := by
  rw [List.count_append, List.count_singleton]
  by_cases h : b = key
  · rw [if_pos h, if_pos (beq_iff_eq.mpr h.symm)]
  · rw [if_neg h, if_neg fun heq => h (beq_iff_eq.mp heq).symm]

variable {keys : List ℕ}

/-- All keys of earlier rows are keys of no later bucket. -/
theorem countP_lt_of_le {bucket : ℕ} (h : ∀ key ∈ keys, key / 2 ≤ bucket)
    (hnone : keys.count (2 * bucket) + keys.count (2 * bucket + 1) = 0) :
    keys.countP (· < 2 * bucket) = keys.length := by
  rw [List.countP_eq_length]
  intro key hkey
  have hle := h key hkey
  have hzero : keys.count (2 * bucket) = 0 := by omega
  have hone : keys.count (2 * bucket + 1) = 0 := by omega
  have hne₀ : key ≠ 2 * bucket := fun heq => List.count_eq_zero.mp hzero (heq ▸ hkey)
  have hne₁ : key ≠ 2 * bucket + 1 := fun heq => List.count_eq_zero.mp hone (heq ▸ hkey)
  exact decide_eq_true (by omega)

theorem keyOf_div (row : SortedRow × Bool) : keyOf row / 2 = row.1.bucket := by
  have hbit := row.2.toNat_le
  rw [keyOf]
  omega

variable {row : SortedRow × Bool}

theorem Grouped.div_le (h : Grouped (pre ++ row :: post)) :
    ∀ key ∈ pre.map keyOf, key / 2 ≤ row.1.bucket := by
  intro key hkey
  obtain ⟨r, hr, rfl⟩ := List.mem_map.mp hkey
  rw [keyOf_div]
  exact (List.pairwise_append.mp h.sorted).2.2 r hr row List.mem_cons_self

/-- The counters of a bucket do not exceed the number of rows. -/
theorem counts_le (keys : List ℕ) (b : ℕ) :
    keys.count (2 * b) + keys.count (2 * b + 1) ≤ keys.length := by
  induction keys with
  | nil => exact le_rfl
  | cons key keys ih =>
      simp only [List.count_cons, List.length_cons, beq_iff_eq]
      split_ifs <;> omega

/-- The starts of the buckets after one more row. -/
theorem starts_concat (key : ℕ) (h : ∀ k ∈ keys, k / 2 ≤ key / 2) :
    (statsOf (keys ++ [key])).bucketStarts =
      if ((statsOf keys).bucketStarts (key / 2)).isNone then
        Function.update (statsOf keys).bucketStarts (key / 2) (some keys.length)
      else (statsOf keys).bucketStarts := by
  have hcount : ∀ b, (keys ++ [key]).count (2 * b) + (keys ++ [key]).count (2 * b + 1) =
      keys.count (2 * b) + keys.count (2 * b + 1) + if b = key / 2 then 1 else 0 := by
    intro b
    rw [count_concat, count_concat]
    split_ifs <;> omega
  have hstart : ∀ b, b ≤ key / 2 →
      (keys ++ [key]).countP (· < 2 * b) = keys.countP (· < 2 * b) := by
    intro b hb
    rw [List.countP_append, List.countP_singleton, if_neg, Nat.add_zero]
    simp only [decide_eq_true_eq]
    omega
  have hlater : ∀ b, key / 2 < b → keys.count (2 * b) + keys.count (2 * b + 1) = 0 := by
    intro b hb
    have hzero : keys.count (2 * b) = 0 :=
      List.count_eq_zero.mpr fun hmem => by have := h _ hmem; omega
    have hone : keys.count (2 * b + 1) = 0 :=
      List.count_eq_zero.mpr fun hmem => by have := h _ hmem; omega
    omega
  funext b
  by_cases hnone : keys.count (2 * (key / 2)) + keys.count (2 * (key / 2) + 1) = 0
  · -- the first row of its bucket
    rw [if_pos (by simp only [statsOf, if_pos hnone, Option.isNone_none])]
    rcases eq_or_ne b (key / 2) with rfl | hb
    · rw [Function.update_self]
      simp only [statsOf, hcount, hnone, if_pos, Nat.zero_add, Nat.one_ne_zero, if_false]
      rw [hstart _ le_rfl, countP_lt_of_le h hnone]
    · rw [Function.update_of_ne hb]
      simp only [statsOf, hcount, if_neg hb, Nat.add_zero]
      split_ifs with hzero
      · rfl
      · rcases lt_or_gt_of_ne hb with hlt | hlt
        · rw [hstart b hlt.le]
        · exact absurd (hlater b hlt) hzero
  · rw [if_neg (by simp only [statsOf, if_neg hnone, Option.isNone_some, Bool.false_eq_true,
      not_false_eq_true])]
    simp only [statsOf, hcount]
    rcases lt_trichotomy b (key / 2) with hlt | rfl | hlt
    · rw [if_neg hlt.ne, Nat.add_zero, hstart b hlt.le]
    · rw [if_pos rfl, if_neg (Nat.succ_ne_zero _), if_neg hnone, hstart _ le_rfl]
    · rw [if_neg hlt.ne', Nat.add_zero, if_pos (hlater b hlt), if_pos (hlater b hlt)]

/-- A map whose counters grow by one in the bucket of the last key. -/
theorem increment_concat (B : Build) (f : List ℕ → ℕ → ℕ) {key bucket : ℕ}
    (hlt : keys.length + 1 < 2 ^ 16) (hle : f keys bucket ≤ keys.length)
    (h : ∀ b, f (keys ++ [key]) b = f keys b + if b = bucket then 1 else 0) :
    BucketMap.increment B (fun b => counted (f keys b)) bucket =
      some fun b => counted (f (keys ++ [key]) b) := by
  rw [increment_counted B (by omega)]
  simp only [h]

/-- **One step of the first loop.** -/
theorem count_statsOf (B : Build) {pre : List (SortedRow × Bool)} (h : Grouped (pre ++ [row])) :
    BucketStats.count B (statsOf (pre.map keyOf)) row =
      some (statsOf ((pre ++ [row]).map keyOf)) := by
  have hlt : (pre.map keyOf).length + 1 < 2 ^ 16 := by
    have := h.length_lt
    rwa [List.length_append, List.length_singleton, ← List.length_map keyOf] at this
  have hle := h.div_le
  rw [List.map_append, List.map_singleton]
  generalize pre.map keyOf = keys at hlt hle ⊢
  obtain ⟨row, bit⟩ := row
  have hdiv : keyOf (row, bit) / 2 = row.bucket := keyOf_div _
  have hkey : keyOf (row, bit) = 2 * row.bucket + bit.toNat := rfl
  generalize keyOf (row, bit) = key at hdiv hkey ⊢
  have hcounts := counts_le keys row.bucket
  have hstarts := starts_concat key (by rw [hdiv]; exact hle)
  rw [hdiv] at hstarts
  have hlengths : BucketMap.increment B (statsOf keys).bucketLengths row.bucket =
      some (statsOf (keys ++ [key])).bucketLengths := by
    refine increment_concat B (fun keys b => keys.count (2 * b) + keys.count (2 * b + 1)) hlt
      hcounts fun b => ?_
    rw [count_concat, count_concat]
    split_ifs <;> omega
  have hpos : B.addU16 keys.length 1 = some (keys ++ [key]).length := by
    rw [B.addU16_of_lt hlt, List.length_append, List.length_singleton]
  cases bit with
  | false =>
      have hzeros : BucketMap.increment B (statsOf keys).bucketZeros row.bucket =
          some (statsOf (keys ++ [key])).bucketZeros := by
        refine increment_concat B (fun keys b => keys.count (2 * b)) hlt
          (by show keys.count _ ≤ _; omega) fun b => ?_
        simp only [count_concat, hkey, Bool.toNat_false]
        split_ifs <;> omega
      have hones : (statsOf keys).bucketOnes = (statsOf (keys ++ [key])).bucketOnes := by
        funext b
        have hne : 2 * b + 1 ≠ 2 * row.bucket := by omega
        simp only [statsOf, count_concat, hkey, Bool.toNat_false, Nat.add_zero, if_neg hne]
      simp only [BucketStats.count, Bool.false_eq_true, if_false, hzeros, hones, hlengths,
        Option.bind_eq_bind, Option.bind_some, Option.pure_def]
      rw [show (statsOf keys).currentPos = keys.length from rfl, hpos, ← hstarts]
      rfl
  | true =>
      have hzeros : (statsOf keys).bucketZeros = (statsOf (keys ++ [key])).bucketZeros := by
        funext b
        have hne : 2 * b ≠ 2 * row.bucket + 1 := by omega
        simp only [statsOf, count_concat, hkey, Bool.toNat_true, Nat.add_zero, if_neg hne]
      have hones : BucketMap.increment B (statsOf keys).bucketOnes row.bucket =
          some (statsOf (keys ++ [key])).bucketOnes := by
        refine increment_concat B (fun keys b => keys.count (2 * b + 1)) hlt
          (by show keys.count _ ≤ _; omega) fun b => ?_
        simp only [count_concat, hkey, Bool.toNat_true]
        split_ifs <;> omega
      simp only [BucketStats.count, if_true, hzeros, hones, hlengths,
        Option.bind_eq_bind, Option.bind_some, Option.pure_def]
      rw [show (statsOf keys).currentPos = keys.length from rfl, hpos, ← hstarts]
      rfl

/-- **The first pass.** -/
theorem foldlM_count (B : Build) (h : Grouped (pre ++ post)) :
    post.foldlM (BucketStats.count B) (statsOf (pre.map keyOf)) =
      some (statsOf ((pre ++ post).map keyOf)) := by
  induction post generalizing pre with
  | nil => rw [List.append_nil, List.foldlM_nil, Option.pure_def]
  | cons row post ih =>
      have happ : pre ++ row :: post = pre ++ [row] ++ post := by
        rw [List.append_assoc, List.singleton_append]
      rw [happ] at h ⊢
      rw [List.foldlM_cons, count_statsOf B h.of_append, Option.bind_eq_bind, Option.bind_some]
      exact ih h

/-! ## The rows and the next table -/

/-- The row at position `i` of the table whose rows have these keys. -/
def levelRow (keys : List ℕ) (i : ℕ) (row : SortedRow × Bool) : UnsortedRow where
  bit := row.2
  numZeros := (keys.take i).count (2 * row.1.bucket)
  numOnes := (keys.take i).count (2 * row.1.bucket + 1)
  numZerosInBucket := keys.count (2 * row.1.bucket)
  bucketLength := keys.count (2 * row.1.bucket) + keys.count (2 * row.1.bucket + 1)
  idx := row.1.idx
  nextPos := stableRank keys i (keyOf row)
  bucketId := row.1.bucket

/-- What the counters hold after rows with these keys, for a row of this or a later bucket. -/
def Counts (counters : Counters) (keys : List ℕ) : Prop :=
  ∀ bucket, (∀ key ∈ keys, key / 2 ≤ bucket) →
    counters.enter bucket =
      ⟨some bucket, keys.count (2 * bucket), keys.count (2 * bucket + 1)⟩

theorem counts_nil : Counts ⟨none, 0, 0⟩ [] := fun _ _ => rfl

theorem counts_concat (key : ℕ) (h : ∀ k ∈ keys, k / 2 ≤ key / 2) :
    Counts ⟨some (key / 2), (keys ++ [key]).count (2 * (key / 2)),
      (keys ++ [key]).count (2 * (key / 2) + 1)⟩ (keys ++ [key]) := by
  intro bucket hle
  have hbucket := hle key (List.mem_append_right _ List.mem_cons_self)
  rcases hbucket.eq_or_lt with heq | hlt
  · subst heq
    rw [Counters.enter, if_neg (not_not.mpr rfl)]
  · have hnone : ∀ k ∈ keys ++ [key], k / 2 < bucket := by
      intro k hk
      rcases List.mem_append.mp hk with hk | hk
      · exact (h k hk).trans_lt hlt
      · rwa [List.mem_singleton.mp hk]
    have hzero : (keys ++ [key]).count (2 * bucket) = 0 :=
      List.count_eq_zero.mpr fun hmem => by have := hnone _ hmem; omega
    have hone : (keys ++ [key]).count (2 * bucket + 1) = 0 :=
      List.count_eq_zero.mpr fun hmem => by have := hnone _ hmem; omega
    rw [Counters.enter, if_pos fun heq => hlt.ne (Option.some.inj heq), hzero, hone]

theorem countP_lt_succ (keys : List ℕ) (key : ℕ) :
    keys.countP (· < key + 1) = keys.countP (· < key) + keys.count key := by
  induction keys with
  | nil => rfl
  | cons x keys ih =>
      simp only [List.countP_cons, List.count_cons, beq_iff_eq, decide_eq_true_eq]
      split_ifs <;> omega

/-- **One step of the second loop.** -/
theorem unsortedRow_eq (B : Build) {counters : Counters} (h : Grouped (pre ++ row :: post))
    (hcounters : Counts counters (pre.map keyOf)) :
    ∃ counters', Counts counters' ((pre ++ [row]).map keyOf) ∧
      unsortedRow B (statsOf ((pre ++ row :: post).map keyOf)) row counters =
        some (levelRow ((pre ++ row :: post).map keyOf) pre.length row, counters') := by
  have hlt := h.length_lt
  rw [← List.length_map keyOf] at hlt
  have henter := hcounters row.1.bucket h.div_le
  have hnext := counts_concat (keyOf row) (by rw [keyOf_div]; exact h.div_le)
  rw [keyOf_div] at hnext
  rw [List.map_append, List.map_singleton]
  refine ⟨_, hnext, ?_⟩
  have htake : ((pre ++ row :: post).map keyOf).take pre.length = pre.map keyOf := by
    rw [List.map_append, List.take_left' (List.length_map _)]
  have hget : ((pre ++ row :: post).map keyOf)[pre.length]? = some (keyOf row) := by
    rw [List.getElem?_map, List.getElem?_append_right le_rfl, Nat.sub_self]
    rfl
  generalize (pre ++ row :: post).map keyOf = keys at hlt htake hget ⊢
  generalize pre.map keyOf = before at henter htake ⊢
  obtain ⟨row, bit⟩ := row
  have hkey : keyOf (row, bit) = 2 * row.bucket + bit.toNat := rfl
  have hrank := stableRank_lt_length hget
  -- the counters of the bucket
  have hbefore := counts_le before row.bucket
  have hlen : before.length + 1 ≤ keys.length := by
    rw [← htake, List.length_take]
    have := (List.getElem?_eq_some_iff.mp hget).1
    omega
  have hmem : keyOf (row, bit) ∈ keys := List.mem_of_getElem? hget
  have hstart : (((statsOf keys).bucketStarts row.bucket).getD 0) =
      keys.countP (· < 2 * row.bucket) := by
    have hpos := List.count_pos_iff.mpr hmem
    simp only [statsOf]
    rw [if_neg, Option.getD_some]
    cases bit with
    | false =>
        rw [hkey, Bool.toNat_false, Nat.add_zero] at hpos
        omega
    | true =>
        rw [hkey, Bool.toNat_true] at hpos
        omega
  have hzeros : (((statsOf keys).bucketZeros row.bucket).getD 0) = keys.count (2 * row.bucket) :=
    counted_getD _
  have hlength : (((statsOf keys).bucketLengths row.bucket).getD 0) =
      keys.count (2 * row.bucket) + keys.count (2 * row.bucket + 1) := counted_getD _
  rw [stableRank, htake, hkey] at hrank
  cases bit with
  | false =>
      rw [Bool.toNat_false, Nat.add_zero] at hkey hrank
      have hpos : B.addU16 (keys.countP (· < 2 * row.bucket)) (before.count (2 * row.bucket)) =
          some (stableRank keys pre.length (2 * row.bucket)) := by
        rw [B.addU16_of_lt (by omega), stableRank, htake]
      have hsucc : B.addU16 (before.count (2 * row.bucket)) 1 =
          some ((before ++ [2 * row.bucket]).count (2 * row.bucket)) := by
        rw [B.addU16_of_lt (by omega), count_concat, if_pos rfl]
      have hsame : (before ++ [2 * row.bucket]).count (2 * row.bucket + 1) =
          before.count (2 * row.bucket + 1) := by
        rw [count_concat, if_neg (by omega), Nat.add_zero]
      simp only [unsortedRow, henter, hzeros, hlength, hstart, hpos, hsucc, hkey, hsame,
        Bool.false_eq_true, if_false, Option.bind_eq_bind, Option.bind_some, Option.pure_def,
        levelRow, htake]
  | true =>
      rw [Bool.toNat_true] at hkey hrank
      rw [countP_lt_succ] at hrank
      have hoffset : B.addU16 (keys.count (2 * row.bucket)) (before.count (2 * row.bucket + 1)) =
          some (keys.count (2 * row.bucket) + before.count (2 * row.bucket + 1)) :=
        B.addU16_of_lt (by omega)
      have hpos : B.addU16 (keys.countP (· < 2 * row.bucket))
          (keys.count (2 * row.bucket) + before.count (2 * row.bucket + 1)) =
          some (stableRank keys pre.length (2 * row.bucket + 1)) := by
        rw [B.addU16_of_lt (by omega), stableRank, htake, countP_lt_succ, Nat.add_assoc]
      have hsucc : B.addU16 (before.count (2 * row.bucket + 1)) 1 =
          some ((before ++ [2 * row.bucket + 1]).count (2 * row.bucket + 1)) := by
        rw [B.addU16_of_lt (by omega), count_concat, if_pos rfl]
      have hsame : (before ++ [2 * row.bucket + 1]).count (2 * row.bucket) =
          before.count (2 * row.bucket) := by
        rw [count_concat, if_neg (by omega), Nat.add_zero]
      simp only [unsortedRow, henter, hzeros, hlength, hstart, hoffset, hpos, hsucc, hkey, hsame,
        if_true, Option.bind_eq_bind, Option.bind_some, Option.pure_def, levelRow, htake]

/-- **The second pass.** -/
theorem unsortedRows_eq (B : Build) {counters : Counters} (h : Grouped (pre ++ post))
    (hcounters : Counts counters (pre.map keyOf)) :
    unsortedRows B (statsOf ((pre ++ post).map keyOf)) post counters =
      some (post.mapIdx fun i row => levelRow ((pre ++ post).map keyOf) (pre.length + i) row) := by
  induction post generalizing pre counters with
  | nil => rfl
  | cons row post ih =>
      obtain ⟨counters', hcounters', hrow⟩ := unsortedRow_eq B h hcounters
      have happ : pre ++ row :: post = pre ++ [row] ++ post := by
        rw [List.append_assoc, List.singleton_append]
      have hrest := ih (by rwa [← happ]) hcounters'
      rw [← happ, List.length_append, List.length_singleton] at hrest
      rw [unsortedRows, hrow, Option.bind_eq_bind, Option.bind_some]
      dsimp only
      rw [hrest, Option.bind_eq_bind, Option.bind_some, List.mapIdx_cons, Option.pure_def]
      simp only [Nat.add_zero, Nat.add_assoc, Nat.add_comm 1]

/-- The row that an entry becomes. -/
def levelNext (keys : List ℕ) (entry : Sortable) : SortedRow where
  idx := entry.idx
  length := keys.count (2 * entry.bucket + entry.bit.toNat)
  bucket := 2 * entry.bucket + entry.bit.toNat

theorem nextRow_eq (B : Build) {entry : Sortable} (h : 2 * entry.bucket + 1 < 2 ^ 16) :
    nextRow B (statsOf keys) entry = some (levelNext keys entry) := by
  have hdouble : B.mulU16 entry.bucket 2 = some (2 * entry.bucket) := by
    rw [B.mulU16_of_lt (by omega), Nat.mul_comm]
  obtain ⟨nextPos, idx, bit, bucket⟩ := entry
  cases bit with
  | false =>
      simp only [nextRow, hdouble, statsOf, counted_getD, Bool.false_eq_true, if_false,
        Option.bind_eq_bind, Option.bind_some, Option.pure_def, levelNext, Bool.toNat_false,
        Nat.add_zero]
  | true =>
      simp only [nextRow, hdouble, statsOf, counted_getD, if_true, B.addU16_of_lt h,
        Option.bind_eq_bind, Option.bind_some, Option.pure_def, levelNext, Bool.toNat_true]

/-- The entry of a row for sorting. -/
def levelSortable (keys : List ℕ) (i : ℕ) (row : SortedRow × Bool) : Sortable :=
  ⟨stableRank keys i (keyOf row), row.1.idx, row.2, row.1.bucket⟩

/-- The entries in the order of the ranks. -/
def levelSorted (rows : List (SortedRow × Bool)) : List Sortable :=
  (rows.mapIdx (levelSortable (rows.map keyOf))).mergeSort
    fun a b => decide (a.nextPos ≤ b.nextPos)

theorem levelSorted_perm (rows : List (SortedRow × Bool)) :
    (levelSorted rows).Perm (rows.mapIdx (levelSortable (rows.map keyOf))) :=
  List.mergeSort_perm _ _

/-- The entries stand where `next_pos` sends them. -/
theorem levelSorted_nextPos (rows : List (SortedRow × Bool)) :
    (levelSorted rows).map Sortable.nextPos = List.range rows.length := by
  apply map_mergeSort_eq_range
  have hranks := stableRanks_perm (rows.map keyOf)
  rw [List.length_map] at hranks
  have hmap : (rows.mapIdx (levelSortable (rows.map keyOf))).map Sortable.nextPos =
      (rows.map keyOf).mapIdx fun i key => stableRank (rows.map keyOf) i key := by
    apply List.ext_getElem?
    intro i
    simp only [List.getElem?_map, List.getElem?_mapIdx, Option.map_map]
    rfl
  rwa [hmap]

theorem length_levelSorted (rows : List (SortedRow × Bool)) :
    (levelSorted rows).length = rows.length := by
  rw [(levelSorted_perm rows).length_eq, List.length_mapIdx]

theorem mem_levelSorted {rows : List (SortedRow × Bool)} {entry : Sortable}
    (h : entry ∈ levelSorted rows) : ∃ i row, rows[i]? = some row ∧
      entry = levelSortable (rows.map keyOf) i row := by
  obtain ⟨i, hi, rfl⟩ := List.mem_mapIdx.mp ((levelSorted_perm rows).mem_iff.mp h)
  exact ⟨i, rows[i], List.getElem?_eq_getElem hi, rfl⟩

/-- The next table is in the order of its buckets. -/
theorem levelSorted_pairwise (rows : List (SortedRow × Bool)) :
    (levelSorted rows).Pairwise fun a b =>
      2 * a.bucket + a.bit.toNat ≤ 2 * b.bucket + b.bit.toNat := by
  have hpos : (levelSorted rows).Pairwise fun a b => a.nextPos < b.nextPos := by
    rw [← List.pairwise_map, levelSorted_nextPos]
    exact List.pairwise_lt_range
  refine hpos.imp_of_mem fun {a b} ha hb hlt => ?_
  obtain ⟨i, row, hi, rfl⟩ := mem_levelSorted ha
  obtain ⟨j, row', hj, rfl⟩ := mem_levelSorted hb
  have hget : (rows.map keyOf)[j]? = some (keyOf row') := by
    rw [List.getElem?_map, hj]
    rfl
  exact key_le_of_stableRank_lt hget hlt

/-! ## A level and all levels -/

/-- The rows of a level with their bits. -/
def levelRows {N : ℕ} (prev : Fin N → SortedRow) (bits : Fin N → Bool) : List (SortedRow × Bool) :=
  (List.ofFn prev).zip (List.ofFn bits)

variable {N : ℕ}

theorem length_levelRows (prev : Fin N → SortedRow) (bits : Fin N → Bool) :
    (levelRows prev bits).length = N := by
  rw [levelRows, List.length_zip, List.length_ofFn, List.length_ofFn, Nat.min_self]

/-- The keys of a level. -/
abbrev levelKeys {N : ℕ} (prev : Fin N → SortedRow) (bits : Fin N → Bool) : List ℕ :=
  (levelRows prev bits).map keyOf

theorem length_levelKeys (prev : Fin N → SortedRow) (bits : Fin N → Bool) :
    (levelKeys prev bits).length = N := by
  rw [List.length_map, length_levelRows]

theorem getElem?_levelRows (prev : Fin N → SortedRow) (bits : Fin N → Bool) (i : Fin N) :
    (levelRows prev bits)[i.val]? = some (prev i, bits i) := by
  rw [levelRows, List.getElem?_zip_eq_some, List.getElem?_ofFn, List.getElem?_ofFn, dif_pos i.isLt,
    dif_pos i.isLt]
  exact ⟨rfl, rfl⟩

/-- What a level is: its rows are counted by their keys, and the next table has them in the
order of their ranks. -/
structure Level {N : ℕ} (prev : Fin N → SortedRow) (bits : Fin N → Bool)
    (uns : Fin N → UnsortedRow) (next : Fin N → SortedRow) : Prop where
  grouped : Grouped (levelRows prev bits)
  uns_eq : List.ofFn uns =
    (levelRows prev bits).mapIdx (levelRow ((levelRows prev bits).map keyOf))
  next_eq : List.ofFn next =
    (levelSorted (levelRows prev bits)).map (levelNext ((levelRows prev bits).map keyOf))

theorem exists_tryInto {α : Type} {l : List α} (h : l.length = N) :
    ∃ f, tryInto N l = some f ∧ List.ofFn f = l := by
  have hsome : ∃ f, tryInto N l = some f := ⟨_, dif_pos h⟩
  obtain ⟨f, hf⟩ := hsome
  exact ⟨f, hf, (tryInto_eq_some.mp hf).symm⟩

/-- A loop none of whose steps panics. -/
theorem mapM_eq_some {α β : Type} {f : α → Option β} {g : α → β} {l : List α}
    (h : ∀ a ∈ l, f a = some (g a)) : l.mapM f = some (l.map g) := by
  induction l with
  | nil => rfl
  | cons a l ih =>
      rw [List.mapM_cons, h a List.mem_cons_self, ih fun b hb => h b (List.mem_cons_of_mem _ hb)]
      rfl

/-- **`build_level` on rows that are grouped by their buckets.** -/
theorem exists_buildLevel (B : Build) {prev : Fin N → SortedRow} {bits : Fin N → Bool}
    (h : Grouped (levelRows prev bits)) :
    ∃ uns next, buildLevel B prev bits = some (uns, next) ∧ Level prev bits uns next := by
  have hrows : (List.ofFn prev).zip (List.ofFn bits) = levelRows prev bits := rfl
  have hlen := length_levelRows prev bits
  generalize levelRows prev bits = rows at h hrows hlen
  have hfirst : rows.foldlM (BucketStats.count B) .new = some (statsOf (rows.map keyOf)) :=
    foldlM_count B (show Grouped ([] ++ rows) from h)
  have hsecond : unsortedRows B (statsOf (rows.map keyOf)) rows ⟨none, 0, 0⟩ =
      some (rows.mapIdx (levelRow (rows.map keyOf))) := by
    have hpass := unsortedRows_eq B (show Grouped ([] ++ rows) from h) counts_nil
    simpa only [List.nil_append, List.length_nil, Nat.zero_add] using hpass
  have hsortable : List.zipWith
      (fun (uns : UnsortedRow) (row : SortedRow × Bool) =>
        (⟨uns.nextPos, row.1.idx, row.2, row.1.bucket⟩ : Sortable))
      (rows.mapIdx (levelRow (rows.map keyOf))) rows =
      rows.mapIdx (levelSortable (rows.map keyOf)) := by
    apply List.ext_getElem?
    intro i
    rw [List.getElem?_zipWith, List.getElem?_mapIdx, List.getElem?_mapIdx]
    cases rows[i]? with
    | none => rfl
    | some row => rfl
  have hthird : (levelSorted rows).mapM (nextRow B (statsOf (rows.map keyOf))) =
      some ((levelSorted rows).map (levelNext (rows.map keyOf))) := by
    apply mapM_eq_some
    intro entry hentry
    obtain ⟨i, row, hi, rfl⟩ := mem_levelSorted hentry
    exact nextRow_eq B (h.key_lt row (List.mem_of_getElem? hi))
  obtain ⟨uns, huns, huns_eq⟩ : ∃ uns, tryInto N (rows.mapIdx (levelRow (rows.map keyOf))) =
      some uns ∧ List.ofFn uns = rows.mapIdx (levelRow (rows.map keyOf)) :=
    exists_tryInto (List.length_mapIdx.trans hlen)
  obtain ⟨next, hnext, hnext_eq⟩ : ∃ next,
      tryInto N ((levelSorted rows).map (levelNext (rows.map keyOf))) = some next ∧
        List.ofFn next = (levelSorted rows).map (levelNext (rows.map keyOf)) := by
    apply exists_tryInto
    rw [List.length_map, length_levelSorted, hlen]
  refine ⟨uns, next, ?_, ?_⟩
  · rw [levelSorted] at hthird hnext
    simp only [buildLevel, hrows, hfirst, hsecond, hsortable, hthird, huns, hnext,
      Option.bind_eq_bind, Option.bind_some, Option.pure_def]
  · rw [← hrows] at h huns_eq hnext_eq
    exact ⟨h, huns_eq, hnext_eq⟩

section Level

variable {N : ℕ} {prev : Fin N → SortedRow} {bits : Fin N → Bool} {uns : Fin N → UnsortedRow}
  {next : Fin N → SortedRow}

theorem getElem?_keys (prev : Fin N → SortedRow) (bits : Fin N → Bool) (i : Fin N) :
    ((levelRows prev bits).map keyOf)[i.val]? = some (keyOf (prev i, bits i)) := by
  rw [List.getElem?_map, getElem?_levelRows]
  rfl

theorem Level.uns_apply (h : Level prev bits uns next) (i : Fin N) :
    uns i = levelRow ((levelRows prev bits).map keyOf) i (prev i, bits i) := by
  have hget := congrArg (fun l => l[i.val]?) h.uns_eq
  simp only [List.getElem?_ofFn, dif_pos i.isLt, List.getElem?_mapIdx, getElem?_levelRows,
    Option.map_some] at hget
  exact Option.some.inj hget

/-- The rows of the two tables with their positions in the next one. -/
theorem Level.pairs_perm (h : Level prev bits uns next) :
    (List.ofFn fun i => ((uns i).idx, (uns i).nextPos)).Perm
      (List.ofFn fun j => ((next j).idx, j.val)) := by
  have huns : (List.ofFn fun i => ((uns i).idx, (uns i).nextPos)) =
      ((levelRows prev bits).mapIdx (levelSortable ((levelRows prev bits).map keyOf))).map
        fun entry => (entry.idx, entry.nextPos) := by
    have hmap := congrArg (List.map fun row : UnsortedRow => (row.idx, row.nextPos)) h.uns_eq
    rw [List.map_ofFn] at hmap
    refine Eq.trans hmap ?_
    apply List.ext_getElem?
    intro i
    simp only [List.getElem?_map, List.getElem?_mapIdx, Option.map_map]
    rfl
  have hnext : (List.ofFn fun j => ((next j).idx, j.val)) =
      (levelSorted (levelRows prev bits)).map fun entry => (entry.idx, entry.nextPos) := by
    have hidx : (List.ofFn fun j => (next j).idx) =
        (levelSorted (levelRows prev bits)).map Sortable.idx := by
      have hmap := congrArg (List.map SortedRow.idx) h.next_eq
      rwa [List.map_ofFn, List.map_map] at hmap
    have hpos := levelSorted_nextPos (levelRows prev bits)
    rw [length_levelRows] at hpos
    rw [← List.zip_map', hpos, ← hidx]
    apply List.ext_getElem
    · rw [List.length_zip, List.length_ofFn, List.length_ofFn, List.length_range, Nat.min_self]
    · intro j h₁ h₂
      rw [List.getElem_zip, List.getElem_ofFn, List.getElem_ofFn, List.getElem_range]
  rw [huns, hnext]
  exact ((levelSorted_perm _).map _).symm

/-- The entries of the next table are the rows of the previous one with their bits. -/
theorem Level.exists_entry (h : Level prev bits uns next) (j : Fin N) :
    ∃ i, (next j).idx = (prev i).idx ∧ (next j).bucket = keyOf (prev i, bits i) := by
  have hmem : next j ∈ List.ofFn next := List.mem_ofFn.mpr ⟨j, rfl⟩
  rw [h.next_eq] at hmem
  obtain ⟨entry, hentry, heq⟩ := List.mem_map.mp hmem
  obtain ⟨i, row, hi, rfl⟩ := mem_levelSorted hentry
  have hlt := (List.getElem?_eq_some_iff.mp hi).1
  rw [length_levelRows] at hlt
  rw [getElem?_levelRows prev bits ⟨i, hlt⟩] at hi
  obtain rfl := Option.some.inj hi
  exact ⟨⟨i, hlt⟩, (congrArg SortedRow.idx heq).symm, (congrArg SortedRow.bucket heq).symm⟩

end Level

/-- The table after `k` levels: in the order of its buckets, with every index once. -/
structure Table {N : ℕ} (k : ℕ) (rows : Fin N → SortedRow) : Prop where
  sorted : (List.ofFn rows).Pairwise fun r s => r.bucket ≤ s.bucket
  bucket_lt : ∀ i, (rows i).bucket < 2 ^ k
  idx_perm : (List.ofFn fun i => (rows i).idx).Perm (List.range N)

theorem Table.initial (hN : N < 2 ^ 16) : Table 0 (initialRows N) := by
  constructor
  · rw [List.pairwise_ofFn]
    exact fun _ _ _ => le_rfl
  · exact fun _ => Nat.one_pos
  · have hidx : (List.ofFn fun i => (initialRows N i).idx) = List.range N := by
      apply List.ext_getElem
      · rw [List.length_ofFn, List.length_range]
      · intro i h₁ h₂
        rw [List.length_range] at h₂
        rw [List.getElem_ofFn, List.getElem_range]
        exact Nat.mod_eq_of_lt (h₂.trans hN)
    rw [hidx]

variable {N k : ℕ}

/-- Rows in the order of their buckets, of which there are not too many. -/
theorem grouped_levelRows {prev : Fin N → SortedRow}
    (hsorted : (List.ofFn prev).Pairwise fun r s => r.bucket ≤ s.bucket)
    (hbucket : ∀ i, (prev i).bucket < 2 ^ k) (hN : N < 2 ^ 16) (hk : k < 15) (bits : Fin N → Bool) :
    Grouped (levelRows prev bits) := by
  constructor
  · have hmap : (levelRows prev bits).map Prod.fst = List.ofFn prev := by
      rw [levelRows, List.map_fst_zip]
      rw [List.length_ofFn, List.length_ofFn]
    rwa [← hmap, List.pairwise_map] at hsorted
  · rwa [length_levelRows]
  · intro row hrow
    obtain ⟨i, hi⟩ := List.mem_ofFn.mp (List.of_mem_zip hrow).1
    have hlt := hbucket i
    have hpow : 2 ^ k ≤ 2 ^ 14 := Nat.pow_le_pow_right Nat.two_pos (by omega)
    rw [← hi]
    omega

theorem Table.grouped {prev : Fin N → SortedRow} (h : Table k prev) (hN : N < 2 ^ 16) (hk : k < 15)
    (bits : Fin N → Bool) : Grouped (levelRows prev bits) :=
  grouped_levelRows h.sorted h.bucket_lt hN hk bits

/-- **The step from one table to the next.** -/
theorem Table.step {prev : Fin N → SortedRow} {bits : Fin N → Bool} {uns : Fin N → UnsortedRow}
    {next : Fin N → SortedRow} (h : Table k prev) (hlevel : Level prev bits uns next) :
    Table (k + 1) next := by
  constructor
  · rw [hlevel.next_eq, List.pairwise_map]
    exact levelSorted_pairwise _
  · intro j
    obtain ⟨i, -, hbucket⟩ := hlevel.exists_entry j
    have hlt := h.bucket_lt i
    have hbit := (bits i).toNat_le
    rw [hbucket, keyOf, Nat.pow_succ]
    dsimp only
    omega
  · have hnext := hlevel.pairs_perm.map Prod.fst
    rw [List.map_ofFn, List.map_ofFn] at hnext
    have hidx : (List.ofFn fun i => (uns i).idx) = List.ofFn fun i => (prev i).idx := by
      congr 1
      funext i
      rw [hlevel.uns_apply]
      rfl
    exact hnext.symm.trans ((List.Perm.of_eq hidx).trans h.idx_perm)

/-- **The levels**: each is built, from a table in order to a table in order. -/
theorem exists_buildLevels (B : Build) (hN : N < 2 ^ 16) :
    ∀ (levels : List (Fin N → Bool)) (k : ℕ) (prev : Fin N → SortedRow), Table k prev →
      k + levels.length ≤ 15 → ∃ results, buildLevels B levels prev = some results ∧
        results.length = levels.length ∧
        (∀ r ∈ results, ∃ k < 15, ∃ prev bits, Table k prev ∧ Level prev bits r.1 r.2) ∧
        ∀ r, results[0]? = some r → ∀ i, (r.1 i).idx = (prev i).idx
  | [], _, _, _, _ => ⟨[], rfl, rfl, fun _ h => absurd h List.not_mem_nil, fun _ h => nomatch h⟩
  | bits :: levels, k, prev, h, hk => by
      rw [List.length_cons] at hk
      obtain ⟨uns, next, hbuild, hlevel⟩ := exists_buildLevel B (h.grouped hN (by omega) bits)
      obtain ⟨results, hresults, hlen, hall, -⟩ :=
        exists_buildLevels B hN levels (k + 1) next (h.step hlevel) (by omega)
      refine ⟨(uns, next) :: results, ?_, congrArg Nat.succ hlen, ?_, ?_⟩
      · rw [buildLevels, hbuild, Option.bind_eq_bind, Option.bind_some]
        dsimp only
        rw [hresults]
        rfl
      · intro r hr
        rcases List.mem_cons.mp hr with rfl | hr
        · exact ⟨k, by omega, prev, bits, h, hlevel⟩
        · exact hall r hr
      · intro r hr i
        obtain rfl := Option.some.inj hr
        show (uns i).idx = _
        rw [hlevel.uns_apply]
        rfl

theorem mapM_ofFn_eq_some {α β : Type} {f : α → Option β} {a : Fin N → α} {b : Fin N → β}
    (h : ∀ i, f (a i) = some (b i)) : (List.ofFn a).mapM f = some (List.ofFn b) := by
  rw [List.ofFn_eq_map, List.ofFn_eq_map, List.mapM_map]
  exact mapM_eq_some fun i _ => h i

/-- **The witness for any split bits.** -/
theorem exists_prepareWitnessData (B : Build) {N LEVELS : ℕ} (hN : N < 2 ^ 16)
    (hlevels : LEVELS ≤ 15) (bitsMat : Fin LEVELS → Fin N → Bool) :
    ∃ w, prepareWitnessData B bitsMat = some w ∧
      (∀ level, ∃ k < 15, ∃ prev bits, Table k prev ∧
        Level prev bits (w.unsLevels level) (w.nextLevels level)) ∧
      ∀ (h : 0 < LEVELS) i, (w.unsLevels ⟨0, h⟩ i).idx = i := by
  have hlen : (List.ofFn bitsMat).length = LEVELS := List.length_ofFn
  obtain ⟨results, hbuild, hresults, hall, hfirst⟩ := exists_buildLevels B hN (List.ofFn bitsMat) 0
    (initialRows N) (Table.initial hN) (by omega)
  obtain ⟨f, hf, hlist⟩ := exists_tryInto (hresults.trans hlen)
  have hw : prepareWitnessData B bitsMat =
      some ⟨bitsMat, fun level => (f level).1, fun level => (f level).2⟩ := by
    rw [prepareWitnessData, hbuild, Option.bind_eq_bind, Option.bind_some, hf, Option.bind_eq_bind,
      Option.bind_some]
    rfl
  refine ⟨_, hw, ?_, ?_⟩
  · intro level
    apply hall (f level)
    rw [← hlist]
    exact List.mem_ofFn.mpr ⟨level, rfl⟩
  · intro h i
    have hget : results[0]? = some (f ⟨0, h⟩) := by
      rw [← hlist, List.getElem?_ofFn, dif_pos h]
    rw [hfirst _ hget]
    exact Nat.mod_eq_of_lt (i.isLt.trans hN)

/-- **The permutation for any split bits**: the index column of the last table. -/
theorem exists_permutation (B : Build) {N LEVELS : ℕ} (hN : N < 2 ^ 16) (hpos : 0 < LEVELS)
    (hlevels : LEVELS ≤ 15) (bitsMat : Fin LEVELS → Fin N → Bool) :
    ∃ (w : WitnessData N LEVELS) (σ : Equiv.Perm (Fin N)),
      (∀ level, ∃ k < 15, ∃ prev bits, Table k prev ∧
        Level prev bits (w.unsLevels level) (w.nextLevels level)) ∧
      (∀ i, (w.unsLevels ⟨0, hpos⟩ i).idx = i) ∧
      (∀ j, (w.nextLevels ⟨LEVELS - 1, Nat.sub_one_lt_of_lt hpos⟩ j).idx = (σ j).val) ∧
      prepareWitnessData B bitsMat = some w ∧
      ∀ (T : Type) (input : Fin N → T),
        applyRsShufflePermutation B bitsMat input = some (w, input ∘ σ) := by
  obtain ⟨w, hw, hall, hfirst⟩ := exists_prepareWitnessData B hN hlevels bitsMat
  let last : Fin LEVELS := ⟨LEVELS - 1, Nat.sub_one_lt_of_lt hpos⟩
  obtain ⟨k, hk, prev, bits, htable, hlevel⟩ := hall last
  have hperm := (htable.step hlevel).idx_perm
  have hlt : ∀ j, (w.nextLevels last j).idx < N := fun j =>
    List.mem_range.mp (hperm.mem_iff.mp (List.mem_ofFn.mpr ⟨j, rfl⟩))
  have hinj : Function.Injective fun j => (⟨(w.nextLevels last j).idx, hlt j⟩ : Fin N) := by
    intro i j hij
    exact List.nodup_ofFn.mp (hperm.nodup_iff.mpr List.nodup_range) (congrArg Fin.val hij)
  refine ⟨w, Equiv.ofBijective _ (Finite.injective_iff_bijective.mp hinj), hall, hfirst hpos,
    fun _ => rfl, hw, ?_⟩
  intro T input
  have hlast : (List.ofFn w.nextLevels)[LEVELS - 1]? = some (w.nextLevels last) := by
    rw [List.getElem?_ofFn, dif_pos last.isLt]
  have houtput : (List.ofFn (w.nextLevels last)).mapM
      (fun sortedRow => (List.ofFn input)[sortedRow.idx]?) =
      some (List.ofFn fun j => input ⟨(w.nextLevels last j).idx, hlt j⟩) := by
    apply mapM_ofFn_eq_some
    intro j
    rw [List.getElem?_ofFn, dif_pos (hlt j)]
  have harray : tryInto N (List.ofFn fun j => input ⟨(w.nextLevels last j).idx, hlt j⟩) =
      some fun j => input ⟨(w.nextLevels last j).idx, hlt j⟩ := tryInto_eq_some.mpr rfl
  simp only [applyRsShufflePermutation, hw, hlast, houtput, harray, Option.bind_eq_bind,
    Option.bind_some, Option.pure_def]
  rfl

end NexusVm.Shuffling.RsShuffle
