import NexusVm.Builder.Program

/-!
# Dense rows

A row that is written term by term into zeros has, as its inner product with
an assignment, the linear combination of the terms.  The one condition is
that `put` never overwrites a column that an earlier term wrote.
-/

namespace NexusVm.Builder

variable {N F : Type} [Field F]

section Dot

variable {row : List F}

theorem dot_congr {z z' : ℕ → F} (h : ∀ i < row.length, z i = z' i) :
    dot row z = dot row z' := by
  refine Finset.sum_congr rfl fun i hi => ?_
  rw [h i (Finset.mem_range.mp hi)]

theorem dot_replicate_zero (n : ℕ) (z : ℕ → F) : dot (List.replicate n 0) z = 0 := by
  refine Finset.sum_eq_zero fun i hi => ?_
  have hlt : i < n := by simpa using hi
  simp [hlt]

/-- Padding a row for a fresh column does not change its inner products. -/
theorem dot_append_zero (row : List F) (z : ℕ → F) : dot (row ++ [0]) z = dot row z := by
  unfold dot
  rw [List.length_append, List.length_singleton, Finset.sum_range_succ]
  have hlast : (row ++ [0]).getD row.length 0 * z row.length = 0 := by simp
  rw [hlast, add_zero]
  refine Finset.sum_congr rfl fun i hi => ?_
  have hlt : i < row.length := Finset.mem_range.mp hi
  simp [List.getElem?_append_left hlt]

theorem getD_set_self {j : ℕ} (hj : j < row.length) (x : F) :
    (row.set j x).getD j 0 = x := by
  simp [hj]

theorem getD_set_ne {i j : ℕ} (h : i ≠ j) (x : F) :
    (row.set j x).getD i 0 = row.getD i 0 := by
  simp [h.symm]

theorem dot_set {j : ℕ} (hj : j < row.length) (x : F) (z : ℕ → F) :
    dot (row.set j x) z = dot row z + (x - row.getD j 0) * z j := by
  have hmem : j ∈ Finset.range row.length := Finset.mem_range.mpr hj
  unfold dot
  rw [List.length_set, ← Finset.add_sum_erase _ _ hmem, ← Finset.add_sum_erase _ _ hmem,
    getD_set_self hj]
  have hrest : ∑ i ∈ (Finset.range row.length).erase j, (row.set j x).getD i 0 * z i =
      ∑ i ∈ (Finset.range row.length).erase j, row.getD i 0 * z i := by
    refine Finset.sum_congr rfl fun i hi => ?_
    rw [getD_set_ne (Finset.ne_of_mem_erase hi)]
  rw [hrest]
  ring

end Dot

section WriteRow

/-- No `put` writes a column that is in `done` or was written before it. -/
def freshRow [DecidableEq N] {F : Type} : List (Option N) → List (Term N F) → Bool
  | _, [] => true
  | done, .const _ :: ts => !done.contains none && freshRow (none :: done) ts
  | done, .put n _ :: ts => !done.contains (some n) && freshRow (some n :: done) ts
  | done, .acc n _ :: ts => freshRow (some n :: done) ts

/-- Column of a row target. -/
def column (idx : N → Option ℕ) : Option N → Option ℕ
  | none => some 0
  | some n => idx n

/-- The columns that names resolve to: distinct, and distinct from the
constant column. -/
structure Columns (idx : N → Option ℕ) (len : ℕ) : Prop where
  pos : 0 < len
  inj : ∀ n m j, idx n = some j → idx m = some j → n = m
  bound : ∀ n j, idx n = some j → 0 < j ∧ j < len

variable {idx : N → Option ℕ}

variable {len : ℕ}

theorem Columns.column_inj (hc : Columns idx len) {o o' : Option N} {j : ℕ}
    (h : column idx o = some j) (h' : column idx o' = some j) :
    o = o' := by
  cases o with
  | none =>
      cases o' with
      | none => rfl
      | some m =>
          have hj : j = 0 := by simpa [column] using h.symm
          have := (hc.bound m j h').1
          omega
  | some n =>
      cases o' with
      | none =>
          have hj : j = 0 := by simpa [column] using h'.symm
          have := (hc.bound n j h).1
          omega
      | some m => rw [hc.inj n m j h h']

theorem Columns.column_lt (hc : Columns idx len) {o : Option N} {j : ℕ} (h : column idx o = some j) :
    j < len := by
  cases o with
  | none =>
      have hj : j = 0 := by simpa [column] using h.symm
      exact hj ▸ hc.pos
  | some n => exact (hc.bound n j h).2

theorem Columns.update [DecidableEq N] (hc : Columns idx len) (n : N) :
    Columns (Function.update idx n (some len)) (len + 1) where
  pos := by omega
  inj m m' j h h' := by
    simp only [Function.update_apply] at h h'
    split_ifs at h h' with hm hm' hm'
    · rw [hm, hm']
    · have := (hc.bound m' j h').2
      have : len = j := by simpa using h
      omega
    · have := (hc.bound m j h).2
      have : len = j := by simpa using h'
      omega
    · exact hc.inj m m' j h h'
  bound m j h := by
    simp only [Function.update_apply] at h
    split_ifs at h with hm
    · have : len = j := by simpa using h
      have := hc.pos
      omega
    · have := hc.bound m j h
      omega

variable {done : List (Option N)}

/-- Writing `x` into the column of an unwritten target. -/
private theorem dot_set_column {row : List F} (hc : Columns idx row.length) {o : Option N} {j : ℕ}
    (hj : column idx o = some j) (hdone : o ∉ done)
    (hzero : ∀ i, (∀ o ∈ done, column idx o ≠ some i) → row.getD i 0 = 0) (x : F) (z : ℕ → F) :
    dot (row.set j x) z = dot row z + x * z j := by
  have h0 : row.getD j 0 = 0 := by
    refine hzero j fun o' ho' hcol => ?_
    exact hdone (hc.column_inj hj hcol ▸ ho')
  rw [dot_set (hc.column_lt hj), h0, sub_zero]

variable {row row' : List F} {ts : List (Term N F)}

/-- The inner product of a written row is the linear combination of its terms. -/
theorem dot_writeRow [DecidableEq N] {z : ℕ → F} (hz : z 0 = 1) (hc : Columns idx row.length)
    (hfresh : freshRow done ts = true)
    (hzero : ∀ i, (∀ o ∈ done, column idx o ≠ some i) → row.getD i 0 = 0)
    (hw : writeRow idx ts row = some row') :
    row'.length = row.length ∧
      dot row' z = dot row z + lc (fun n => z ((idx n).getD 0)) ts := by
  induction ts generalizing done row with
  | nil =>
      obtain rfl : row = row' := by simpa [writeRow] using hw
      simp
  | cons t ts ih =>
      -- after writing `x` at `j`, the invariant holds with the target added to `done`
      have step : ∀ (o : Option N) (j : ℕ) (x : F), column idx o = some j →
          freshRow (o :: done) ts = true → writeRow idx ts (row.set j x) = some row' →
          row'.length = row.length ∧ dot row' z =
            dot (row.set j x) z + lc (fun n => z ((idx n).getD 0)) ts := by
        intro o j x hj hf hwr
        have hc' : Columns idx (row.set j x).length := by rwa [List.length_set]
        have hzero' : ∀ i, (∀ o' ∈ o :: done, column idx o' ≠ some i) →
            (row.set j x).getD i 0 = 0 := by
          intro i hi
          have hne : i ≠ j := by
            rintro rfl
            exact hi o (List.mem_cons_self ..) hj
          rw [getD_set_ne hne]
          exact hzero i fun o' ho' => hi o' (List.mem_cons_of_mem _ ho')
        simpa using ih hc' hf hzero' hwr
      cases t with
      | const x =>
          simp only [freshRow, Bool.and_eq_true, Bool.not_eq_true', List.contains_eq_mem,
            decide_eq_false_iff_not] at hfresh
          obtain ⟨hlen, hdot⟩ := step none 0 x rfl hfresh.2
            (by simpa [writeRow, Term.write] using hw)
          refine ⟨hlen, ?_⟩
          rw [hdot, dot_set_column hc rfl hfresh.1 hzero, hz, lc_cons, Term.eval_const]
          ring
      | put n x =>
          simp only [freshRow, Bool.and_eq_true, Bool.not_eq_true', List.contains_eq_mem,
            decide_eq_false_iff_not] at hfresh
          cases hj : idx n with
          | none => simp [writeRow, Term.write, hj] at hw
          | some j =>
              obtain ⟨hlen, hdot⟩ := step (some n) j x hj hfresh.2
                (by simpa [writeRow, Term.write, hj] using hw)
              refine ⟨hlen, ?_⟩
              rw [hdot, dot_set_column hc (o := some n) hj hfresh.1 hzero, lc_cons,
                Term.eval_put, hj, Option.getD_some]
              ring
      | acc n x =>
          cases hj : idx n with
          | none => simp [writeRow, Term.write, hj] at hw
          | some j =>
              obtain ⟨hlen, hdot⟩ := step (some n) j (row.getD j 0 + x) hj hfresh
                (by simpa [writeRow, Term.write, hj] using hw)
              refine ⟨hlen, ?_⟩
              rw [hdot, dot_set (hc.bound n j hj).2, lc_cons, Term.eval_acc, hj, Option.getD_some]
              ring

theorem writeRow_length (h : writeRow idx ts row = some row') : row'.length = row.length := by
  induction ts generalizing row with
  | nil => simpa [writeRow] using congrArg (Option.map List.length) h.symm
  | cons t ts ih =>
      rw [writeRow, Option.bind_eq_some_iff] at h
      obtain ⟨row₁, hrow₁, hrest⟩ := h
      have hlen : row₁.length = row.length := by
        cases t with
        | const x =>
            obtain rfl : row.set 0 x = row₁ := by simpa [Term.write] using hrow₁
            simp
        | put n x =>
            obtain ⟨j, -, rfl⟩ := Option.map_eq_some_iff.mp hrow₁
            simp
        | acc n x =>
            obtain ⟨j, -, rfl⟩ := Option.map_eq_some_iff.mp hrow₁
            simp
      rw [ih hrest, hlen]

/-- A row can be written as soon as all its names are known. -/
theorem writeRow_isSome (row : List F) (h : ∀ t ∈ ts, ∀ n, t.target = some n → (idx n).isSome) :
    ∃ row', writeRow idx ts row = some row' := by
  induction ts generalizing row with
  | nil => exact ⟨row, rfl⟩
  | cons t ts ih =>
      have htail : ∀ u ∈ ts, ∀ n, u.target = some n → (idx n).isSome :=
        fun u hu => h u (List.mem_cons_of_mem _ hu)
      have hhead : ∃ row₁, t.write idx row = some row₁ := by
        cases t with
        | const x => exact ⟨_, rfl⟩
        | put n x =>
            obtain ⟨j, hj⟩ := Option.isSome_iff_exists.mp (h _ (List.mem_cons_self ..) n rfl)
            exact ⟨_, by rw [Term.write, hj]; rfl⟩
        | acc n x =>
            obtain ⟨j, hj⟩ := Option.isSome_iff_exists.mp (h _ (List.mem_cons_self ..) n rfl)
            exact ⟨_, by rw [Term.write, hj]; rfl⟩
      obtain ⟨row₁, hrow₁⟩ := hhead
      obtain ⟨row', hrow'⟩ := ih row₁ htail
      exact ⟨row', by rw [writeRow, hrow₁]; exact hrow'⟩

/-- The names of a written row are known. -/
theorem writeRow_defined (h : writeRow idx ts row = some row') :
    ∀ t ∈ ts, ∀ n, t.target = some n → (idx n).isSome := by
  induction ts generalizing row with
  | nil => simp
  | cons t ts ih =>
      rw [writeRow, Option.bind_eq_some_iff] at h
      obtain ⟨row₁, hrow₁, hrest⟩ := h
      intro u hu n hn
      rcases List.mem_cons.mp hu with rfl | hu
      · cases u with
        | const x => simp [Term.target] at hn
        | put m x =>
            obtain rfl : m = n := by simpa [Term.target] using hn
            obtain ⟨j, hj, -⟩ := Option.map_eq_some_iff.mp hrow₁
            simp [hj]
        | acc m x =>
            obtain rfl : m = n := by simpa [Term.target] using hn
            obtain ⟨j, hj, -⟩ := Option.map_eq_some_iff.mp hrow₁
            simp [hj]
      · exact ih hrest u hu n hn

/-- A linear combination depends only on the names its terms mention. -/
theorem lc_congr {σ τ : N → F} (h : ∀ t ∈ ts, ∀ n, t.target = some n → σ n = τ n) :
    lc σ ts = lc τ ts := by
  induction ts with
  | nil => rfl
  | cons t ts ih =>
      have ht : t.eval σ = t.eval τ := by
        cases t with
        | const x => rfl
        | put n x => rw [Term.eval_put, Term.eval_put, h _ (List.mem_cons_self ..) n rfl]
        | acc n x => rw [Term.eval_acc, Term.eval_acc, h _ (List.mem_cons_self ..) n rfl]
      rw [lc_cons, lc_cons, ht, ih fun u hu => h u (List.mem_cons_of_mem _ hu)]

end WriteRow

end NexusVm.Builder
