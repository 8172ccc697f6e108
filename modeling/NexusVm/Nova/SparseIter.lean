import NexusVm.Nova.Sparse

/-!
# Entries of a sparse matrix

`SparseMatrix::iter` of `nova/src/sparse.rs` lists the entries with their rows.  It looks for the
first row that is not empty, and runs past the row pointers if there is none.
-/

namespace NexusVm.Nova.SparseMatrix

variable {F : Type}

/-- `while i >= indptr[row + 1] { row += 1 }` on the row pointers after the current row.  With
`i = 0` it is the loop of `iter`. -/
def skipRows {E : Type} (i : ℕ) : List ℕ → ℕ → Run E (List ℕ × ℕ)
  | [], _ => .error .panic
  | ptr :: ptrs, row => if ptr ≤ i then skipRows i ptrs (row + 1) else .ok (ptr :: ptrs, row)

/-- `Iter::next` until it returns `None`, on the entries from `i` on.  After the last entry the
row is not advanced. -/
def collect {E : Type} : List (F × ℕ) → ℕ → List ℕ → ℕ → Run E (List (ℕ × ℕ × F))
  | [], _, _, _ => .ok []
  | [(val, col)], _, _, row => .ok [(row, col, val)]
  | (val, col) :: entry :: entries, i, ptrs, row => do
      let (ptrs', row') ← skipRows (i + 1) ptrs row
      let items ← collect (entry :: entries) (i + 1) ptrs' row'
      .ok ((row, col, val) :: items)

/-- The items of `iter`, collected. -/
def iter {E : Type} (M : SparseMatrix F) : Run E (List (ℕ × ℕ × F)) := do
  let (ptrs, row) ← skipRows 0 M.indptr.tail 0
  collect ((M.data.zip M.indices).take (M.indptr.getLastD 0)) 0 ptrs row

/-- The row pointers run from zero to the number of entries, as `SparseMatrix::new` makes them. -/
structure Tight (M : SparseMatrix F) : Prop where
  first : M.indptr.head? = some 0
  last : M.indptr.getLastD 0 = M.data.length

/-- The entries from `i` on with their rows, cut at the row pointers. -/
def coordinates : ℕ → List ℕ → ℕ → List (F × ℕ) → List (ℕ × ℕ × F)
  | _, [], _, _ => []
  | i, ptr :: ptrs, row, entries =>
      (entries.take (ptr - i)).map (fun e => (row, e.2, e.1)) ++
        coordinates ptr ptrs (row + 1) (entries.drop (ptr - i))

/-- The pointers after the current row, for the entries from `i` on. -/
structure Ahead (i : ℕ) (ptrs : List ℕ) (len : ℕ) : Prop where
  sorted : (i :: ptrs).Pairwise (· ≤ ·)
  last : ptrs.getLastD i = i + len

variable {i ptr : ℕ} {ptrs : List ℕ}

variable {len : ℕ}

theorem Ahead.tail (h : Ahead i (ptr :: ptrs) len) (hptr : ptr = i) :
    Ahead i ptrs len := by
  subst hptr
  constructor
  · exact (List.pairwise_cons.mp h.sorted).2
  · have hlast := h.last
    rwa [List.getLastD_cons] at hlast

variable {E : Type}

/-- Skipping empty rows neither fails nor loses an entry, while an entry is left. -/
theorem skipRows_spec {i : ℕ} (h : Ahead i ptrs len) (hlen : 0 < len) (row : ℕ)
    (entries : List (F × ℕ)) :
    ∃ ptr ptrs' row', (skipRows i ptrs row : Run E _) = .ok (ptr :: ptrs', row') ∧ i < ptr ∧
      Ahead i (ptr :: ptrs') len ∧
      coordinates i ptrs row entries = coordinates i (ptr :: ptrs') row' entries := by
  induction ptrs generalizing row with
  | nil =>
      have hlast := h.last
      rw [List.getLastD_nil] at hlast
      omega
  | cons ptr ptrs ih =>
      by_cases hptr : ptr ≤ i
      · have hge : i ≤ ptr := (List.pairwise_cons.mp h.sorted).1 ptr List.mem_cons_self
        have heq : ptr = i := le_antisymm hptr hge
        obtain ⟨ptr', ptrs', row', hskip, hlt, hahead, hcoords⟩ := ih (h.tail heq) (row + 1)
        refine ⟨ptr', ptrs', row', ?_, hlt, hahead, ?_⟩
        · rw [skipRows, if_pos hptr, hskip]
        · rw [← hcoords, coordinates, heq, Nat.sub_self, List.take_zero, List.map_nil,
            List.nil_append, List.drop_zero]
      · refine ⟨ptr, ptrs, row, ?_, by omega, h, rfl⟩
        rw [skipRows, if_neg hptr]

theorem Ahead.next (h : Ahead i (ptr :: ptrs) (len + 1)) (hptr : i < ptr) :
    Ahead (i + 1) (ptr :: ptrs) len := by
  obtain ⟨hall, htail⟩ := List.pairwise_cons.mp h.sorted
  constructor
  · apply List.pairwise_cons.mpr
    refine ⟨fun p hp => ?_, htail⟩
    rcases List.mem_cons.mp hp with rfl | hp
    · exact hptr
    · have hle := (List.pairwise_cons.mp htail).1 p hp
      omega
  · have hlast := h.last
    rw [List.getLastD_cons] at hlast ⊢
    omega

/-- The current row gives the first of its entries. -/
theorem coordinates_cons (hptr : i < ptr) (ptrs : List ℕ) (row : ℕ) (e : F × ℕ)
    (entries : List (F × ℕ)) :
    coordinates i (ptr :: ptrs) row (e :: entries) =
      (row, e.2, e.1) :: coordinates (i + 1) (ptr :: ptrs) row entries := by
  obtain ⟨gap, rfl⟩ : ∃ gap, ptr = i + 1 + gap := ⟨ptr - (i + 1), by omega⟩
  have hi : i + 1 + gap - i = gap + 1 := by omega
  have hi' : i + 1 + gap - (i + 1) = gap := by omega
  rw [coordinates, coordinates, hi, hi', List.take_succ_cons, List.drop_succ_cons, List.map_cons,
    List.cons_append]

/-- After the last entry only empty rows are left. -/
theorem coordinates_nil (i : ℕ) (ptrs : List ℕ) (row : ℕ) :
    coordinates i ptrs row ([] : List (F × ℕ)) = [] := by
  induction ptrs generalizing i row with
  | nil => rfl
  | cons ptr ptrs ih =>
      rw [coordinates, List.take_nil, List.drop_nil, List.map_nil, List.nil_append, ih]

variable {entries : List (F × ℕ)}

/-- **The iterator** lists the entries row by row. -/
theorem collect_spec (h : Ahead i (ptr :: ptrs) entries.length) (hptr : i < ptr) (row : ℕ) :
    (collect entries i (ptr :: ptrs) row : Run E _) =
      .ok (coordinates i (ptr :: ptrs) row entries) := by
  induction entries generalizing i ptr ptrs row with
  | nil => rw [coordinates_nil, collect]
  | cons e entries ih =>
      rw [coordinates_cons hptr]
      cases entries with
      | nil => rw [coordinates_nil, collect]
      | cons e' entries =>
          obtain ⟨ptr', ptrs', row', hskip, hlt, hahead, hcoords⟩ := skipRows_spec (E := E)
            (h.next hptr) (Nat.succ_pos _) row (e' :: entries)
          rw [hcoords, collect]
          exact bind_eq_ok.mpr ⟨_, hskip, bind_eq_ok.mpr ⟨_, ih hahead hlt row', rfl⟩⟩

/-- Without an entry the iterator runs past the last row. -/
theorem skipRows_zero (h : ∀ ptr ∈ ptrs, ptr = 0) (row : ℕ) :
    (skipRows 0 ptrs row : Run E (List ℕ × ℕ)) = .error .panic := by
  induction ptrs generalizing row with
  | nil => rfl
  | cons ptr ptrs ih =>
      have hptr : ptr ≤ 0 := (h ptr List.mem_cons_self).le
      rw [skipRows, if_pos hptr, ih fun p hp => h p (List.mem_cons_of_mem _ hp)]

/-! ## A matrix and constructed matrices -/

variable {M : SparseMatrix F}

variable {m n : ℕ}

theorem Tight.ahead (h : M.HasDims m n) (htight : M.Tight) :
    Ahead 0 M.indptr.tail M.data.length := by
  obtain ⟨data, indices, indptr, cols⟩ := M
  obtain ⟨hfirst, hlast⟩ := htight
  have hsorted := h.sorted
  cases indptr with
  | nil => cases hfirst
  | cons ptr ptrs =>
      obtain rfl : ptr = 0 := by simpa using hfirst
      constructor
      · exact hsorted
      · rwa [List.getLastD_cons, ← Nat.zero_add data.length] at hlast

/-- The entries of a matrix with their rows and columns. -/
def items (M : SparseMatrix F) : List (ℕ × ℕ × F) :=
  coordinates 0 M.indptr.tail 0 (M.data.zip M.indices)

/-- **The iterator returns exactly if there is an entry**, and then it lists all entries. -/
theorem iter_eq_ok_iff (h : M.HasDims m n) (htight : M.Tight) {out : List (ℕ × ℕ × F)} :
    (M.iter : Run E _) = .ok out ↔ M.data ≠ [] ∧ M.items = out := by
  have hahead := htight.ahead h
  have hzip : (M.data.zip M.indices).length = M.data.length := by
    rw [List.length_zip, h.lengths, min_self]
  have htake : (M.data.zip M.indices).take (M.indptr.getLastD 0) = M.data.zip M.indices := by
    rw [htight.last, ← hzip, List.take_length]
  by_cases hdata : M.data = []
  · have hzero : ∀ ptr ∈ M.indptr.tail, ptr = 0 := by
      intro ptr hptr
      have hbound := h.bound ptr (List.mem_of_mem_tail hptr)
      rw [hdata] at hbound
      exact Nat.le_zero.mp hbound
    rw [iter, skipRows_zero hzero]
    constructor
    · intro hout
      cases hout
    · rintro ⟨hne, -⟩
      exact absurd hdata hne
  · obtain ⟨ptr, ptrs, row, hskip, hlt, hahead', hcoords⟩ := skipRows_spec (E := E) hahead
      (List.length_pos_of_ne_nil hdata) 0 (M.data.zip M.indices)
    rw [← hzip] at hahead'
    have hcollect := collect_spec (E := E) hahead' hlt row
    rw [← hcoords] at hcollect
    rw [iter, htake, hskip]
    show collect _ 0 (ptr :: ptrs) row = _ ↔ _
    rw [hcollect, Except.ok.injEq]
    exact ⟨fun hout => ⟨hdata, hout⟩, fun hout => hout.2⟩

variable {item : ℕ × ℕ × F}

/-- Rows and columns of the entries from `i` on. -/
theorem mem_coordinates {i : ℕ} {row : ℕ} (h : item ∈ coordinates i ptrs row entries) :
    row ≤ item.1 ∧ item.1 < row + ptrs.length ∧ (item.2.2, item.2.1) ∈ entries := by
  induction ptrs generalizing i row entries with
  | nil => cases h
  | cons ptr ptrs ih =>
      rw [coordinates, List.mem_append, List.mem_map] at h
      rcases h with ⟨e, he, rfl⟩ | h
      · exact ⟨le_refl row, by rw [List.length_cons]; omega, List.mem_of_mem_take he⟩
      · obtain ⟨hle, hlt, hmem⟩ := ih h
        rw [List.length_cons]
        exact ⟨by omega, by omega, List.mem_of_mem_drop hmem⟩

/-- The items of a matrix lie in it. -/
theorem mem_items (h : M.HasDims m n) (hitem : item ∈ M.items) :
    item.1 < m ∧ item.2.1 < n := by
  obtain ⟨-, hlt, hmem⟩ := mem_coordinates hitem
  rw [List.length_tail, h.rows] at hlt
  exact ⟨by omega, h.indices _ (List.of_mem_zip hmem).2⟩

section Sums

variable [Field F]

/-- The products of the items of a row with the values of their columns. -/
def rowSum (value : ℕ → F) (row : ℕ) (items : List (ℕ × ℕ × F)) : F :=
  (items.map fun item => if item.1 = row then item.2.2 * value item.2.1 else 0).sum

theorem rowSum_append (value : ℕ → F) (row : ℕ) (items items' : List (ℕ × ℕ × F)) :
    rowSum value row (items ++ items') = rowSum value row items + rowSum value row items' := by
  rw [rowSum, List.map_append, List.sum_append]
  rfl

theorem rowSum_eq_zero {value : ℕ → F} {row : ℕ} {items : List (ℕ × ℕ × F)}
    (h : ∀ item ∈ items, item.1 ≠ row) : rowSum value row items = 0 := by
  apply List.sum_eq_zero
  intro x hx
  obtain ⟨item, hitem, rfl⟩ := List.mem_map.mp hx
  rw [if_neg (h item hitem)]

/-- The product of a row is the sum over its items. -/
theorem products_eq_rowSum (entries : List (F × ℕ)) {i : ℕ} {ptrs : List ℕ}
    (h : (i :: ptrs).Pairwise (· ≤ ·)) (z : List F) (row k : ℕ) :
    (((i :: ptrs).zip ptrs).map fun (lo, hi) =>
        rowProduct ((entries.take hi).drop lo) z).getD k 0 =
      rowSum (fun col => z.getD col 0) (row + k) (coordinates i ptrs row (entries.drop i)) := by
  induction ptrs generalizing i row k with
  | nil => rfl
  | cons ptr ptrs ih =>
      obtain ⟨hle, hsorted⟩ := List.pairwise_cons.mp h
      have hptr : i ≤ ptr := hle ptr List.mem_cons_self
      have hdrop : (entries.drop i).drop (ptr - i) = entries.drop ptr := by
        rw [List.drop_drop, Nat.add_sub_cancel' hptr]
      have htake : ((entries.take ptr).drop i) = (entries.drop i).take (ptr - i) := List.drop_take
      rw [coordinates, hdrop, rowSum_append, List.zip_cons_cons, List.map_cons]
      cases k with
      | zero =>
          have hrest : rowSum (fun col => z.getD col 0) (row + 0)
              (coordinates ptr ptrs (row + 1) (entries.drop ptr)) = 0 := by
            apply rowSum_eq_zero
            intro item hitem
            have hrow := (mem_coordinates hitem).1
            omega
          rw [hrest, add_zero, List.getD_cons_zero]
          show rowProduct ((entries.take ptr).drop i) z = _
          rw [htake, rowSum, rowProduct, List.map_map]
          congr 1
          apply List.map_congr_left
          intro e _
          rw [Function.comp_apply, if_pos (Nat.add_zero row).symm]
      | succ k =>
          have hfirst : rowSum (fun col => z.getD col 0) (row + (k + 1))
              (((entries.drop i).take (ptr - i)).map fun e => (row, e.2, e.1)) = 0 := by
            apply rowSum_eq_zero
            intro item hitem
            obtain ⟨e, -, rfl⟩ := List.mem_map.mp hitem
            show row ≠ row + (k + 1)
            omega
          rw [hfirst, zero_add, List.getD_cons_succ, ih hsorted (row + 1) k]
          congr 1
          omega

/-- **An entry of a product** is the sum over the items of its row. -/
theorem entry_eq_rowSum {M : SparseMatrix F} {m n : ℕ} (h : M.HasDims m n) (htight : M.Tight)
    (z : List F) (row : ℕ) :
    M.entry z row = rowSum (fun col => z.getD col 0) row M.items := by
  obtain ⟨data, indices, indptr, cols⟩ := M
  have hsorted := h.sorted
  cases indptr with
  | nil => cases htight.first
  | cons ptr ptrs =>
      obtain rfl : ptr = 0 := by simpa using htight.first
      have hproducts := products_eq_rowSum (data.zip indices) hsorted z 0 row
      rwa [Nat.zero_add, List.drop_zero] at hproducts

end Sums

/-- `SparseMatrix::new` makes tight row pointers. -/
theorem tight_new {matrix : List (List (F × ℕ))}
    (h : (new matrix m n : Run E (SparseMatrix F)) = .ok M) : M.Tight := by
  unfold new at h
  dsimp only at h
  split_ifs at h with h₁ h₂
  obtain rfl := Except.ok.inj h
  have hlast : ∀ (rows : List (List (F × ℕ))) (k d : ℕ),
      (rows.scanl (fun n row => n + row.length) k).getLastD d =
        k + (rows.flatMap (List.map Prod.fst)).length := by
    intro rows
    induction rows with
    | nil => intro k d; rfl
    | cons row rows ih =>
        intro k d
        rw [List.scanl_cons, List.getLastD_cons, ih, List.flatMap_cons, List.length_append,
          List.length_map, Nat.add_assoc]
  constructor
  · exact List.head?_scanl
  · rw [hlast, Nat.zero_add]

end NexusVm.Nova.SparseMatrix
