import NexusVm.Nova.SparseIter
import NexusVm.Spartan.SparseMlpoly

/-!
# Laws of sparse matrices

`SparseMatrix` of `nova/src/sparse.rs` and `matrix_to_mle` of `nova/src/ccs/mle.rs` against the
rows that a matrix is made from: the iterator lists them, products are those of the dense matrix,
and the multilinear extension has the entries as its values on the hypercube.
-/

namespace NexusVm.Nova

open Spartan

section Mle

variable {F : Type} [Field F]

/-- `matrix_to_mle`. -/
def matrixToMle {E : Type} (m n : ℕ) (M : SparseMatrix F) : Run E (SparsePolynomial F) := do
  Run.assert (0 < m ∧ 0 < n)
  let s1 := safeLoglike m
  let s2 := safeLoglike n
  let s := 2 ^ s1
  let items ← M.iter
  .ok ⟨s1 + s2, items.map fun (i, j, value) => ⟨j * s + i, value⟩⟩

/-- The point of the hypercube with the bits of an index. -/
def bitPoint (n idx : ℕ) : List F := (getBits idx n).map fun b => if b then 1 else 0

theorem length_bitPoint (n idx : ℕ) : (bitPoint n idx : List F).length = n := by
  rw [bitPoint, List.length_map, getBits, List.length_map, List.length_range]

/-- `eq` on the hypercube. -/
theorem computeChi_bits {as bs : List Bool} (h : as.length = bs.length) :
    computeChi as (bs.map fun b => if b then (1 : F) else 0) = if as = bs then 1 else 0 := by
  induction as generalizing bs with
  | nil =>
      obtain rfl := List.length_eq_zero_iff.mp h.symm
      rfl
  | cons a as ih =>
      cases bs with
      | nil => cases h
      | cons b bs =>
          rw [List.map_cons, computeChi_cons, ih (Nat.succ_injective h)]
          cases a <;> cases b <;> simp

/-- The bits of an index that fits determine it. -/
theorem getBits_inj {n i j : ℕ} (hi : i < 2 ^ n) (hj : j < 2 ^ n) :
    getBits i n = getBits j n ↔ i = j := by
  constructor
  · intro h
    apply Nat.eq_of_testBit_eq
    intro k
    rcases Nat.lt_or_ge k n with hk | hk
    · have hbit := List.map_inj_left.mp h (n - k - 1) (List.mem_range.mpr (by omega))
      have hidx : n - (n - k - 1) - 1 = k := by omega
      rwa [hidx] at hbit
    · have hpow : 2 ^ n ≤ 2 ^ k := Nat.pow_le_pow_right Nat.two_pos hk
      rw [Nat.testBit_lt_two_pow (hi.trans_le hpow), Nat.testBit_lt_two_pow (hj.trans_le hpow)]
  · rintro rfl
    rfl

/-- A sparse polynomial at a point of the hypercube: the values of its entries there. -/
theorem evaluate_bitPoint {E : Type} {poly : SparsePolynomial F} {idx : ℕ}
    (hidx : idx < 2 ^ poly.numVars) (hZ : ∀ e ∈ poly.Z, e.idx < 2 ^ poly.numVars) :
    (poly.evaluate (bitPoint poly.numVars idx) : Run E F) =
      .ok (poly.Z.map fun e => if e.idx = idx then e.val else 0).sum := by
  refine bind_eq_ok.mpr ⟨(), assert_eq_ok.mpr (length_bitPoint _ _).symm, ?_⟩
  congr 2
  apply List.map_congr_left
  intro e he
  rw [length_bitPoint, bitPoint, computeChi_bits (by simp [getBits])]
  simp only [getBits_inj (hZ e he) hidx]
  split_ifs <;> simp

end Mle

namespace SparseMatrix

section Rows

variable {F : Type}

/-- The entries of rows in row-major order, the first row at this index. -/
def rowMajor (rows : List (List (F × ℕ))) (start : ℕ) : List (ℕ × ℕ × F) :=
  (rows.zipIdx start).flatMap fun (row, i) => row.map fun e => (i, e.2, e.1)

/-- The entries have a place in an `m` by `n` matrix: as `validate` checks them. -/
structure IsRows (matrix : List (List (F × ℕ))) (m n : ℕ) : Prop where
  rows : ∀ row ∈ matrix.drop m, row = []
  cols : ∀ row ∈ matrix, ∀ e ∈ row, e.2 < n

/-- The rows are sorted as `new` assumes: the columns of each increase strictly, so that no
entry is given twice. -/
def IsSorted (matrix : List (List (F × ℕ))) : Prop :=
  ∀ row ∈ matrix, (row.map Prod.snd).Pairwise (· < ·)

instance (matrix : List (List (F × ℕ))) : Decidable (IsSorted matrix) :=
  inferInstanceAs (Decidable (∀ row ∈ matrix, (row.map Prod.snd).Pairwise (· < ·)))

theorem rowMajor_cons (row : List (F × ℕ)) (rows : List (List (F × ℕ))) (start : ℕ) :
    rowMajor (row :: rows) start =
      row.map (fun e => (start, e.2, e.1)) ++ rowMajor rows (start + 1) := by
  rw [rowMajor, List.zipIdx_cons, List.flatMap_cons]
  rfl

/-- The items of compressed rows are the entries of the rows. -/
theorem coordinates_scanl (rows : List (List (F × ℕ))) (k start : ℕ) :
    coordinates k (rows.scanl (fun n row => n + row.length) k).tail start
      ((rows.flatMap (List.map Prod.fst)).zip (rows.flatMap (List.map Prod.snd))) =
      rowMajor rows start := by
  induction rows generalizing k start with
  | nil => rfl
  | cons row rows ih =>
      have hzip : ((row :: rows).flatMap (List.map Prod.fst)).zip
          ((row :: rows).flatMap (List.map Prod.snd)) =
          row ++ (rows.flatMap (List.map Prod.fst)).zip (rows.flatMap (List.map Prod.snd)) := by
        rw [List.flatMap_cons, List.flatMap_cons, List.zip_append (by simp), List.zip_map',
          List.map_id']
      have hscan : ((row :: rows).scanl (fun n row => n + row.length) k).tail =
          (k + row.length) :: (rows.scanl (fun n row => n + row.length) (k + row.length)).tail := by
        rw [List.scanl_cons, List.tail_cons]
        cases rows with
        | nil => rfl
        | cons row' rows => rw [List.scanl_cons, List.tail_cons]
      rw [hzip, hscan, coordinates, Nat.add_sub_cancel_left, List.take_left, List.drop_left, ih,
        rowMajor_cons]

theorem rowMajor_append (rows rows' : List (List (F × ℕ))) (start : ℕ) :
    rowMajor (rows ++ rows') start =
      rowMajor rows start ++ rowMajor rows' (start + rows.length) := by
  rw [rowMajor, List.zipIdx_append, List.flatMap_append]
  rfl

theorem rowMajor_eq_nil {rows : List (List (F × ℕ))} (h : ∀ row ∈ rows, row = []) (start : ℕ) :
    rowMajor rows start = [] := by
  induction rows generalizing start with
  | nil => rfl
  | cons row rows ih =>
      rw [List.forall_mem_cons] at h
      rw [rowMajor_cons, h.1, ih h.2, List.map_nil, List.nil_append]

/-- `new_matrix` of `SparseMatrix::new`: as many rows as asked for. -/
theorem map_getD_range (matrix : List (List (F × ℕ))) (m : ℕ) :
    (List.range m).map (fun i => matrix.getD i []) =
      matrix.take m ++ List.replicate (m - matrix.length) [] := by
  apply List.ext_getElem
  · rw [List.length_map, List.length_range, List.length_append, List.length_take,
      List.length_replicate]
    omega
  · intro i h₁ h₂
    rw [List.length_map, List.length_range] at h₁
    rw [List.getElem_map, List.getElem_range]
    rcases Nat.lt_or_ge i matrix.length with hi | hi
    · have htake : i < (matrix.take m).length := by
        rw [List.length_take]
        omega
      rw [List.getElem_append_left htake, List.getElem_take, List.getD_eq_getElem _ _ hi]
    · have htake : (matrix.take m).length ≤ i := by
        rw [List.length_take]
        omega
      rw [List.getElem_append_right htake, List.getElem_replicate, List.getD_eq_default _ _ hi]

variable {matrix : List (List (F × ℕ))} {m n : ℕ}

theorem IsRows.rowMajor_eq (h : IsRows matrix m n) :
    rowMajor ((List.range m).map fun i => matrix.getD i []) 0 = rowMajor matrix 0 := by
  have hempty : ∀ row ∈ List.replicate (m - matrix.length) ([] : List (F × ℕ)), row = [] :=
    fun row hrow => List.eq_of_mem_replicate hrow
  rw [map_getD_range, rowMajor_append, rowMajor_eq_nil hempty, List.append_nil]
  conv_rhs => rw [← List.take_append_drop m matrix]
  rw [rowMajor_append, rowMajor_eq_nil h.rows, List.append_nil]

/-- What `new` asserts of the rows that it has distributed. -/
theorem isSorted_iff (hrows : ∀ row ∈ matrix.drop m, row = []) :
    (((List.range m).map fun i => matrix.getD i []).all fun row =>
      decide ((row.map Prod.snd).Pairwise (· < ·))) = true ↔ IsSorted matrix := by
  rw [List.all_eq_true, map_getD_range]
  simp only [decide_eq_true_eq]
  constructor
  · intro h row hrow
    rw [← List.take_append_drop m matrix] at hrow
    rcases List.mem_append.mp hrow with hrow | hrow
    · exact h row (List.mem_append_left _ hrow)
    · rw [hrows row hrow]
      exact List.Pairwise.nil
  · intro h row hrow
    rcases List.mem_append.mp hrow with hrow | hrow
    · exact h row (List.mem_of_mem_take hrow)
    · rw [List.eq_of_mem_replicate hrow]
      exact List.Pairwise.nil

/-- `new` accepts sorted rows only. -/
theorem isSorted_of_new {E : Type} {M : SparseMatrix F}
    (hrows : ∀ row ∈ matrix.drop m, row = []) (h : (new matrix m n : Run E _) = .ok M) :
    IsSorted matrix := by
  rw [← isSorted_iff hrows]
  by_contra hunsorted
  unfold new at h
  dsimp only at h
  rw [if_pos hunsorted] at h
  split at h <;> cases h

/-- Sorted rows are accepted. -/
theorem IsRows.exists_new {E : Type} (h : IsRows matrix m n) (hsorted : IsSorted matrix) :
    ∃ M : SparseMatrix F, (new matrix m n : Run E _) = .ok M ∧ M.HasDims m n ∧ M.Tight ∧
      M.items = rowMajor matrix 0 ∧
      M.data = ((List.range m).map fun i => matrix.getD i []).flatMap (List.map Prod.fst) := by
  have hdrop : (matrix.drop m).all List.isEmpty = true := by
    rw [List.all_eq_true]
    intro row hrow
    rw [h.rows row hrow]
    rfl
  have hnew : (new matrix m n : Run E _) = .ok
      { data := ((List.range m).map fun i => matrix.getD i []).flatMap (List.map Prod.fst)
        indices := ((List.range m).map fun i => matrix.getD i []).flatMap (List.map Prod.snd)
        indptr := ((List.range m).map fun i => matrix.getD i []).scanl
          (fun n row => n + row.length) 0
        cols := n } := by
    unfold new
    dsimp only
    rw [if_neg (not_not.mpr hdrop), if_neg (not_not.mpr ((isSorted_iff h.rows).mpr hsorted))]
  exact ⟨_, hnew, hasDims_new hnew h.cols, tight_new hnew,
    (coordinates_scanl _ 0 0).trans h.rowMajor_eq, rfl⟩

theorem IsRows.data_ne_nil (h : IsRows matrix m n) :
    ((List.range m).map fun i => matrix.getD i []).flatMap (List.map Prod.fst) ≠ [] ↔
      ∃ row ∈ matrix, row ≠ [] := by
  rw [map_getD_range, Ne, List.flatMap_eq_nil_iff]
  constructor
  · intro hne
    by_contra hall
    push Not at hall
    refine hne fun row hrow => ?_
    rcases List.mem_append.mp hrow with hrow | hrow
    · rw [hall row (List.mem_of_mem_take hrow), List.map_nil]
    · rw [List.eq_of_mem_replicate hrow, List.map_nil]
  · rintro ⟨row, hrow, hne⟩ hall
    rw [← List.take_append_drop m matrix] at hrow
    rcases List.mem_append.mp hrow with hrow | hrow
    · exact hne (List.map_eq_nil_iff.mp (hall row (List.mem_append_left _ hrow)))
    · exact hne (h.rows row hrow)

/-! ## Products -/

variable [Field F]

/-- An entry of the dense matrix.  The columns of a sorted row are distinct: there is at most one
summand. -/
def entryAt (matrix : List (List (F × ℕ))) (i j : ℕ) : F :=
  (((matrix.getD i []).filter fun e => decide (e.2 = j)).map Prod.fst).sum

theorem rowSum_rowMajor (value : ℕ → F) (rows : List (List (F × ℕ))) (start k : ℕ) :
    rowSum value (start + k) (rowMajor rows start) =
      ((rows.getD k []).map fun e => e.1 * value e.2).sum := by
  have hmap : ∀ (row : List (F × ℕ)) (i : ℕ),
      rowSum value i (row.map fun e => (i, e.2, e.1)) =
        (row.map fun e => e.1 * value e.2).sum := by
    intro row i
    rw [rowSum, List.map_map]
    congr 1
    apply List.map_congr_left
    intro e _
    rw [Function.comp_apply, if_pos rfl]
  induction rows generalizing start k with
  | nil => rfl
  | cons row rows ih =>
      rw [rowMajor_cons, rowSum_append]
      cases k with
      | zero =>
          have hrest : rowSum value (start + 0) (rowMajor rows (start + 1)) = 0 := by
            apply rowSum_eq_zero
            intro item hitem
            obtain ⟨⟨row', i⟩, hrow, hitem⟩ := List.mem_flatMap.mp hitem
            obtain ⟨e, -, rfl⟩ := List.mem_map.mp hitem
            have hle := (List.mem_zipIdx hrow).1
            dsimp only
            omega
          rw [hrest, add_zero, Nat.add_zero, hmap, List.getD_cons_zero]
      | succ k =>
          have hfirst : rowSum value (start + (k + 1))
              (row.map fun e => (start, e.2, e.1)) = 0 := by
            apply rowSum_eq_zero
            intro item hitem
            obtain ⟨e, -, rfl⟩ := List.mem_map.mp hitem
            dsimp only
            omega
          have hindex : start + (k + 1) = start + 1 + k := by omega
          rw [hfirst, zero_add, hindex, ih, List.getD_cons_succ]

/-- The entries of a row, column by column. -/
theorem sum_columns (value : ℕ → F) {row : List (F × ℕ)} (h : ∀ e ∈ row, e.2 < n) :
    (row.map fun e => e.1 * value e.2).sum =
      ∑ j ∈ Finset.range n,
        ((row.filter fun e => decide (e.2 = j)).map Prod.fst).sum * value j := by
  induction row with
  | nil => simp
  | cons e row ih =>
      rw [List.forall_mem_cons] at h
      have hsplit : ∀ j, (((e :: row).filter fun e => decide (e.2 = j)).map Prod.fst).sum =
          (if e.2 = j then e.1 else 0) +
            ((row.filter fun e => decide (e.2 = j)).map Prod.fst).sum := by
        intro j
        by_cases hj : e.2 = j
        · rw [List.filter_cons_of_pos (by simpa using hj), List.map_cons, List.sum_cons, if_pos hj]
        · rw [List.filter_cons_of_neg (by simpa using hj), if_neg hj, zero_add]
      simp only [hsplit, add_mul, Finset.sum_add_distrib, ite_mul, zero_mul, Finset.sum_ite_eq,
        Finset.mem_range, h.1, if_true]
      rw [List.map_cons, List.sum_cons, ih h.2]

omit [Field F] in
theorem IsRows.col_lt (h : IsRows matrix m n) {i : ℕ} {e : F × ℕ} (he : e ∈ matrix.getD i []) :
    e.2 < n := by
  rcases Nat.lt_or_ge i matrix.length with hi | hi
  · rw [List.getD_eq_getElem _ _ hi] at he
    exact h.cols _ (List.getElem_mem hi) e he
  · rw [List.getD_eq_default _ _ hi] at he
    cases he

/-- Beyond the last column there are no entries. -/
theorem IsRows.entryAt_of_le (h : IsRows matrix m n) (i : ℕ) {j : ℕ} (hj : n ≤ j) :
    entryAt matrix i j = 0 := by
  have hnone : (matrix.getD i []).filter (fun e => decide (e.2 = j)) = [] := by
    rw [List.filter_eq_nil_iff]
    intro e he
    have hlt := h.col_lt he
    rw [decide_eq_true_eq]
    omega
  rw [entryAt, hnone]
  rfl

/-- The sum over the items of a row is the sum over the columns of the dense matrix. -/
theorem IsRows.rowSum_eq (h : IsRows matrix m n) (value : ℕ → F) (i : ℕ) :
    rowSum value i (rowMajor matrix 0) =
      ∑ j ∈ Finset.range n, entryAt matrix i j * value j := by
  have hsum := rowSum_rowMajor value matrix 0 i
  rw [Nat.zero_add] at hsum
  rw [hsum, sum_columns value fun e he => h.col_lt he]
  rfl

end Rows

end SparseMatrix

/-! ## The laws -/

section Laws

variable {F : Type} [Field F] {matrix : List (List (F × ℕ))} {m n : ℕ}

theorem le_two_pow_safeLoglike (k : ℕ) : k ≤ 2 ^ safeLoglike k := by
  rcases Nat.lt_or_ge k 2 with hk | hk
  · have hpos := Nat.two_pow_pos (safeLoglike k)
    omega
  · rw [two_pow_safeLoglike hk]
    exact le_nextPowerOfTwo k

/-- **The laws of a matrix** made from rows: the iterator lists the entries in row-major order,
products are those of the dense matrix, and the extension has the entries, padded with zeros, as
its values at the indices of rows and columns. -/
structure MatrixLaws (matrix : List (List (F × ℕ))) (m n : ℕ) (M : SparseMatrix F) : Prop where
  iter : (M.iter : Run Unit _) = .ok (SparseMatrix.rowMajor matrix 0)
  product : ∀ v : List F, v.length = n → (M.multiplyVec v : Run Unit _) =
    .ok ((List.range m).map fun i =>
      ∑ j ∈ Finset.range n, SparseMatrix.entryAt matrix i j * v.getD j 0)
  mle : ∃ poly, (matrixToMle m n M : Run Unit _) = .ok poly ∧
    ∀ i < 2 ^ safeLoglike m, ∀ j < 2 ^ safeLoglike n,
      (poly.evaluate (bitPoint (safeLoglike m + safeLoglike n) (j * 2 ^ safeLoglike m + i)) :
        Run Unit F) = .ok (SparseMatrix.entryAt matrix i j)

theorem multiplyVec_eq_dense {M : SparseMatrix F} (h : SparseMatrix.IsRows matrix m n)
    (hdims : M.HasDims m n) (htight : M.Tight)
    (hitems : M.items = SparseMatrix.rowMajor matrix 0) {v : List F} (hv : v.length = n) :
    (M.multiplyVec v : Run Unit _) = .ok ((List.range m).map fun i =>
      ∑ j ∈ Finset.range n, SparseMatrix.entryAt matrix i j * v.getD j 0) := by
  rw [SparseMatrix.multiplyVec_of_dims hdims hv]
  congr 1
  have hlen := SparseMatrix.length_multiplyVecUnchecked hdims v
  apply List.ext_getElem
  · rw [hlen, List.length_map, List.length_range]
  · intro i h₁ h₂
    have hentry := SparseMatrix.entry_eq_rowSum hdims htight v i
    rw [SparseMatrix.entry, List.getD_eq_getElem _ _ h₁, hitems, h.rowSum_eq] at hentry
    rw [hentry, List.getElem_map, List.getElem_range]

/-- The position of an entry determines its row and column. -/
theorem index_inj {s i j i' j' : ℕ} (hi : i < s) (hi' : i' < s) :
    j * s + i = j' * s + i' ↔ i = i' ∧ j = j' := by
  constructor
  · intro h
    have hmod : (j * s + i) % s = (j' * s + i') % s := by rw [h]
    rw [Nat.add_comm, Nat.add_mul_mod_self_right, Nat.mod_eq_of_lt hi, Nat.add_comm,
      Nat.add_mul_mod_self_right, Nat.mod_eq_of_lt hi'] at hmod
    subst hmod
    have hmul : j * s = j' * s := Nat.add_right_cancel h
    exact ⟨rfl, Nat.eq_of_mul_eq_mul_right (by omega) hmul⟩
  · rintro ⟨rfl, rfl⟩
    rfl

/-- The extension at the index of a row and a column. -/
theorem evaluate_entryAt {M : SparseMatrix F} (h : SparseMatrix.IsRows matrix m n)
    (hdims : M.HasDims m n) (hitems : M.items = SparseMatrix.rowMajor matrix 0) {i j : ℕ}
    (hi : i < 2 ^ safeLoglike m) (hj : j < 2 ^ safeLoglike n) :
    (SparsePolynomial.evaluate ⟨safeLoglike m + safeLoglike n, M.items.map fun item =>
        (⟨item.2.1 * 2 ^ safeLoglike m + item.1, item.2.2⟩ : SparsePolyEntry F)⟩
      (bitPoint (safeLoglike m + safeLoglike n) (j * 2 ^ safeLoglike m + i)) : Run Unit F) =
        .ok (SparseMatrix.entryAt matrix i j) := by
  have hfits : ∀ i' < 2 ^ safeLoglike m, ∀ j' < 2 ^ safeLoglike n,
      j' * 2 ^ safeLoglike m + i' < 2 ^ (safeLoglike m + safeLoglike n) := by
    intro i' hi' j' hj'
    calc
      j' * 2 ^ safeLoglike m + i' < (j' + 1) * 2 ^ safeLoglike m := by
        rw [Nat.add_mul, one_mul]
        omega
      _ ≤ 2 ^ safeLoglike n * 2 ^ safeLoglike m := Nat.mul_le_mul_right _ hj'
      _ = 2 ^ (safeLoglike m + safeLoglike n) := by rw [Nat.pow_add, Nat.mul_comm]
  have hrange : ∀ item ∈ M.items, item.1 < 2 ^ safeLoglike m ∧ item.2.1 < 2 ^ safeLoglike n := by
    intro item hitem
    obtain ⟨hrow, hcol⟩ := SparseMatrix.mem_items hdims hitem
    exact ⟨hrow.trans_le (le_two_pow_safeLoglike m), hcol.trans_le (le_two_pow_safeLoglike n)⟩
  rw [evaluate_bitPoint (hfits i hi j hj)]
  · congr 1
    have hsum : (M.items.map fun item =>
        if item.2.1 * 2 ^ safeLoglike m + item.1 = j * 2 ^ safeLoglike m + i then item.2.2
          else 0).sum =
        SparseMatrix.rowSum (fun col => if col = j then 1 else 0) i M.items := by
      rw [SparseMatrix.rowSum]
      congr 1
      apply List.map_congr_left
      intro item hitem
      simp only [index_inj (hrange item hitem).1 hi, mul_ite, mul_one, mul_zero, ite_and]
    rw [List.map_map]
    refine Eq.trans hsum ?_
    rw [hitems, h.rowSum_eq]
    simp only [mul_ite, mul_one, mul_zero, Finset.sum_ite_eq', Finset.mem_range]
    rw [ite_eq_left_iff]
    exact fun hlast => (h.entryAt_of_le i (not_lt.mp hlast)).symm
  · intro e he
    obtain ⟨item, hitem, rfl⟩ := List.mem_map.mp he
    exact hfits _ (hrange item hitem).1 _ (hrange item hitem).2

/-- **The laws hold exactly of the sorted matrices with an entry.**  `new` panics on other rows,
and `iter` on a matrix without entries. -/
theorem sparse_matrix_laws_iff (h : SparseMatrix.IsRows matrix m n) :
    (∃ M : SparseMatrix F, (SparseMatrix.new matrix m n : Run Unit _) = .ok M ∧
      MatrixLaws matrix m n M) ↔
      SparseMatrix.IsSorted matrix ∧ ∃ row ∈ matrix, row ≠ [] := by
  rw [← h.data_ne_nil]
  constructor
  · rintro ⟨M', hnew', hlaws⟩
    have hsorted := SparseMatrix.isSorted_of_new h.rows hnew'
    obtain ⟨M, hnew, hdims, htight, hitems, hdata⟩ := h.exists_new (E := Unit) hsorted
    obtain rfl := Except.ok.inj (hnew.symm.trans hnew')
    rw [← hdata]
    exact ⟨hsorted, ((SparseMatrix.iter_eq_ok_iff hdims htight).mp hlaws.iter).1⟩
  · rintro ⟨hsorted, hne⟩
    obtain ⟨M, hnew, hdims, htight, hitems, hdata⟩ := h.exists_new (E := Unit) hsorted
    rw [← hdata] at hne
    have hiter : (M.iter : Run Unit _) = .ok M.items :=
      (SparseMatrix.iter_eq_ok_iff hdims htight).mpr ⟨hne, rfl⟩
    refine ⟨M, hnew, ⟨hitems ▸ hiter, fun v hv => multiplyVec_eq_dense h hdims htight hitems hv,
      _, bind_eq_ok.mpr ⟨(), assert_eq_ok.mpr ?_, bind_eq_ok.mpr ⟨_, hiter, rfl⟩⟩,
      fun i hi j hj => evaluate_entryAt h hdims hitems hi hj⟩⟩
    -- an entry lies in a row and a column
    obtain ⟨row, hrow, hentry⟩ := h.data_ne_nil.mp (hdata ▸ hne)
    obtain ⟨e, he⟩ := List.exists_mem_of_ne_nil _ hentry
    constructor
    · rw [Nat.pos_iff_ne_zero]
      rintro rfl
      exact hentry (h.rows row hrow)
    · exact Nat.zero_lt_of_lt (h.cols row hrow e he)

end Laws

/-- An empty row between two others. -/
theorem sparse_matrix_laws_gap :
    ∃ M : SparseMatrix (ZMod 3),
      (SparseMatrix.new [[(1, 0), (2, 2)], [], [(2, 1)]] 3 3 : Run Unit _) = .ok M ∧
        MatrixLaws [[(1, 0), (2, 2)], [], [(2, 1)]] 3 3 M :=
  (sparse_matrix_laws_iff ⟨by decide, by decide⟩).mpr
    ⟨by decide, [(1, 0), (2, 2)], by decide, List.cons_ne_nil _ _⟩

/-- Columns out of order: `new` panics. -/
example : (SparseMatrix.new [[((1 : ZMod 3), 1), (1, 0)]] 1 2 : Run Unit _) = .error .panic := rfl

/-- **A matrix without entries**: `iter` runs past the row pointers, and so does
`matrix_to_mle`. -/
theorem entryless_matrix_panics :
    ∃ M : SparseMatrix (ZMod 3), (SparseMatrix.new [[], []] 2 2 : Run Unit _) = .ok M ∧
      (M.iter : Run Unit _) = .error .panic ∧
      (∃ e, (matrixToMle 2 2 M : Run Unit _) = .error e) ∧ ¬ MatrixLaws [[], []] 2 2 M := by
  refine ⟨⟨[], [], [0, 0, 0], 2⟩, rfl, rfl, ⟨.panic, rfl⟩, fun h => ?_⟩
  cases h.iter

/-!
## Laws of vector extensions

`vec_to_mle` and `vec_to_ark_mle` of `nova/src/ccs/mle.rs` against their formula.  The number of
variables is computed twice, by `safe_loglike!` and from the padded length, and for one entry the
results differ.
-/

section Laws

variable {F : Type} [Field F]

/-- The sum of the entries of a vector, each times `eq` of the bits of its index. -/
def eqSum (z r : List F) : F :=
  ∑ i ∈ Finset.range z.length, Spartan.computeChi (Spartan.getBits i r.length) r * z.getD i 0

/-- **The laws of the extensions of a vector**: both exist, have as many variables as
`safe_loglike!` says, and have the value of the formula at every point. -/
structure MleLaws (M : MultilinearExtensions F) (z : List F) : Prop where
  dense : ∃ poly, (vecToMle z : Run Unit _) = .ok poly ∧ poly.numVars = safeLoglike z.length ∧
    ∀ r : List F, r.length = safeLoglike z.length →
      (poly.evaluate r : Run Unit F) = .ok (eqSum z r)
  ark : ∃ m, (vecToArkMle M z : Run Unit _) = .ok m ∧ M.numVars m = safeLoglike z.length ∧
    ∀ r : List F, r.length = safeLoglike z.length →
      (evaluateArk M m r : Run Unit F) = .ok (eqSum z r)

/-- The mle at a point is the formula: the padding contributes nothing. -/
theorem mleAt_eq_eqSum {z r : List F} (hz : 2 ≤ z.length) (hr : r.length = safeLoglike z.length) :
    mleAt z r = eqSum z r := by
  have hle : z.length ≤ 2 ^ safeLoglike z.length := by
    rw [two_pow_safeLoglike hz]
    exact le_nextPowerOfTwo _
  rw [mleAt_eq_sum hz, eqSum, ← Finset.sum_subset (Finset.range_subset_range.mpr hle)]
  · apply Finset.sum_congr rfl
    intro i hi
    have hlt : i < 2 ^ r.length := by
      rw [hr]
      exact (Finset.mem_range.mp hi).trans_le hle
    rw [Spartan.getD_eqEvals hlt, mul_comm]
  · intro i _ hi
    rw [List.getD_eq_default _ _ (not_lt.mp fun hlt => hi (Finset.mem_range.mpr hlt)), zero_mul]

variable {M : MultilinearExtensions F}

theorem MleLaws.of_two_le {z : List F} (hz : 2 ≤ z.length) : MleLaws M z := by
  have hpos : 0 < z.length := by omega
  constructor
  · refine ⟨.new (padTo (nextPowerOfTwo z.length) z),
      bind_eq_ok.mpr ⟨(), assert_eq_ok.mpr hpos, rfl⟩, ?_, ?_⟩
    · show Nat.log2 (padTo (nextPowerOfTwo z.length) z).length = _
      rw [length_padTo (le_nextPowerOfTwo _), ← two_pow_safeLoglike hz, Nat.log2_two_pow]
    · intro r hr
      have heval : (evaluateVec z r : Run Unit F) = .ok (eqSum z r) :=
        evaluateVec_eq_ok.mpr ⟨hpos, hr.trans (mleVars_eq_safeLoglike hz).symm,
          mleAt_eq_eqSum hz hr⟩
      obtain ⟨poly, hpoly, hvalue⟩ := bind_eq_ok.mp heval
      obtain ⟨-, -, heq⟩ := bind_eq_ok.mp hpoly
      obtain rfl := Except.ok.inj heq
      exact hvalue
  · obtain ⟨m, hm⟩ := (exists_vecToArkMle (E := Unit) (M := M)).mpr hz
    have hvars : M.numVars m = safeLoglike z.length := (extends_vecToArkMle hm).numVars
    refine ⟨m, hm, hvars, fun r hr => bind_eq_ok.mpr ⟨(), assert_eq_ok.mpr (hr.trans hvars.symm),
      ?_⟩⟩
    rw [evaluate_vecToArkMle hm hr, mleAt_eq_eqSum hz hr]

/-- **The laws hold of all vectors but those of one entry.** -/
theorem mle_laws_iff (M : MultilinearExtensions F) (z : List F) (hz : z ≠ []) :
    MleLaws M z ↔ z.length ≠ 1 := by
  have hpos := List.length_pos_of_ne_nil hz
  constructor
  · intro h hone
    obtain ⟨m, hm, -⟩ := h.ark
    have htwo := exists_vecToArkMle.mp ⟨m, hm⟩
    omega
  · intro hone
    apply MleLaws.of_two_le
    omega

end Laws

/-- A vector of three entries, which is padded. -/
theorem mle_laws_three : MleLaws (tables (ZMod 3)) [1, 2, 1] ↔ [(1 : ZMod 3), 2, 1].length ≠ 1 :=
  mle_laws_iff (tables (ZMod 3)) [1, 2, 1] (List.cons_ne_nil _ _)

/-- **One entry**: `safe_loglike!` says one variable, `vec_to_mle` uses none, and
`vec_to_ark_mle` panics. -/
theorem singleton_mle_panics :
    safeLoglike [(2 : ZMod 3)].length = 1 ∧
      (vecToMle [(2 : ZMod 3)] : Run Unit _) = .ok ⟨0, [2]⟩ ∧
      (vecToArkMle (tables (ZMod 3)) [2] : Run Unit _) = .error .panic ∧
      ¬ MleLaws (tables (ZMod 3)) [2] := by
  refine ⟨rfl, rfl, rfl, fun h => ?_⟩
  obtain ⟨m, hm, -⟩ := h.ark
  cases hm

end NexusVm.Nova
