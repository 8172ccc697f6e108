import NexusVm.Nova.Run

/-!
# Sparse matrices

`nova/src/sparse.rs`: compressed sparse rows, multiplied by a dense vector.
-/

namespace NexusVm.Nova

/-- Compressed sparse rows. -/
structure SparseMatrix (F : Type) where
  data : List F
  indices : List ℕ
  indptr : List ℕ
  cols : ℕ
deriving DecidableEq

namespace SparseMatrix

variable {F : Type}

/-- Number of rows. -/
def rows (M : SparseMatrix F) : ℕ := M.indptr.length - 1

/-- The matrix has these dimensions: no product with a vector of `n` entries panics. -/
structure HasDims (M : SparseMatrix F) (m n : ℕ) : Prop where
  rows : M.indptr.length = m + 1
  cols : M.cols = n
  indices : ∀ j ∈ M.indices, j < n
  lengths : M.indices.length = M.data.length
  sorted : M.indptr.Pairwise (· ≤ ·)
  bound : ∀ k ∈ M.indptr, k ≤ M.data.length

/-- Construct from the rows of a matrix. -/
def new {E : Type} (matrix : List (List (F × ℕ))) (rows cols : ℕ) : Run E (SparseMatrix F) :=
  let newMatrix := (List.range rows).map fun i => matrix.getD i []
  -- `new_matrix[row]` is out of bounds for an entry below the last row
  if ¬ (matrix.drop rows).all List.isEmpty then .error .panic
  else if ¬ newMatrix.all fun row => decide ((row.map Prod.snd).Pairwise (· < ·)) then .error .panic
  else
    .ok
      { data := newMatrix.flatMap (List.map Prod.fst)
        indices := newMatrix.flatMap (List.map Prod.snd)
        indptr := newMatrix.scanl (fun n row => n + row.length) 0
        cols := cols }

/-- The entries of the row between two pointers. -/
def getRowUnchecked (M : SparseMatrix F) (lo hi : ℕ) : List (F × ℕ) :=
  ((M.data.zip M.indices).take hi).drop lo

section Multiply

variable [Field F]

/-- The products of a row with a vector. -/
def rowProduct (row : List (F × ℕ)) (vector : List F) : F :=
  (row.map fun (val, col) => val * vector.getD col 0).sum

def multiplyVecUnchecked (M : SparseMatrix F) (vector : List F) : List F :=
  (M.indptr.zip M.indptr.tail).map fun (lo, hi) => rowProduct (M.getRowUnchecked lo hi) vector

def multiplyVec {E : Type} (M : SparseMatrix F) (vector : List F) : Run E (List F) := do
  Run.assert (M.cols = vector.length)
  .ok (M.multiplyVecUnchecked vector)

variable {M : SparseMatrix F}

theorem multiplyVec_eq_ok {E : Type} {vector out : List F} :
    (M.multiplyVec vector : Run E (List F)) = .ok out ↔
      M.cols = vector.length ∧ M.multiplyVecUnchecked vector = out := by
  simp only [multiplyVec, bind_eq_ok, assert_eq_ok, Except.ok.injEq, exists_const]

theorem multiplyVec_of_dims {E : Type} {m n : ℕ} (h : M.HasDims m n) {vector : List F}
    (hv : vector.length = n) :
    (M.multiplyVec vector : Run E (List F)) = .ok (M.multiplyVecUnchecked vector) :=
  multiplyVec_eq_ok.mpr ⟨h.cols.trans hv.symm, rfl⟩

theorem length_multiplyVecUnchecked {m n : ℕ} (h : M.HasDims m n) (vector : List F) :
    (M.multiplyVecUnchecked vector).length = m := by
  rw [multiplyVecUnchecked, List.length_map, List.length_zip, List.length_tail, h.rows]
  omega

variable {u v : List F}

theorem rowProduct_comb (h : u.length = v.length) (x y : F) (row : List (F × ℕ)) :
    rowProduct row (comb x y u v) = x * rowProduct row u + y * rowProduct row v := by
  unfold rowProduct
  induction row with
  | nil => simp
  | cons entry row ih =>
      simp only [List.map_cons, List.sum_cons]
      rw [ih, getD_comb h]
      ring

theorem multiplyVecUnchecked_comb (M : SparseMatrix F) (h : u.length = v.length) (x y : F) :
    M.multiplyVecUnchecked (comb x y u v) =
      comb x y (M.multiplyVecUnchecked u) (M.multiplyVecUnchecked v) := by
  unfold multiplyVecUnchecked
  rw [comb_map]
  apply List.map_congr_left
  intro ptrs _
  exact rowProduct_comb h x y _

/-- An entry of a product, as a function of the vector. -/
def entry (M : SparseMatrix F) (vector : List F) (i : ℕ) : F :=
  (M.multiplyVecUnchecked vector).getD i 0

theorem entry_comb (M : SparseMatrix F) (h : u.length = v.length) (x y : F) (i : ℕ) :
    M.entry (comb x y u v) i = x * M.entry u i + y * M.entry v i := by
  rw [entry, multiplyVecUnchecked_comb M h, getD_comb]
  · rfl
  · simp [multiplyVecUnchecked]

end Multiply

/-! ## Dimensions of a constructed matrix -/

theorem scanl_sorted (rows : List (List (F × ℕ))) (n : ℕ) :
    (rows.scanl (fun n row => n + row.length) n).Pairwise (· ≤ ·) ∧
      ∀ k ∈ rows.scanl (fun n row => n + row.length) n,
        n ≤ k ∧ k ≤ n + (rows.map List.length).sum := by
  induction rows generalizing n with
  | nil => simp
  | cons row rows ih =>
      obtain ⟨hsorted, hbound⟩ := ih (n + row.length)
      simp only [List.scanl_cons, List.map_cons, List.sum_cons]
      constructor
      · refine List.pairwise_cons.mpr ⟨fun k hk => ?_, hsorted⟩
        have := hbound k hk
        omega
      · intro k hk
        rcases List.mem_cons.mp hk with rfl | hk
        · omega
        · have := hbound k hk
          omega

/-- The entries of a matrix that passed validation fit its columns. -/
theorem hasDims_new {E : Type} {matrix : List (List (F × ℕ))} {m n : ℕ} {M : SparseMatrix F}
    (h : (new matrix m n : Run E (SparseMatrix F)) = .ok M)
    (hcols : ∀ row ∈ matrix, ∀ e ∈ row, e.2 < n) : M.HasDims m n := by
  unfold new at h
  dsimp only at h
  split_ifs at h with h₁ h₂
  obtain rfl := Except.ok.inj h
  have hsorted := scanl_sorted ((List.range m).map fun i => matrix.getD i []) 0
  constructor
  · simp
  · rfl
  · intro j hj
    simp only [List.mem_flatMap, List.mem_map, List.mem_range] at hj
    obtain ⟨row, ⟨i, hi, rfl⟩, e, he, rfl⟩ := hj
    by_cases hlt : i < matrix.length
    · rw [List.getD_eq_getElem _ _ hlt] at he
      exact hcols _ (List.getElem_mem hlt) e he
    · rw [List.getD_eq_default _ _ (by omega)] at he
      cases he
  · simp [List.length_flatMap, Function.comp_def]
  · exact hsorted.1
  · intro k hk
    have := (hsorted.2 k hk).2
    simpa [List.length_flatMap, Function.comp_def] using this

end SparseMatrix

end NexusVm.Nova
