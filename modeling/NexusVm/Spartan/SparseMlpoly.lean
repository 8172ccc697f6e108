import NexusVm.Spartan.Transcript

/-!
# Sparse polynomials

Evaluation of the matrices and of the public inputs, `spartan/src/sparse_mlpoly.rs` and
`r1csinstance.rs`.  All evaluations of a matrix are one sum over its entries.
-/

namespace NexusVm.Spartan

open Nova

section Matrices

variable {F : Type} [Field F]

namespace SparseMatPolynomial

/-- `SparseMatPolynomial::compute_eval_table_sparse`; an entry outside of the tables panics. -/
def computeEvalTableSparse {E : Type} (poly : SparseMatPolynomial F) (rx : List F)
    (numRows numCols : ℕ) : Run E (List F) := do
  Run.assert (rx.length = numRows)
  Run.assert (poly.M.all fun e => e.col < numCols ∧ e.row < rx.length)
  .ok (poly.M.foldl (fun evals e => evals.modify e.col (· + rx.getD e.row 0 * e.val))
    (List.replicate numCols 0))

/-- `SparseMatPolynomial::evaluate_with_tables`. -/
def evaluateWithTables {E : Type} (poly : SparseMatPolynomial F)
    (evalTableRx evalTableRy : List F) : Run E F := do
  Run.assert (2 ^ poly.numVarsX = evalTableRx.length)
  Run.assert (2 ^ poly.numVarsY = evalTableRy.length)
  Run.assert (poly.M.all fun e => e.row < evalTableRx.length ∧ e.col < evalTableRy.length)
  .ok (poly.M.map fun e => evalTableRx.getD e.row 0 * evalTableRy.getD e.col 0 * e.val).sum

end SparseMatPolynomial

/-- `R1CSInstance::multiply_vec`. -/
def R1CSInstance.multiplyVec {E : Type} (inst : R1CSInstance F) (numRows numCols : ℕ) (z : List F) :
    Run E (DensePolynomial F × DensePolynomial F × DensePolynomial F) := do
  Run.assert (numRows = inst.numCons)
  Run.assert (z.length = numCols)
  Run.assert (inst.numVars < numCols)
  let Az ← inst.A.multiplyVec numRows numCols z
  let polyAz ← denseNew Az
  let Bz ← inst.B.multiplyVec numRows numCols z
  let polyBz ← denseNew Bz
  let Cz ← inst.C.multiplyVec numRows numCols z
  let polyCz ← denseNew Cz
  .ok (polyAz, polyBz, polyCz)

/-- `R1CSInstance::compute_eval_table_sparse`. -/
def R1CSInstance.computeEvalTableSparse {E : Type} (inst : R1CSInstance F) (numRows numCols : ℕ)
    (evals : List F) : Run E (List F × List F × List F) := do
  Run.assert (numRows = inst.numCons)
  Run.assert (inst.numVars < numCols)
  let evalsA ← inst.A.computeEvalTableSparse evals numRows numCols
  let evalsB ← inst.B.computeEvalTableSparse evals numRows numCols
  let evalsC ← inst.C.computeEvalTableSparse evals numRows numCols
  .ok (evalsA, evalsB, evalsC)

/-- `R1CSInstance::evaluate` with `SparseMatPolynomial::multi_evaluate`. -/
def R1CSInstance.evaluate {E : Type} (inst : R1CSInstance F) (rx ry : List F) :
    Run E (F × F × F) := do
  let evalA ← inst.A.evaluateWithTables (eqEvals rx) (eqEvals ry)
  let evalB ← inst.B.evaluateWithTables (eqEvals rx) (eqEvals ry)
  let evalC ← inst.C.evaluateWithTables (eqEvals rx) (eqEvals ry)
  .ok (evalA, evalB, evalC)

theorem length_foldl_modify {α : Type} (index : α → ℕ) (val : α → F) (l : List α) (acc : List F) :
    (l.foldl (fun acc a => acc.modify (index a) (· + val a)) acc).length = acc.length := by
  induction l generalizing acc with
  | nil => rfl
  | cons a l ih => rw [List.foldl_cons, ih, List.length_modify]

theorem dotProduct_modify {acc : List F} {i : ℕ} (hi : i < acc.length) (x : F) (w : List F) :
    Nova.dotProduct (acc.modify i (· + x)) w = Nova.dotProduct acc w + x * w.getD i 0 := by
  have hentry : ∀ k ∈ Finset.range acc.length, (acc.modify i (· + x)).getD k 0 * w.getD k 0 =
      acc.getD k 0 * w.getD k 0 + if i = k then x * w.getD k 0 else 0 := by
    intro k hk
    rw [Finset.mem_range] at hk
    have hk' : k < (acc.modify i (· + x)).length := by rwa [List.length_modify]
    rw [List.getD_eq_getElem _ _ hk', List.getD_eq_getElem _ _ hk, List.getElem_modify]
    by_cases h : i = k
    · rw [if_pos h, if_pos h, add_mul]
    · rw [if_neg h, if_neg h, add_zero]
  rw [dotProduct_eq_sum, dotProduct_eq_sum, List.length_modify, Finset.sum_congr rfl hentry,
    Finset.sum_add_distrib, Finset.sum_ite_eq, if_pos (Finset.mem_range.mpr hi)]

/-- Values that are added into the entries of a vector. -/
theorem dotProduct_foldl_modify {α : Type} (index : α → ℕ) (val : α → F) {l : List α}
    {acc : List F} (h : ∀ a ∈ l, index a < acc.length) (w : List F) :
    Nova.dotProduct (l.foldl (fun acc a => acc.modify (index a) (· + val a)) acc) w =
      Nova.dotProduct acc w + (l.map fun a => val a * w.getD (index a) 0).sum := by
  induction l generalizing acc with
  | nil => exact (add_zero _).symm
  | cons a l ih =>
      have htail : ∀ b ∈ l, index b < (acc.modify (index a) (· + val a)).length := by
        intro b hb
        rw [List.length_modify]
        exact h b (List.mem_cons_of_mem _ hb)
      rw [List.foldl_cons, ih htail, dotProduct_modify (h a List.mem_cons_self), List.map_cons,
        List.sum_cons, add_assoc]

theorem dotProduct_replicate_zero (n : ℕ) (w : List F) :
    Nova.dotProduct (List.replicate n 0) w = 0 := by
  induction n generalizing w with
  | zero => rfl
  | succ n ih =>
      cases w with
      | nil => rfl
      | cons b w =>
          rw [List.replicate_succ, Nova.dotProduct, List.zipWith_cons_cons, List.sum_cons, zero_mul,
            zero_add]
          exact ih w

namespace SparseMatPolynomial

/-- The sum of the entries of a matrix, with factors for rows and columns. -/
def form (M : List (SparseMatEntry F)) (x y : List F) : F :=
  (M.map fun e => x.getD e.row 0 * y.getD e.col 0 * e.val).sum

variable {M : List (SparseMatEntry F)}

/-- **The product with a vector** at a point of the rows. -/
theorem valueAt_addEntries {numRows : ℕ} (h : ∀ e ∈ M, e.row < numRows) (z rx : List F) :
    valueAt (addEntries M z (List.replicate numRows 0)) rx = form M (eqEvals rx) z := by
  have hrow : ∀ e ∈ M, e.row < (List.replicate numRows (0 : F)).length := by
    intro e he
    rw [List.length_replicate]
    exact h e he
  rw [valueAt, addEntries,
    dotProduct_foldl_modify (fun e : SparseMatEntry F => e.row)
      (fun e => e.val * z.getD e.col 0) hrow,
    dotProduct_replicate_zero, zero_add, form]
  congr 1
  apply List.map_congr_left
  intro e _
  ring

/-- The table of a matrix with its rows bound to a point. -/
def evalTable (M : List (SparseMatEntry F)) (x : List F) (numCols : ℕ) : List F :=
  M.foldl (fun evals e => evals.modify e.col (· + x.getD e.row 0 * e.val))
    (List.replicate numCols 0)

theorem length_evalTable (M : List (SparseMatEntry F)) (x : List F) (numCols : ℕ) :
    (evalTable M x numCols).length = numCols := by
  rw [evalTable, length_foldl_modify, List.length_replicate]

/-- **The table of the columns** against a vector. -/
theorem dotProduct_evalTable {numCols : ℕ} (h : ∀ e ∈ M, e.col < numCols) (x y : List F) :
    Nova.dotProduct (evalTable M x numCols) y = form M x y := by
  have hcol : ∀ e ∈ M, e.col < (List.replicate numCols (0 : F)).length := by
    intro e he
    rw [List.length_replicate]
    exact h e he
  rw [evalTable,
    dotProduct_foldl_modify (fun e : SparseMatEntry F => e.col)
      (fun e => x.getD e.row 0 * e.val) hcol,
    dotProduct_replicate_zero, zero_add, form]
  congr 1
  apply List.map_congr_left
  intro e _
  ring

variable {poly : SparseMatPolynomial F} {numRows numCols : ℕ}

theorem computeEvalTableSparse_eq {E : Type} (h : poly.InRange numRows numCols) {rx : List F}
    (hrx : rx.length = numRows) :
    (poly.computeEvalTableSparse rx numRows numCols : Run E _) =
      .ok (evalTable poly.M rx numCols) := by
  refine bind_eq_ok.mpr ⟨(), assert_eq_ok.mpr hrx, bind_eq_ok.mpr ⟨(), assert_eq_ok.mpr ?_, rfl⟩⟩
  simp only [List.all_eq_true, decide_eq_true_eq]
  intro e he
  rw [hrx]
  exact ⟨(h e he).2, (h e he).1⟩

theorem evaluateWithTables_eq {E : Type} (h : poly.InRange numRows numCols) {x y : List F}
    (hx : x.length = numRows) (hy : y.length = numCols) (hX : 2 ^ poly.numVarsX = numRows)
    (hY : 2 ^ poly.numVarsY = numCols) :
    (poly.evaluateWithTables x y : Run E F) = .ok (form poly.M x y) := by
  refine bind_eq_ok.mpr ⟨(), assert_eq_ok.mpr (hX.trans hx.symm), bind_eq_ok.mpr ⟨(),
    assert_eq_ok.mpr (hY.trans hy.symm), bind_eq_ok.mpr ⟨(), assert_eq_ok.mpr ?_, rfl⟩⟩⟩
  simp only [List.all_eq_true, decide_eq_true_eq]
  intro e he
  rw [hx, hy]
  exact h e he

end SparseMatPolynomial

/-! ## Public inputs -/

/-- `Math::get_bits`, the most significant bit first. -/
def getBits (n numBits : ℕ) : List Bool :=
  (List.range numBits).map fun shiftAmount => n.testBit (numBits - shiftAmount - 1)

/-- `SparsePolyEntry`. -/
structure SparsePolyEntry (F : Type) where
  idx : ℕ
  val : F
deriving DecidableEq

/-- `SparsePolynomial`. -/
structure SparsePolynomial (F : Type) where
  numVars : ℕ
  Z : List (SparsePolyEntry F)

/-- `SparsePolynomial::compute_chi`. -/
def computeChi (a : List Bool) (r : List F) : F :=
  (a.zip r).foldl (fun chi (aj, rj) => if aj then chi * rj else chi * (1 - rj)) 1

/-- `SparsePolynomial::evaluate`; the bits are as many as the point has entries. -/
def SparsePolynomial.evaluate {E : Type} (poly : SparsePolynomial F) (r : List F) : Run E F := do
  Run.assert (poly.numVars = r.length)
  .ok (poly.Z.map fun e => computeChi (getBits e.idx r.length) r * e.val).sum

theorem getBits_succ (i n : ℕ) : getBits i (n + 1) = i.testBit n :: getBits i n := by
  rw [getBits, List.range_succ_eq_map, List.map_cons, List.map_map, getBits]
  congr 1
  apply List.map_congr_left
  intro s _
  have hidx : n + 1 - (s + 1) - 1 = n - s - 1 := by omega
  simp only [Function.comp_apply, Nat.succ_eq_add_one, hidx]

theorem getBits_sub {i n : ℕ} (hi : 2 ^ n ≤ i) :
    getBits (i - 2 ^ n) n = getBits i n := by
  apply List.map_congr_left
  intro s hs
  rw [List.mem_range] at hs
  have hadd : i = 2 ^ n + (i - 2 ^ n) := by omega
  have hlt' : n - s - 1 < n := by omega
  conv_rhs => rw [hadd, Nat.testBit_two_pow_add_gt hlt']

theorem foldl_chi (l : List (Bool × F)) (c : F) :
    l.foldl (fun chi (aj, rj) => if aj then chi * rj else chi * (1 - rj)) c =
      c * l.foldl (fun chi (aj, rj) => if aj then chi * rj else chi * (1 - rj)) 1 := by
  induction l generalizing c with
  | nil => exact (mul_one c).symm
  | cons p l ih =>
      obtain ⟨a, r⟩ := p
      rw [List.foldl_cons, List.foldl_cons, ih]
      conv_rhs => rw [ih]
      cases a with
      | false => simp [mul_assoc]
      | true => simp [mul_assoc]

theorem computeChi_cons (a : Bool) (as : List Bool) (r : F) (rs : List F) :
    computeChi (a :: as) (r :: rs) = (if a then r else 1 - r) * computeChi as rs := by
  rw [computeChi, List.zip_cons_cons, List.foldl_cons, foldl_chi]
  cases a with
  | false => simp [computeChi]
  | true => simp [computeChi]

/-- **An entry of the evaluations of `eq`** is the product over the bits of its index. -/
theorem getD_eqEvals {r : List F} {i : ℕ} (hi : i < 2 ^ r.length) :
    (eqEvals r).getD i 0 = computeChi (getBits i r.length) r := by
  induction r generalizing i with
  | nil =>
      obtain rfl : i = 0 := by simpa using hi
      rfl
  | cons r rs ih =>
      rw [List.length_cons] at hi ⊢
      have hlen : ((eqEvals rs).map ((1 - r) * ·)).length = 2 ^ rs.length := by
        rw [List.length_map, length_eqEvals]
      rw [eqEvals_cons, getBits_succ, computeChi_cons]
      rcases Nat.lt_or_ge i (2 ^ rs.length) with hlow | hhigh
      · rw [List.getD_append _ _ _ _ (hlen ▸ hlow), getD_map_mul, ih hlow,
          Nat.testBit_lt_two_pow hlow]
        rfl
      · have hsub : i - 2 ^ rs.length < 2 ^ rs.length := by
          rw [pow_succ] at hi
          omega
        have hbit : i.testBit rs.length = true := by
          have hadd : i = 2 ^ rs.length + (i - 2 ^ rs.length) := by omega
          rw [hadd, Nat.testBit_two_pow_add_eq, Nat.testBit_lt_two_pow hsub]
          rfl
        rw [List.getD_append_right _ _ _ _ (hlen ▸ hhigh), getD_map_mul, hlen, ih hsub,
          getBits_sub hhigh, hbit]
        rfl

end Matrices

end NexusVm.Spartan
