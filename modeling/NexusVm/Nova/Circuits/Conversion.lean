import NexusVm.Nova.Cyclefold.Refine
import NexusVm.Nova.SparseIter
import NexusVm.Spartan.Instance

/-!
# Conversion to Spartan

`nova/src/circuits/nova/pcd/compression/conversion.rs`.  The columns of the public input move behind
those of the witness.
-/

namespace NexusVm.Nova.Circuits

open R1cs Cyclefold Spartan

section Conversion

variable {F C PP : Type}

/-- The new place of an entry: `Z = [w, u, x]` rather than `[u, x, w]`. -/
def rearrangeItem (numIo numVars : ℕ) (item : ℕ × ℕ × F) : ℕ × ℕ × F :=
  if numIo ≤ item.2.1 then (item.1, item.2.1 - numIo, item.2.2)
  else (item.1, item.2.1 + numVars, item.2.2)

/-- `rearrange`. -/
def rearrange {E : Type} (numIo numVars : ℕ) (matrix : SparseMatrix F) :
    Run E (List (ℕ × ℕ × F)) := do
  let items ← matrix.iter
  .ok (items.map (rearrangeItem numIo numVars))

/-- `CRR1CSShape::try_from`; Spartan does not count the leading `u`. -/
def convertShape [Zero F] (shape : R1CSShape F) : Run R1CSError (Spartan.R1CSInstance F) := do
  let A ← rearrange shape.numIo shape.numVars shape.A
  let B ← rearrange shape.numIo shape.numVars shape.B
  let C ← rearrange shape.numIo shape.numVars shape.C
  Instance.new shape.numConstraints shape.numVars (shape.numIo - 1) A B C

/-- `CRR1CSInstance::try_from`; an empty public input panics. -/
def convertInstance (U : RelaxedR1CSInstance F C) : Run R1CSError (CRR1CSInstance F C) :=
  match U.X with
  | [] => .error .panic
  | u :: input => .ok ⟨input, u, U.commitment_W, U.commitment_E⟩

/-- `CRR1CSWitness::try_from`. -/
def convertWitness (W : RelaxedR1CSWitness F) : Run R1CSError (CRR1CSWitness F) := .ok ⟨W.W, W.E⟩

/-- The row pointers of a shape are tight, as `R1CSShape::new` makes them. -/
structure TightShape (shape : R1CSShape F) : Prop where
  A : shape.A.Tight
  B : shape.B.Tight
  C : shape.C.Tight

variable {shape : R1CSShape F}

theorem tightShape_new {numConstraints numVars numIo : ℕ} {A B C : List (List (F × ℕ))}
    (h : R1CSShape.new numConstraints numVars numIo A B C = .ok shape) :
    TightShape shape := by
  unfold R1CSShape.new at h
  split at h
  · cases h
  · split at h
    · cases h
    · cases h
    · cases h
    · split at h
      · cases h
      · cases h
      · cases h
      · rename_i hA hB hC
        cases h
        exact ⟨SparseMatrix.tight_new hA, SparseMatrix.tight_new hB, SparseMatrix.tight_new hC⟩

/-- Every matrix of the shape has an entry. -/
structure NonemptyShape (shape : R1CSShape F) : Prop where
  A : shape.A.data ≠ []
  B : shape.B.data ≠ []
  C : shape.C.data ≠ []

/-- The entries of a matrix at their new places. -/
def moved (shape : R1CSShape F) (M : SparseMatrix F) : List (ℕ × ℕ × F) :=
  M.items.map (rearrangeItem shape.numIo shape.numVars)

theorem rearrange_eq_ok_iff {E : Type} {M : SparseMatrix F}
    (h : M.HasDims shape.numConstraints (shape.numIo + shape.numVars)) (htight : M.Tight)
    {out : List (ℕ × ℕ × F)} :
    (rearrange shape.numIo shape.numVars M : Run E _) = .ok out ↔
      M.data ≠ [] ∧ moved shape M = out := by
  rw [rearrange, bind_eq_ok]
  simp only [SparseMatrix.iter_eq_ok_iff h htight, Except.ok.injEq, and_assoc]
  constructor
  · rintro ⟨items, hdata, rfl, hout⟩
    exact ⟨hdata, hout⟩
  · rintro ⟨hdata, hout⟩
    exact ⟨_, hdata, rfl, hout⟩

theorem mem_moved {M : SparseMatrix F}
    (h : M.HasDims shape.numConstraints (shape.numIo + shape.numVars)) :
    ∀ tup ∈ moved shape M,
      tup.1 < shape.numConstraints ∧ tup.2.1 < shape.numVars + 1 + (shape.numIo - 1) := by
  intro tup htup
  have hio := shape.numIo_pos
  obtain ⟨item, hitem, rfl⟩ := List.mem_map.mp htup
  obtain ⟨hrow, hcol⟩ := SparseMatrix.mem_items h hitem
  unfold rearrangeItem
  split_ifs with hwitness
  · refine ⟨hrow, ?_⟩
    show item.2.1 - shape.numIo < _
    omega
  · refine ⟨hrow, ?_⟩
    show item.2.1 + shape.numVars < _
    omega

variable [Field F]

/-- The shape that the conversion makes. -/
def convertedShape (shape : R1CSShape F) : Spartan.R1CSInstance F :=
  paddedInstance shape.numConstraints shape.numVars (shape.numIo - 1) (moved shape shape.A)
    (moved shape shape.B) (moved shape shape.C)

/-- **The conversion of a shape** returns exactly if every matrix has an entry. -/
theorem convertShape_eq_ok_iff (htight : TightShape shape) {shape' : Spartan.R1CSInstance F} :
    convertShape shape = .ok shape' ↔ NonemptyShape shape ∧ convertedShape shape = shape' := by
  have hnew : Instance.new shape.numConstraints shape.numVars (shape.numIo - 1)
      (moved shape shape.A) (moved shape shape.B) (moved shape shape.C) =
        .ok (convertedShape shape) :=
    instanceNew_eq (mem_moved shape.dimsA) (mem_moved shape.dimsB) (mem_moved shape.dimsC)
  simp only [convertShape, bind_eq_ok, rearrange_eq_ok_iff shape.dimsA htight.A,
    rearrange_eq_ok_iff shape.dimsB htight.B, rearrange_eq_ok_iff shape.dimsC htight.C]
  constructor
  · rintro ⟨A, ⟨hA, rfl⟩, B, ⟨hB, rfl⟩, C, ⟨hC, rfl⟩, h⟩
    rw [hnew] at h
    exact ⟨⟨hA, hB, hC⟩, Except.ok.inj h⟩
  · rintro ⟨⟨hA, hB, hC⟩, rfl⟩
    exact ⟨_, ⟨hA, rfl⟩, _, ⟨hB, rfl⟩, _, ⟨hC, rfl⟩, hnew⟩

/-! ## Vectors, preservation and a square -/

/-- The pair after the conversion. -/
def convertedInstance (U : RelaxedR1CSInstance F C) : CRR1CSInstance F C :=
  ⟨U.X.tail, U.X.getD 0 0, U.commitment_W, U.commitment_E⟩

variable {U : RelaxedR1CSInstance F C}

theorem convertInstance_eq (h : 0 < U.X.length) :
    convertInstance U = .ok (convertedInstance U) := by
  obtain ⟨commitment_W, commitment_E, X⟩ := U
  cases X with
  | nil => exact absurd h (Nat.lt_irrefl 0)
  | cons u input => rfl

section Sized

variable {shape : R1CSShape F} {U : RelaxedR1CSInstance F C} {W : RelaxedR1CSWitness F}

theorem fits_converted (hX : U.X.length = shape.numIo) (hW : W.W.length = shape.numVars)
    (hE : W.E.length = shape.numConstraints) :
    Fits (convertedShape shape) (convertedInstance U) ⟨W.W, W.E⟩ where
  input := by
    show U.X.tail.length = shape.numIo - 1
    rw [List.length_tail, hX]
  W := by
    show W.W.length ≤ numVarsPadded shape.numVars (shape.numIo - 1)
    rw [hW]
    exact (le_max_left _ _).trans (le_numVarsPadded _ _)
  E := by
    show W.E.length ≤ numConsPadded shape.numConstraints
    rw [hE]
    exact le_numConsPadded _

/-- **The values of the columns** are the same in both layouts. -/
theorem getD_assignment (hX : U.X.length = shape.numIo) (hW : W.W.length = shape.numVars)
    {item : ℕ × ℕ × F} (hcol : item.2.1 < shape.numIo + shape.numVars) :
    (assignment (convertedShape shape) (convertedInstance U) ⟨W.W, W.E⟩).getD
        (moveEntry shape.numVars (shape.numIo - 1)
          (rearrangeItem shape.numIo shape.numVars item)).col 0 =
      (U.X ++ W.W).getD item.2.1 0 := by
  obtain ⟨row, col, val⟩ := item
  have hio := shape.numIo_pos
  have hpad : max shape.numVars (shape.numIo - 1 + 1) ≤
      numVarsPadded shape.numVars (shape.numIo - 1) := le_numVarsPadded _ _
  have hlen : (padTo (numVarsPadded shape.numVars (shape.numIo - 1)) W.W).length =
      numVarsPadded shape.numVars (shape.numIo - 1) := length_padTo (by omega)
  show (padTo (numVarsPadded shape.numVars (shape.numIo - 1)) W.W ++
    U.X.getD 0 0 :: U.X.tail).getD _ 0 = _
  have hu : U.X.getD 0 0 :: U.X.tail = U.X := by
    cases hcons : U.X with
    | nil =>
        rw [hcons] at hX
        exact absurd hX hio.ne
    | cons u input => rfl
  rw [hu]
  unfold rearrangeItem
  by_cases hwitness : shape.numIo ≤ col
  · have hvar : ¬ shape.numVars ≤ col - shape.numIo := by
      simp only at hcol
      omega
    rw [if_pos hwitness, moveEntry, if_neg hvar]
    show (_ ++ U.X).getD (col - shape.numIo) 0 = (U.X ++ W.W).getD col 0
    rw [List.getD_append _ _ _ _ (by omega), getD_padTo (by omega),
      List.getD_append_right _ _ _ _ (by omega), hX]
  · have hinput : shape.numVars ≤ col + shape.numVars := Nat.le_add_left _ _
    rw [if_neg hwitness, moveEntry, if_pos hinput]
    show (_ ++ U.X).getD (col + shape.numVars +
      numVarsPadded shape.numVars (shape.numIo - 1) - shape.numVars) 0 = (U.X ++ W.W).getD col 0
    rw [List.getD_append_right _ _ _ _ (by omega), hlen,
      List.getD_append _ _ _ _ (by omega)]
    congr 1
    omega

/-- **The products of the rows** are the same in both layouts. -/
theorem rowSum_moved (hX : U.X.length = shape.numIo) (hW : W.W.length = shape.numVars)
    {M : SparseMatrix F} (h : M.HasDims shape.numConstraints (shape.numIo + shape.numVars))
    (htight : M.Tight) (i : ℕ) :
    SparseMatPolynomial.rowSum
        (paddedEntries shape.numConstraints shape.numVars (shape.numIo - 1) (moved shape M))
        (assignment (convertedShape shape) (convertedInstance U) ⟨W.W, W.E⟩) i =
      M.entry (U.X ++ W.W) i := by
  have hpadding : ∀ e ∈ paddingEntries shape.numConstraints shape.numVars (moved shape M).length,
      e.row = i → e.val = (0 : F) := by
    intro e he _
    unfold paddingEntries at he
    split_ifs at he
    · obtain ⟨k, -, rfl⟩ := List.mem_map.mp he
      rfl
    · cases he
  rw [paddedEntries, SparseMatPolynomial.rowSum_append,
    SparseMatPolynomial.rowSum_eq_zero _ hpadding, add_zero, SparseMatrix.entry_eq_rowSum h htight,
    SparseMatPolynomial.rowSum, SparseMatrix.rowSum, moved, List.map_map, List.map_map]
  congr 1
  apply List.map_congr_left
  intro item hitem
  have hvalue := getD_assignment hX hW (SparseMatrix.mem_items h hitem).2
  have hentry : ∀ tup : ℕ × ℕ × F, (moveEntry shape.numVars (shape.numIo - 1) tup).row = tup.1 ∧
      (moveEntry shape.numVars (shape.numIo - 1) tup).val = tup.2.2 := by
    intro tup
    unfold moveEntry
    split_ifs
    · exact ⟨rfl, rfl⟩
    · exact ⟨rfl, rfl⟩
  have hitem' : (rearrangeItem shape.numIo shape.numVars item).1 = item.1 ∧
      (rearrangeItem shape.numIo shape.numVars item).2.2 = item.2.2 := by
    unfold rearrangeItem
    split_ifs
    · exact ⟨rfl, rfl⟩
    · exact ⟨rfl, rfl⟩
  simp only [Function.comp_apply, (hentry _).1, (hentry _).2, hitem'.1, hitem'.2, hvalue]

/-- Below the constraints of the shape a row is a row of the shape, and above it holds. -/
theorem rowHolds_converted_iff (htight : TightShape shape) (hX : U.X.length = shape.numIo)
    (hW : W.W.length = shape.numVars) (hE : W.E.length = shape.numConstraints) :
    (∀ i < (convertedShape shape).numCons,
        RowHolds (convertedShape shape) (convertedInstance U) ⟨W.W, W.E⟩ i) ↔
      ∀ i < shape.numConstraints,
        shape.A.entry (U.X ++ W.W) i * shape.B.entry (U.X ++ W.W) i =
          U.X.getD 0 0 * shape.C.entry (U.X ++ W.W) i + W.E.getD i 0 := by
  have hrow : ∀ i, RowHolds (convertedShape shape) (convertedInstance U) ⟨W.W, W.E⟩ i ↔
      shape.A.entry (U.X ++ W.W) i * shape.B.entry (U.X ++ W.W) i =
        U.X.getD 0 0 * shape.C.entry (U.X ++ W.W) i + W.E.getD i 0 := by
    intro i
    show SparseMatPolynomial.rowSum (paddedEntries _ _ _ _) _ i *
      SparseMatPolynomial.rowSum (paddedEntries _ _ _ _) _ i = U.X.getD 0 0 *
        SparseMatPolynomial.rowSum (paddedEntries _ _ _ _) _ i + W.E.getD i 0 ↔ _
    rw [rowSum_moved hX hW shape.dimsA htight.A, rowSum_moved hX hW shape.dimsB htight.B,
      rowSum_moved hX hW shape.dimsC htight.C]
  constructor
  · intro h i hi
    exact (hrow i).mp (h i (hi.trans_le (le_numConsPadded _)))
  · intro h i _
    apply (hrow i).mpr
    by_cases hi : i < shape.numConstraints
    · exact h i hi
    · have hzero : ∀ {M : SparseMatrix F}, M.HasDims shape.numConstraints
          (shape.numIo + shape.numVars) → M.entry (U.X ++ W.W) i = 0 := by
        intro M hM
        apply List.getD_eq_default
        rw [SparseMatrix.length_multiplyVecUnchecked hM]
        omega
      have hE0 : W.E.getD i 0 = 0 := List.getD_eq_default _ _ (by rw [hE]; omega)
      rw [hzero shape.dimsA, hzero shape.dimsB, hzero shape.dimsC, hE0, mul_zero, mul_zero,
        zero_add]

end Sized

variable [AddCommGroup C] [Module F C] [DecidableEq F]

/-- A pair of the right lengths is satisfied after the conversion exactly if it is satisfied. -/
theorem converted_satisfied_iff (S : CommitmentScheme F C PP) (pp : PP) (htight : TightShape shape)
    {W : RelaxedR1CSWitness F} (hX : U.X.length = shape.numIo) (hW : W.W.length = shape.numVars)
    (hE : W.E.length = shape.numConstraints) :
    ∃ sat, relaxedR1csIsSat (convertedShape shape) (convertedInstance U) ⟨W.W, W.E⟩ = .ok sat ∧
      (sat = true ∧ U.commitment_W = S.commit pp W.W ∧ U.commitment_E = S.commit pp W.E ↔
        RelaxedSatisfied S shape U W pp) := by
  have hrange : (convertedShape shape).InRange := paddedInstance_inRange
    (mem_moved shape.dimsA) (mem_moved shape.dimsB) (mem_moved shape.dimsC)
  refine ⟨_, relaxedR1csIsSat_eq hrange (fits_converted hX hW hE), ?_⟩
  rw [all_rowHolds_iff, rowHolds_converted_iff htight hX hW hE]
  constructor
  · rintro ⟨hrows, hcommW, hcommE⟩
    exact ⟨hW, hX, hE, hrows, hcommW, hcommE⟩
  · intro h
    exact ⟨h.rows, h.commitW, h.commitE⟩

/-- The conversion returns, and a pair of the right lengths is satisfied after it exactly if it is
satisfied before. -/
def ConversionPreserves (S : CommitmentScheme F C PP) (shape : R1CSShape F) (pp : PP) : Prop :=
  ∃ shape', convertShape shape = .ok shape' ∧
    ∀ (U : RelaxedR1CSInstance F C) (W : RelaxedR1CSWitness F), U.X.length = shape.numIo →
      W.W.length = shape.numVars → W.E.length = shape.numConstraints →
      ∃ inst witness sat, convertInstance U = .ok inst ∧ convertWitness W = .ok witness ∧
        relaxedR1csIsSat shape' inst witness = .ok sat ∧
        (sat = true ∧ inst.comm_W = S.commit pp witness.W ∧ inst.comm_E = S.commit pp witness.E ↔
          RelaxedSatisfied S shape U W pp)

/-- **The conversion preserves satisfaction** exactly if every matrix has an entry. -/
theorem conversion_preserves_iff (S : CommitmentScheme F C PP) (htight : TightShape shape) (pp : PP) :
    ConversionPreserves S shape pp ↔ NonemptyShape shape := by
  constructor
  · rintro ⟨shape', hshape', -⟩
    exact ((convertShape_eq_ok_iff htight).mp hshape').1
  · intro hnonempty
    refine ⟨convertedShape shape, (convertShape_eq_ok_iff htight).mpr ⟨hnonempty, rfl⟩, ?_⟩
    intro U W hX hW hE
    have hpos : 0 < U.X.length := hX ▸ shape.numIo_pos
    obtain ⟨sat, hsat, hiff⟩ := converted_satisfied_iff S pp htight hX hW hE
    exact ⟨_, _, sat, convertInstance_eq hpos, rfl, hsat, hiff⟩

end Conversion

section Square

/-- The constraint `w * w = c * 1` for a constant `c`, with one variable. -/
def squareShape (C : SparseMatrix (ZMod 3)) (h : C.HasDims 1 2) : R1CSShape (ZMod 3) where
  numConstraints := 1
  numVars := 1
  numIo := 1
  A := ⟨[1], [1], [0, 1], 2⟩
  B := ⟨[1], [1], [0, 1], 2⟩
  C := C
  numIo_pos := Nat.one_pos
  dimsA := R1cs.hasDims_square
  dimsB := R1cs.hasDims_square
  dimsC := h

/-- The constraint `w * w = 1`. -/
def squareOne : R1CSShape (ZMod 3) :=
  squareShape ⟨[1], [0], [0, 1], 2⟩ ⟨rfl, rfl, by decide, rfl, by decide, by decide⟩

/-- The constraint `w * w = 0`; its last matrix has no entry. -/
def squareZero : R1CSShape (ZMod 3) :=
  squareShape ⟨[], [], [0, 0], 2⟩ ⟨rfl, rfl, by decide, rfl, by decide, by decide⟩

theorem squareOne_tight : TightShape squareOne :=
  tightShape_new (show R1CSShape.new 1 1 1 [[(1, 1)]] [[(1, 1)]] [[(1, 0)]] = .ok squareOne from rfl)

/-- **A matrix without entries** makes the conversion panic. -/
theorem empty_matrix_panics : convertShape squareZero = .error .panic ∧
    ¬ ConversionPreserves (sumCommitment 3) squareZero () := by
  have hpanic : convertShape squareZero = .error .panic := rfl
  refine ⟨hpanic, ?_⟩
  rintro ⟨shape', hshape', -⟩
  rw [hpanic] at hshape'
  cases hshape'

/-- The conversion of the square that is one. -/
theorem conversion_preserves_square : ConversionPreserves (sumCommitment 3) squareOne () :=
  (conversion_preserves_iff (sumCommitment 3) squareOne_tight ()).mpr
    ⟨List.cons_ne_nil _ _, List.cons_ne_nil _ _, List.cons_ne_nil _ _⟩

end Square

end NexusVm.Nova.Circuits
