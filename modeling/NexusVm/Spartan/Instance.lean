import NexusVm.Nova.ArkMle

/-!
# Spartan instances

`spartan/src/lib.rs`, `r1csinstance.rs`, `sparse_mlpoly.rs` and `crr1cs.rs`.  The matrices are lists
of entries; the numbers of constraints and variables are padded to powers of two.
-/

namespace NexusVm.Spartan

open Nova

/-- `R1CSError`. -/
inductive R1CSError
  | nonPowerOfTwoCons
  | nonPowerOfTwoVars
  | invalidNumberOfInputs
  | invalidNumberOfVars
  | invalidScalar
  | invalidIndex
deriving DecidableEq

/-- `Math::log_2`, rounded up. -/
def log2 {E : Type} (n : ℕ) : Run E ℕ := do
  Run.assert (n ≠ 0)
  .ok (Nat.clog 2 n)

theorem log2_eq_ok {E : Type} {n k : ℕ} :
    (log2 n : Run E ℕ) = .ok k ↔ n ≠ 0 ∧ Nat.clog 2 n = k := by
  simp only [log2, bind_eq_ok, assert_eq_ok, Except.ok.injEq, exists_const]

/-- `SparseMatEntry`. -/
structure SparseMatEntry (F : Type) where
  row : ℕ
  col : ℕ
  val : F
deriving DecidableEq

/-- `SparseMatPolynomial`. -/
structure SparseMatPolynomial (F : Type) where
  numVarsX : ℕ
  numVarsY : ℕ
  M : List (SparseMatEntry F)

section Matrices

variable {F : Type} [Field F]

/-- The products of the entries, added into their rows. -/
def SparseMatPolynomial.addEntries (M : List (SparseMatEntry F)) (z : List F) (Mz : List F) :
    List F :=
  M.foldl (fun Mz e => Mz.modify e.row (· + e.val * z.getD e.col 0)) Mz

/-- `SparseMatPolynomial::multiply_vec`; an entry outside of the vectors panics. -/
def SparseMatPolynomial.multiplyVec {E : Type} (poly : SparseMatPolynomial F)
    (numRows numCols : ℕ) (z : List F) : Run E (List F) := do
  Run.assert (z.length = numCols)
  Run.assert (poly.M.all fun e => e.row < numRows ∧ e.col < z.length)
  .ok (addEntries poly.M z (List.replicate numRows 0))

namespace SparseMatPolynomial

theorem multiplyVec_eq_ok {E : Type} {poly : SparseMatPolynomial F} {numRows numCols : ℕ}
    {z Mz : List F} : (poly.multiplyVec numRows numCols z : Run E _) = .ok Mz ↔
      z.length = numCols ∧ (∀ e ∈ poly.M, e.row < numRows ∧ e.col < z.length) ∧
        addEntries poly.M z (List.replicate numRows 0) = Mz := by
  simp only [multiplyVec, bind_eq_ok, assert_eq_ok, Except.ok.injEq, exists_const, List.all_eq_true,
    decide_eq_true_eq]

theorem length_addEntries (M : List (SparseMatEntry F)) (z Mz : List F) :
    (addEntries M z Mz).length = Mz.length := by
  induction M generalizing Mz with
  | nil => rfl
  | cons e M ih => exact (ih _).trans (List.length_modify ..)

/-- The products of the entries of a row. -/
def rowSum (M : List (SparseMatEntry F)) (z : List F) (row : ℕ) : F :=
  (M.map fun e => if e.row = row then e.val * z.getD e.col 0 else 0).sum

variable {M : List (SparseMatEntry F)}

/-- **A row of a product** is the sum over the entries of the row. -/
theorem getD_addEntries {Mz : List F} (z : List F) {row : ℕ} (hrow : row < Mz.length) :
    (addEntries M z Mz).getD row 0 = Mz.getD row 0 + rowSum M z row := by
  induction M generalizing Mz with
  | nil => exact (add_zero _).symm
  | cons e M ih =>
      have hlen : row < (Mz.modify e.row (· + e.val * z.getD e.col 0)).length := by
        rwa [List.length_modify]
      have hhead : (Mz.modify e.row (· + e.val * z.getD e.col 0)).getD row 0 =
          Mz.getD row 0 + if e.row = row then e.val * z.getD e.col 0 else 0 := by
        rw [List.getD_eq_getElem _ _ hlen, List.getD_eq_getElem _ _ hrow, List.getElem_modify]
        by_cases he : e.row = row
        · rw [if_pos he, if_pos he]
        · rw [if_neg he, if_neg he, add_zero]
      have htail := ih hlen
      rw [hhead, add_assoc] at htail
      rw [rowSum, List.map_cons, List.sum_cons]
      exact htail

/-- Without entries in a row its product is zero. -/
theorem rowSum_eq_zero (z : List F) {row : ℕ} (h : ∀ e ∈ M, e.row = row → e.val = 0) :
    rowSum M z row = 0 := by
  apply List.sum_eq_zero
  intro x hx
  obtain ⟨e, he, rfl⟩ := List.mem_map.mp hx
  by_cases hrow : e.row = row
  · rw [if_pos hrow, h e he hrow, zero_mul]
  · rw [if_neg hrow]

theorem rowSum_append (M M' : List (SparseMatEntry F)) (z : List F) (row : ℕ) :
    rowSum (M ++ M') z row = rowSum M z row + rowSum M' z row := by
  rw [rowSum, List.map_append, List.sum_append]
  rfl

end SparseMatPolynomial

end Matrices

/-- `R1CSInstance`, and `Instance` and `CRR1CSShape` around it. -/
structure R1CSInstance (F : Type) where
  numCons : ℕ
  numVars : ℕ
  numInputs : ℕ
  A : SparseMatPolynomial F
  B : SparseMatPolynomial F
  C : SparseMatPolynomial F

section Instances

variable {F : Type}

/-- `R1CSInstance::new`. -/
def R1CSInstance.new (numCons numVars numInputs : ℕ) (A B C : List (SparseMatEntry F)) :
    Run R1CSError (R1CSInstance F) := do
  Run.assert (nextPowerOfTwo numCons = numCons)
  Run.assert (nextPowerOfTwo numVars = numVars)
  Run.assert (numInputs < numVars)
  let numPolyVarsX ← log2 numCons
  let numPolyVarsY ← log2 (2 * numVars)
  .ok
    { numCons := numCons, numVars := numVars, numInputs := numInputs
      A := ⟨numPolyVarsX, numPolyVarsY, A⟩
      B := ⟨numPolyVarsX, numPolyVarsY, B⟩
      C := ⟨numPolyVarsX, numPolyVarsY, C⟩ }

/-- `num_vars_padded`: at least the inputs and the constant. -/
def numVarsPadded (numVars numInputs : ℕ) : ℕ := nextPowerOfTwo (max numVars (numInputs + 1))

/-- `num_cons_padded`; for no constraint at all the second case wins. -/
def numConsPadded (numCons : ℕ) : ℕ :=
  if nextPowerOfTwo numCons ≠ numCons then nextPowerOfTwo numCons
  else if numCons = 0 ∨ numCons = 1 then 2 else numCons

/-- Columns of inputs move behind the padded variables. -/
def moveEntry (numVars numInputs : ℕ) (tup : ℕ × ℕ × F) : SparseMatEntry F :=
  if numVars ≤ tup.2.1 then
    ⟨tup.1, tup.2.1 + numVarsPadded numVars numInputs - numVars, tup.2.2⟩
  else ⟨tup.1, tup.2.1, tup.2.2⟩

/-- The entries that pad an instance with at most one constraint. -/
def paddingEntries [Zero F] (numCons numVars count : ℕ) : List (SparseMatEntry F) :=
  if numCons = 0 ∨ numCons = 1 then
    (List.range' count (numConsPadded numCons - count)).map fun i => ⟨i, numVars, 0⟩
  else []

/-- `bytes_to_scalar`. -/
def bytesToScalar [Zero F] (numCons numVars numInputs : ℕ) (tups : List (ℕ × ℕ × F)) :
    Run R1CSError (List (SparseMatEntry F)) := do
  tups.forM fun (row, col, _) => do
    Run.failIf (numCons ≤ row) .invalidIndex
    Run.failIf (numVars + 1 + numInputs ≤ col) .invalidIndex
  .ok (tups.map (moveEntry numVars numInputs) ++ paddingEntries numCons numVars tups.length)

/-- `Instance::new`. -/
def Instance.new [Zero F] (numCons numVars numInputs : ℕ) (A B C : List (ℕ × ℕ × F)) :
    Run R1CSError (R1CSInstance F) := do
  let A ← bytesToScalar numCons numVars numInputs A
  let B ← bytesToScalar numCons numVars numInputs B
  let C ← bytesToScalar numCons numVars numInputs C
  R1CSInstance.new (numConsPadded numCons) (numVarsPadded numVars numInputs) numInputs A B C

/-- `CRR1CSInstance`. -/
structure CRR1CSInstance (F C : Type) where
  input : List F
  u : F
  comm_W : C
  comm_E : C

/-- `CRR1CSWitness`. -/
structure CRR1CSWitness (F : Type) where
  W : List F
  E : List F

variable [Field F]

/-- `Assignment::pad`. -/
def Assignment.pad {E : Type} (assignment : List F) (len : ℕ) : Run E (List F) := do
  Run.assert (assignment.length < len)
  .ok (padTo len assignment)

/-- `padded_vars`: variables are padded only if some are missing. -/
def padVars {E : Type} (numVars : ℕ) (W : List F) : Run E (List F) :=
  if W.length < numVars then Assignment.pad W numVars else .ok W

/-- `relaxed_r1cs_is_sat`. -/
def relaxedR1csIsSat [DecidableEq F] {C : Type} (shape : R1CSInstance F) (inst : CRR1CSInstance F C)
    (witness : CRR1CSWitness F) : Run R1CSError Bool := do
  Run.failIf (shape.numVars < witness.W.length) .invalidNumberOfInputs
  Run.failIf (inst.input.length ≠ shape.numInputs) .invalidNumberOfInputs
  let paddedVars ← padVars shape.numVars witness.W
  let paddedE := if witness.E.length < shape.numCons then padTo shape.numCons witness.E
    else witness.E
  let z := paddedVars ++ [inst.u] ++ inst.input
  let numCols := shape.numVars + shape.numInputs + 1
  let Az ← shape.A.multiplyVec shape.numCons numCols z
  let Bz ← shape.B.multiplyVec shape.numCons numCols z
  let Cz ← shape.C.multiplyVec shape.numCons numCols z
  Run.assert (Az.length = shape.numCons)
  Run.assert (Bz.length = shape.numCons)
  Run.assert (Cz.length = shape.numCons)
  Run.assert (paddedE.length = shape.numCons)
  .ok ((List.range shape.numCons).all fun i =>
    Az.getD i 0 * Bz.getD i 0 = inst.u * Cz.getD i 0 + paddedE.getD i 0)

/-! ## Satisfaction and construction -/

/-- The vector of the matrices: padded variables, `u` and the inputs. -/
def assignment {C : Type} (shape : R1CSInstance F) (inst : CRR1CSInstance F C)
    (witness : CRR1CSWitness F) : List F :=
  padTo shape.numVars witness.W ++ inst.u :: inst.input

/-- A row of the relaxed system. -/
def RowHolds {C : Type} (shape : R1CSInstance F) (inst : CRR1CSInstance F C)
    (witness : CRR1CSWitness F) (i : ℕ) : Prop :=
  let z := assignment shape inst witness
  SparseMatPolynomial.rowSum shape.A.M z i * SparseMatPolynomial.rowSum shape.B.M z i =
    inst.u * SparseMatPolynomial.rowSum shape.C.M z i + witness.E.getD i 0

instance {C : Type} [DecidableEq F] (shape : R1CSInstance F) (inst : CRR1CSInstance F C)
    (witness : CRR1CSWitness F) (i : ℕ) : Decidable (RowHolds shape inst witness i) :=
  inferInstanceAs (Decidable (_ = _))

/-- The entries of a matrix lie in it. -/
def SparseMatPolynomial.InRange (poly : SparseMatPolynomial F) (numRows numCols : ℕ) : Prop :=
  ∀ e ∈ poly.M, e.row < numRows ∧ e.col < numCols

/-- The entries of an instance lie in its matrices. -/
structure R1CSInstance.InRange (shape : R1CSInstance F) : Prop where
  A : shape.A.InRange shape.numCons (shape.numVars + shape.numInputs + 1)
  B : shape.B.InRange shape.numCons (shape.numVars + shape.numInputs + 1)
  C : shape.C.InRange shape.numCons (shape.numVars + shape.numInputs + 1)

/-- Lengths for which a pair fits a shape. -/
structure Fits {C : Type} (shape : R1CSInstance F) (inst : CRR1CSInstance F C)
    (witness : CRR1CSWitness F) : Prop where
  input : inst.input.length = shape.numInputs
  W : witness.W.length ≤ shape.numVars
  E : witness.E.length ≤ shape.numCons

theorem padTo_length (z : List F) : padTo z.length z = z := by
  rw [padTo, List.take_length, Nat.sub_self, List.replicate_zero, List.append_nil]

theorem padVars_eq {E : Type} {numVars : ℕ} {W : List F} (h : W.length ≤ numVars) :
    (padVars numVars W : Run E _) = .ok (padTo numVars W) := by
  by_cases hlt : W.length < numVars
  · rw [padVars, if_pos hlt]
    exact bind_eq_ok.mpr ⟨(), assert_eq_ok.mpr hlt, rfl⟩
  · have heq : W.length = numVars := by omega
    rw [padVars, if_neg hlt, ← heq, padTo_length]

variable {witness : CRR1CSWitness F} {shape : R1CSInstance F}

theorem length_assignment {C : Type} {inst : CRR1CSInstance F C} (h : Fits shape inst witness) :
    (assignment shape inst witness).length = shape.numVars + shape.numInputs + 1 := by
  rw [assignment, List.length_append, length_padTo h.W, List.length_cons, h.input]
  omega

theorem SparseMatPolynomial.multiplyVec_eq {E : Type} {poly : SparseMatPolynomial F}
    {numRows numCols : ℕ} {z : List F} (h : poly.InRange numRows numCols)
    (hz : z.length = numCols) : (poly.multiplyVec numRows numCols z : Run E _) =
      .ok (addEntries poly.M z (List.replicate numRows 0)) := by
  apply multiplyVec_eq_ok.mpr
  refine ⟨hz, fun e he => ?_, rfl⟩
  rw [hz]
  exact h e he

theorem SparseMatPolynomial.getD_product (M : List (SparseMatEntry F)) (z : List F)
    {numRows i : ℕ} (hi : i < numRows) :
    (addEntries M z (List.replicate numRows 0)).getD i 0 = rowSum M z i := by
  have hlen : i < (List.replicate numRows (0 : F)).length := by rwa [List.length_replicate]
  rw [getD_addEntries z hlen, List.getD_eq_getElem _ _ hlen, List.getElem_replicate, zero_add]

/-- **The check of a relaxed pair** returns whether all rows hold. -/
theorem relaxedR1csIsSat_eq [DecidableEq F] {C : Type} {inst : CRR1CSInstance F C}
    (hrange : shape.InRange) (h : Fits shape inst witness) :
    relaxedR1csIsSat shape inst witness =
      .ok ((List.range shape.numCons).all fun i => RowHolds shape inst witness i) := by
  have hE : (if witness.E.length < shape.numCons then padTo shape.numCons witness.E
      else witness.E) = padTo shape.numCons witness.E := by
    by_cases hlt : witness.E.length < shape.numCons
    · rw [if_pos hlt]
    · have heq : witness.E.length = shape.numCons := by
        have hle := h.E
        omega
      rw [if_neg hlt, ← heq, padTo_length]
  have hz : padTo shape.numVars witness.W ++ [inst.u] ++ inst.input =
      assignment shape inst witness := by
    rw [assignment, List.append_assoc, List.singleton_append]
  have hlen := length_assignment h
  have hproduct : ∀ M, (SparseMatPolynomial.addEntries M (assignment shape inst witness)
      (List.replicate shape.numCons 0)).length = shape.numCons := by
    intro M
    rw [SparseMatPolynomial.length_addEntries, List.length_replicate]
  refine bind_eq_ok.mpr ⟨(), failIf_eq_ok.mpr (Nat.not_lt.mpr h.W), bind_eq_ok.mpr ⟨(),
    failIf_eq_ok.mpr (not_not_intro h.input), bind_eq_ok.mpr ⟨_, padVars_eq h.W, ?_⟩⟩⟩
  dsimp only
  rw [hz, hE]
  refine bind_eq_ok.mpr ⟨_, SparseMatPolynomial.multiplyVec_eq hrange.A hlen, bind_eq_ok.mpr ⟨_,
    SparseMatPolynomial.multiplyVec_eq hrange.B hlen, bind_eq_ok.mpr ⟨_,
    SparseMatPolynomial.multiplyVec_eq hrange.C hlen, ?_⟩⟩⟩
  refine bind_eq_ok.mpr ⟨(), assert_eq_ok.mpr (hproduct _), bind_eq_ok.mpr ⟨(),
    assert_eq_ok.mpr (hproduct _), bind_eq_ok.mpr ⟨(), assert_eq_ok.mpr (hproduct _),
    bind_eq_ok.mpr ⟨(), assert_eq_ok.mpr (length_padTo h.E), ?_⟩⟩⟩⟩
  rw [Except.ok.injEq, Bool.eq_iff_iff, List.all_eq_true, List.all_eq_true]
  apply forall_congr'
  intro i
  rw [List.mem_range]
  apply imp_congr_right
  intro hi
  rw [decide_eq_true_iff, decide_eq_true_iff, SparseMatPolynomial.getD_product _ _ hi,
    SparseMatPolynomial.getD_product _ _ hi, SparseMatPolynomial.getD_product _ _ hi,
    getD_padTo h.E]
  rfl

/-- A pair is satisfied if all rows hold. -/
theorem all_rowHolds_iff [DecidableEq F] {C : Type} {inst : CRR1CSInstance F C} :
    ((List.range shape.numCons).all fun i => RowHolds shape inst witness i) = true ↔
      ∀ i < shape.numCons, RowHolds shape inst witness i := by
  simp only [List.all_eq_true, List.mem_range, decide_eq_true_iff]

theorem nextPowerOfTwo_idem (n : ℕ) : nextPowerOfTwo (nextPowerOfTwo n) = nextPowerOfTwo n := by
  obtain ⟨k, hk⟩ := nextPowerOfTwo_eq n
  rw [hk]
  cases k with
  | zero => rfl
  | succ k => exact nextPowerOfTwo_two_pow k.succ_pos

theorem nextPowerOfTwo_pos (n : ℕ) : 0 < nextPowerOfTwo n := by
  obtain ⟨k, hk⟩ := nextPowerOfTwo_eq n
  rw [hk]
  exact Nat.two_pow_pos k

theorem le_numConsPadded (numCons : ℕ) : numCons ≤ numConsPadded numCons := by
  unfold numConsPadded
  split_ifs with h h'
  · exact le_nextPowerOfTwo numCons
  · omega
  · exact le_refl numCons

theorem numConsPadded_power (numCons : ℕ) :
    nextPowerOfTwo (numConsPadded numCons) = numConsPadded numCons := by
  unfold numConsPadded
  split_ifs with h h'
  · exact nextPowerOfTwo_idem numCons
  · rfl
  · exact not_ne_iff.mp h

theorem numConsPadded_pos (numCons : ℕ) : 0 < numConsPadded numCons := by
  rw [← numConsPadded_power]
  exact nextPowerOfTwo_pos _

theorem le_numVarsPadded (numVars numInputs : ℕ) :
    max numVars (numInputs + 1) ≤ numVarsPadded numVars numInputs := le_nextPowerOfTwo _

/-- The entries after the padding. -/
def paddedEntries (numCons numVars numInputs : ℕ) (tups : List (ℕ × ℕ × F)) :
    List (SparseMatEntry F) :=
  tups.map (moveEntry numVars numInputs) ++ paddingEntries numCons numVars tups.length

variable {numCons numVars numInputs : ℕ}

variable {tups : List (ℕ × ℕ × F)}

theorem bytesToScalar_eq (h : ∀ tup ∈ tups, tup.1 < numCons ∧ tup.2.1 < numVars + 1 + numInputs) :
    bytesToScalar numCons numVars numInputs tups =
      .ok (paddedEntries numCons numVars numInputs tups) := by
  refine bind_eq_ok.mpr ⟨(), forM_eq_ok.mpr fun tup htup => ?_, rfl⟩
  obtain ⟨hrow, hcol⟩ := h tup htup
  exact bind_eq_ok.mpr ⟨(), failIf_eq_ok.mpr (Nat.not_le.mpr hrow),
    failIf_eq_ok.mpr (Nat.not_le.mpr hcol)⟩

/-- The shape that `Instance::new` makes of entries in range. -/
def paddedInstance (numCons numVars numInputs : ℕ) (A B C : List (ℕ × ℕ × F)) : R1CSInstance F :=
  let numVarsX := Nat.clog 2 (numConsPadded numCons)
  let numVarsY := Nat.clog 2 (2 * numVarsPadded numVars numInputs)
  { numCons := numConsPadded numCons
    numVars := numVarsPadded numVars numInputs
    numInputs := numInputs
    A := ⟨numVarsX, numVarsY, paddedEntries numCons numVars numInputs A⟩
    B := ⟨numVarsX, numVarsY, paddedEntries numCons numVars numInputs B⟩
    C := ⟨numVarsX, numVarsY, paddedEntries numCons numVars numInputs C⟩ }

variable {A B C : List (ℕ × ℕ × F)}

/-- **`Instance::new`** returns on entries in range. -/
theorem instanceNew_eq (hA : ∀ tup ∈ A, tup.1 < numCons ∧ tup.2.1 < numVars + 1 + numInputs)
    (hB : ∀ tup ∈ B, tup.1 < numCons ∧ tup.2.1 < numVars + 1 + numInputs)
    (hC : ∀ tup ∈ C, tup.1 < numCons ∧ tup.2.1 < numVars + 1 + numInputs) :
    Instance.new numCons numVars numInputs A B C =
      .ok (paddedInstance numCons numVars numInputs A B C) := by
  have hvars := le_numVarsPadded numVars numInputs
  have hcons := numConsPadded_pos numCons
  refine bind_eq_ok.mpr ⟨_, bytesToScalar_eq hA, bind_eq_ok.mpr ⟨_, bytesToScalar_eq hB,
    bind_eq_ok.mpr ⟨_, bytesToScalar_eq hC, ?_⟩⟩⟩
  refine bind_eq_ok.mpr ⟨(), assert_eq_ok.mpr (numConsPadded_power numCons), bind_eq_ok.mpr ⟨(),
    assert_eq_ok.mpr (nextPowerOfTwo_idem _), bind_eq_ok.mpr ⟨(), assert_eq_ok.mpr ?_, ?_⟩⟩⟩
  · omega
  · exact bind_eq_ok.mpr ⟨_, log2_eq_ok.mpr ⟨hcons.ne', rfl⟩, bind_eq_ok.mpr ⟨_,
      log2_eq_ok.mpr ⟨by omega, rfl⟩, rfl⟩⟩

/-- The padded entries lie in the padded matrix. -/
theorem paddedEntries_inRange
    (h : ∀ tup ∈ tups, tup.1 < numCons ∧ tup.2.1 < numVars + 1 + numInputs) (numVarsX numVarsY : ℕ) :
    SparseMatPolynomial.InRange ⟨numVarsX, numVarsY, paddedEntries numCons numVars numInputs tups⟩
      (numConsPadded numCons) (numVarsPadded numVars numInputs + numInputs + 1) := by
  have hcons := le_numConsPadded numCons
  have hvars := le_numVarsPadded numVars numInputs
  intro e he
  rcases List.mem_append.mp he with he | he
  · obtain ⟨tup, htup, rfl⟩ := List.mem_map.mp he
    obtain ⟨hrow, hcol⟩ := h tup htup
    unfold moveEntry
    split_ifs with hmove
    · refine ⟨hrow.trans_le hcons, ?_⟩
      show tup.2.1 + numVarsPadded numVars numInputs - numVars < _
      omega
    · refine ⟨hrow.trans_le hcons, ?_⟩
      show tup.2.1 < _
      omega
  · unfold paddingEntries at he
    split_ifs at he with hfew
    · obtain ⟨i, hi, rfl⟩ := List.mem_map.mp he
      obtain ⟨hge, hlt⟩ := List.mem_range'_1.mp hi
      constructor
      · show i < _
        omega
      · show numVars < _
        omega
    · cases he

theorem paddedInstance_inRange (hA : ∀ tup ∈ A, tup.1 < numCons ∧ tup.2.1 < numVars + 1 + numInputs)
    (hB : ∀ tup ∈ B, tup.1 < numCons ∧ tup.2.1 < numVars + 1 + numInputs)
    (hC : ∀ tup ∈ C, tup.1 < numCons ∧ tup.2.1 < numVars + 1 + numInputs) :
    (paddedInstance numCons numVars numInputs A B C).InRange where
  A := paddedEntries_inRange hA _ _
  B := paddedEntries_inRange hB _ _
  C := paddedEntries_inRange hC _ _

end Instances

end NexusVm.Spartan
