import NexusVm.Nova.Circuits.StepCircuit

/-!
# Public parameters

`nova/src/circuits/nova/public_params.rs`, and how a circuit becomes a shape: synthesis in setup
mode fixes the matrices, synthesis by the prover the assignment.
-/

namespace NexusVm.Nova.Circuits

open R1cs Cyclefold

section Shapes

variable {F C PP : Type} [Field F] [AddCommGroup C] [Module F C]

/-- All rows hold on an assignment. -/
def RowsHold (shape : R1CSShape F) (z : List F) : Prop :=
  ∀ i < shape.numConstraints, shape.A.entry z i * shape.B.entry z i = shape.C.entry z i

/-- The shape of an augmented circuit: its one input variable `hash_input` occurs in the first
linear combination of one constraint, `enforce_constraint(hash_input, One, hash)`. -/
structure IsAugmented (shape : R1CSShape F) : Prop where
  numIo : shape.numIo = augmentedCircuitNumIo
  hash_B : 1 ∉ shape.B.indices
  hash_C : 1 ∉ shape.C.indices

/-- An augmented circuit with its shape.  The assignment of a synthesis satisfies the rows exactly
if the constraints hold, and each assignment that satisfies the rows gives values to the
variables. -/
structure Arithmetization (F In : Type) [Field F] (Valid : In → Prop) (holds : In → F → Prop) where
  shape : R1CSShape F
  isAugmented : IsAugmented shape
  /-- `witness_assignment` after a synthesis. -/
  witness : In → List F
  length_witness : ∀ input, Valid input → (witness input).length = shape.numVars
  rows_iff : ∀ input x, Valid input → (RowsHold shape ([1, x] ++ witness input) ↔ holds input x)
  /-- The values that an assignment gives to the variables. -/
  decode : List F → In
  decode_holds : ∀ x W, W.length = shape.numVars → RowsHold shape ([1, x] ++ W) →
    Valid (decode W) ∧ holds (decode W) x

end Shapes

section Synthesis

variable {F C PP In : Type} [Field F] [AddCommGroup C] [Module F C] {Valid : In → Prop}
  {holds : In → F → Prop}

/-- The instance of a synthesis is satisfied exactly if the constraints hold. -/
theorem Arithmetization.satisfied_iff (system : Arithmetization F In Valid holds)
    (S : CommitmentScheme F C PP) (pp : PP) {input : In} (hvalid : Valid input) (x : F) :
    Satisfied S system.shape ⟨S.commit pp (system.witness input), [1, x]⟩ ⟨system.witness input⟩
      pp ↔ holds input x := by
  rw [← system.rows_iff input x hvalid]
  constructor
  · intro h
    exact h.rows
  · intro h
    constructor
    · exact system.length_witness input hvalid
    · exact system.isAugmented.numIo.symm
    · exact h
    · rfl

/-- A satisfied instance that starts with one gives values with which the constraints hold. -/
theorem Arithmetization.holds_decode (system : Arithmetization F In Valid holds)
    {S : CommitmentScheme F C PP} {pp : PP} {u : R1CSInstance F C} {w : R1CSWitness F}
    (h : Satisfied S system.shape u w pp) (hone : u.X.head? = some 1) :
    Valid (system.decode w.W) ∧ holds (system.decode w.W) (u.X.getD 1 0) := by
  have hlen : u.X.length = 2 := h.lengthX.trans system.isAugmented.numIo
  have hX : u.X = [1, u.X.getD 1 0] := by
    obtain ⟨x, y, hxy⟩ := List.length_eq_two.mp hlen
    rw [hxy] at hone ⊢
    rw [List.head?_cons, Option.some.injEq] at hone
    rw [hone]
    rfl
  have hrows := h.rows
  rw [hX] at hrows
  exact system.decode_holds _ w.W h.lengthW hrows

end Synthesis

/-- `PublicParams`; the secondary shape and the sponge belong to the setting. -/
structure PublicParams (F PP1 PP2 : Type) where
  shape : R1CSShape F
  pp : PP1
  pp_secondary : PP2
  digest : F

/-! ## Default pairs and two rows -/

section Defaults

variable {F C PP : Type} [Field F] [AddCommGroup C] [Module F C]

/-- `RelaxedR1CSInstance::new`. -/
def newInstance (shape : R1CSShape F) : RelaxedR1CSInstance F C :=
  ⟨0, 0, List.replicate shape.numIo 0⟩

/-- `RelaxedR1CSWitness::zero`. -/
def zeroWitness (shape : R1CSShape F) : RelaxedR1CSWitness F :=
  ⟨List.replicate shape.numVars 0, List.replicate shape.numConstraints 0⟩

omit [AddCommGroup C] [Module F C] in
/-- A matrix maps a vector to zero that vanishes at its columns. -/
theorem entry_eq_zero {M : SparseMatrix F} {z : List F} (h : ∀ j ∈ M.indices, z.getD j 0 = 0)
    (i : ℕ) : M.entry z i = 0 := by
  have hrow : ∀ lo hi, SparseMatrix.rowProduct (M.getRowUnchecked lo hi) z = 0 := by
    intro lo hi
    apply List.sum_eq_zero
    intro x hx
    obtain ⟨⟨val, col⟩, hmem, rfl⟩ := List.mem_map.mp hx
    have hcol : col ∈ M.indices :=
      (List.of_mem_zip (List.mem_of_mem_take (List.mem_of_mem_drop hmem))).2
    show val * z.getD col 0 = 0
    rw [h col hcol, mul_zero]
  have hall : ∀ x ∈ M.multiplyVecUnchecked z, x = 0 := by
    intro x hx
    obtain ⟨⟨lo, hi⟩, -, rfl⟩ := List.mem_map.mp hx
    exact hrow lo hi
  rw [SparseMatrix.entry, List.getD_eq_getElem?_getD]
  cases hget : (M.multiplyVecUnchecked z)[i]? with
  | none => rfl
  | some x => exact hall x (List.mem_of_getElem? hget)

/-- The default pair is satisfied. -/
theorem relaxedSatisfied_new (S : CommitmentScheme F C PP) (shape : R1CSShape F) (pp : PP) :
    RelaxedSatisfied S shape (newInstance shape) (zeroWitness shape) pp := by
  have hz : ∀ j, (List.replicate shape.numIo (0 : F) ++ List.replicate shape.numVars 0).getD j 0 =
      0 := by
    intro j
    rw [← List.replicate_add, List.getD_eq_getElem?_getD, List.getElem?_replicate]
    split_ifs <;> rfl
  constructor
  · exact List.length_replicate
  · exact List.length_replicate
  · exact List.length_replicate
  · intro i hi
    have hA : shape.A.entry
        (List.replicate shape.numIo 0 ++ List.replicate shape.numVars 0) i = 0 :=
      entry_eq_zero (fun j _ => hz j) i
    have hC : shape.C.entry
        (List.replicate shape.numIo 0 ++ List.replicate shape.numVars 0) i = 0 :=
      entry_eq_zero (fun j _ => hz j) i
    simp only [newInstance, zeroWitness]
    rw [hA, hC, zero_mul, mul_zero, zero_add, List.getD_replicate _ hi]
  · exact (commit_replicate_zero _).symm
  · exact (commit_replicate_zero _).symm

variable {shape : R1CSShape F}

/-- A matrix without the column of the hash maps a pair of zeros to zero. -/
theorem entry_degenerate {M : SparseMatrix F} (h : 1 ∉ M.indices) (x : F) (i : ℕ) :
    M.entry ([0, x] ++ List.replicate shape.numVars 0) i = 0 := by
  apply entry_eq_zero
  intro j hj
  match j with
  | 0 => rfl
  | 1 => exact absurd hj h
  | j + 2 =>
      show (List.replicate shape.numVars (0 : F)).getD j 0 = 0
      rw [List.getD_eq_getElem?_getD, List.getElem?_replicate]
      split_ifs <;> rfl

/-- **A degenerate pair.**  With a constant wire of zero, a zero witness satisfies an augmented
circuit together with any hash. -/
theorem satisfied_degenerate (h : IsAugmented shape) (S : CommitmentScheme F C PP) (pp : PP) (x : F) :
    Satisfied S shape ⟨0, [0, x]⟩ ⟨List.replicate shape.numVars 0⟩ pp := by
  constructor
  · exact List.length_replicate
  · exact h.numIo.symm
  · intro i _
    show shape.A.entry ([0, x] ++ List.replicate shape.numVars 0) i *
      shape.B.entry ([0, x] ++ List.replicate shape.numVars 0) i =
      shape.C.entry ([0, x] ++ List.replicate shape.numVars 0) i
    rw [entry_degenerate h.hash_B, entry_degenerate h.hash_C, mul_zero]
  · exact (commit_replicate_zero _).symm

/-- The same as a relaxed pair, with any hash. -/
theorem relaxedSatisfied_degenerate (h : IsAugmented shape) (S : CommitmentScheme F C PP) (pp : PP)
    (x : F) :
    RelaxedSatisfied S shape ⟨0, 0, [0, x]⟩ (zeroWitness shape) pp := by
  constructor
  · exact List.length_replicate
  · exact h.numIo.symm
  · exact List.length_replicate
  · intro i hi
    show shape.A.entry ([0, x] ++ List.replicate shape.numVars 0) i *
      shape.B.entry ([0, x] ++ List.replicate shape.numVars 0) i =
      0 * shape.C.entry ([0, x] ++ List.replicate shape.numVars 0) i +
        (List.replicate shape.numConstraints 0).getD i 0
    rw [entry_degenerate h.hash_B, mul_zero, zero_mul, zero_add, List.getD_replicate _ hi]
  · exact (commit_replicate_zero _).symm
  · exact (commit_replicate_zero _).symm

end Defaults

section Rows

variable (F : Type) [Field F]

/-- The rows `hash_input * One = hash` and `failure * One = 0`. -/
def outcomeRows : R1CSShape F where
  numConstraints := 2
  numVars := 2
  numIo := 2
  A := ⟨[1, 1], [1, 2], [0, 1, 2], 4⟩
  B := ⟨[1, 1], [0, 0], [0, 1, 2], 4⟩
  C := ⟨[1], [3], [0, 1, 1], 4⟩
  numIo_pos := Nat.two_pos
  dimsA := ⟨rfl, rfl, by simp, rfl, by simp, by simp⟩
  dimsB := ⟨rfl, rfl, by simp, rfl, by simp, by simp⟩
  dimsC := ⟨rfl, rfl, by simp, rfl, by simp, by simp⟩

theorem outcomeRows_isAugmented : IsAugmented (outcomeRows F) where
  numIo := rfl
  hash_B := by simp [outcomeRows]
  hash_C := by simp [outcomeRows]

variable {F}

theorem rowsHold_outcomeRows {x failure hash : F} :
    RowsHold (outcomeRows F) [1, x, failure, hash] ↔ x = hash ∧ failure = 0 := by
  constructor
  · intro h
    have h0 := h 0 Nat.two_pos
    have h1 := h 1 Nat.one_lt_two
    simp [outcomeRows, SparseMatrix.entry, SparseMatrix.multiplyVecUnchecked,
      SparseMatrix.rowProduct, SparseMatrix.getRowUnchecked] at h0 h1
    exact ⟨h0, h1⟩
  · rintro ⟨rfl, rfl⟩ i hi
    have hrow : i = 0 ∨ i = 1 := Nat.le_one_iff_eq_zero_or_eq_one.mp (Nat.lt_succ_iff.mp hi)
    rcases hrow with rfl | rfl
    · simp [outcomeRows, SparseMatrix.entry, SparseMatrix.multiplyVecUnchecked,
        SparseMatrix.rowProduct, SparseMatrix.getRowUnchecked]
    · simp [outcomeRows, SparseMatrix.entry, SparseMatrix.multiplyVecUnchecked,
        SparseMatrix.rowProduct, SparseMatrix.getRowUnchecked]

variable {In : Type} {Valid : In → Prop} {holds : In → F → Prop}

open Classical in
/-- Two rows are enough for a circuit with a known output, if every output can be reached. -/
noncomputable def outcomeArithmetization (output : In → F) (solve : F → In)
    (houtput : ∀ input x, holds input x → x = output input)
    (hsolve : ∀ x, Valid (solve x) ∧ holds (solve x) x) : Arithmetization F In Valid holds where
  shape := outcomeRows F
  isAugmented := outcomeRows_isAugmented F
  witness input := [if holds input (output input) then 0 else 1, output input]
  length_witness _ _ := rfl
  rows_iff input x _ := by
    show RowsHold (outcomeRows F) [1, x, _, _] ↔ _
    rw [rowsHold_outcomeRows]
    constructor
    · rintro ⟨rfl, hfailure⟩
      by_contra h
      rw [if_neg h] at hfailure
      exact one_ne_zero hfailure
    · intro h
      obtain rfl := houtput input x h
      exact ⟨rfl, if_pos h⟩
  decode W := solve (W.getD 1 0)
  decode_holds x W hlen hrows := by
    obtain ⟨failure, hash, rfl⟩ := List.length_eq_two.mp hlen
    obtain ⟨rfl, -⟩ := rowsHold_outcomeRows.mp hrows
    exact hsolve x

open Bn254 in
/-- Parameters with these rows. -/
def sumParams : PublicParams (ZMod fr) Unit Unit := ⟨outcomeRows _, (), (), 7⟩

end Rows

end NexusVm.Nova.Circuits
