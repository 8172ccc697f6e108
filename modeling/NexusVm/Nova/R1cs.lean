import NexusVm.Nova.Sparse
import NexusVm.Numerals
import Mathlib.Algebra.Field.ZMod

/-!
# Relaxed R1CS folding

`nova/src/r1cs/mod.rs`.  The curve group is a module over its scalar field, a
commitment scheme a linear map from vectors of each length.

Folding two satisfied pairs with any challenge gives a satisfied pair; a strict pair is folded as
the relaxed pair with scalar one and error zero.  Errors are about lengths only,
and equations between vectors are zipped as in the source, so a missing entry is no error there.
Hiding and binding of the commitments play no role and are not assumed.
-/

namespace NexusVm.Nova

/-- A commitment scheme that is linear in the committed vector.  Folding needs no more of
it. -/
structure CommitmentScheme (F C PP : Type) [Field F] [AddCommGroup C] [Module F C] where
  commit : PP → List F → C
  linear : ∀ pp (r : F) (as bs : List F), as.length = bs.length →
    commit pp (comb 1 r as bs) = commit pp as + r • commit pp bs

namespace R1cs

inductive Error
  | constraintNumberMismatch
  | inputLengthMismatch
  | invalidWitnessLength
  | invalidInputLength
  | notSatisfied
deriving DecidableEq

/-- The shape of the matrices, as `R1CSShape::new` builds it. -/
structure R1CSShape (F : Type) where
  numConstraints : ℕ
  numVars : ℕ
  numIo : ℕ
  A : SparseMatrix F
  B : SparseMatrix F
  C : SparseMatrix F
  numIo_pos : 0 < numIo
  dimsA : A.HasDims numConstraints (numIo + numVars)
  dimsB : B.HasDims numConstraints (numIo + numVars)
  dimsC : C.HasDims numConstraints (numIo + numVars)

namespace R1CSShape

variable {F : Type}

/-- The first entry that is out of range decides the error. -/
def validate (numConstraints numVars numIo : ℕ) (M : List (List (F × ℕ))) : Run Error Unit :=
  M.zipIdx.forM fun (row, i) =>
    row.forM fun (_, j) => do
      Run.failIf (numConstraints ≤ i) .constraintNumberMismatch
      Run.failIf (numIo + numVars ≤ j) .inputLengthMismatch

theorem columns_of_validate {numConstraints numVars numIo : ℕ} {M : List (List (F × ℕ))}
    (h : validate numConstraints numVars numIo M = .ok ()) :
    ∀ row ∈ M, ∀ e ∈ row, e.2 < numIo + numVars := by
  intro row hrow e he
  obtain ⟨i, hi, rfl⟩ := List.mem_iff_getElem.mp hrow
  have hmem : (M[i], i) ∈ M.zipIdx := by
    rw [List.mk_mem_zipIdx_iff_getElem?]
    exact List.getElem?_eq_getElem hi
  have hbody := forM_eq_ok.mp (forM_eq_ok.mp h _ hmem) _ he
  simp only [bind_eq_ok, failIf_eq_ok] at hbody
  obtain ⟨_, -, hlt⟩ := hbody
  omega

/-- Create a shape from explicitly specified matrices. -/
def new (numConstraints numVars numIo : ℕ) (A B C : List (List (F × ℕ))) :
    Run Error (R1CSShape F) :=
  if hio : numIo = 0 then .error (.error .invalidInputLength)
  else
    match hA : validate numConstraints numVars numIo A,
      hB : validate numConstraints numVars numIo B,
      hC : validate numConstraints numVars numIo C with
    | .error e, _, _ | .ok _, .error e, _ | .ok _, .ok _, .error e => .error e
    | .ok _, .ok _, .ok _ =>
        match hA' : SparseMatrix.new A numConstraints (numIo + numVars),
          hB' : SparseMatrix.new B numConstraints (numIo + numVars),
          hC' : SparseMatrix.new C numConstraints (numIo + numVars) with
        | .error e, _, _ | .ok _, .error e, _ | .ok _, .ok _, .error e => .error e
        | .ok A', .ok B', .ok C' =>
            .ok
              { numConstraints := numConstraints, numVars := numVars, numIo := numIo
                A := A', B := B', C := C', numIo_pos := Nat.pos_of_ne_zero hio
                dimsA := SparseMatrix.hasDims_new hA' (columns_of_validate hA)
                dimsB := SparseMatrix.hasDims_new hB' (columns_of_validate hB)
                dimsC := SparseMatrix.hasDims_new hC' (columns_of_validate hC) }

end R1CSShape

section Instances

variable (F C : Type)

structure R1CSWitness where
  W : List F
deriving DecidableEq

structure R1CSInstance where
  commitment_W : C
  X : List F
deriving DecidableEq

structure RelaxedR1CSWitness where
  W : List F
  E : List F
deriving DecidableEq

structure RelaxedR1CSInstance where
  commitment_W : C
  commitment_E : C
  X : List F
deriving DecidableEq

end Instances

section Satisfaction

variable {F C PP : Type} [Field F] [DecidableEq F] [AddCommGroup C] [Module F C] [DecidableEq C]

/-- A strict instance with its witness satisfies the constraints. -/
def R1CSShape.isSatisfied (S : CommitmentScheme F C PP) (shape : R1CSShape F)
    (U : R1CSInstance F C) (W : R1CSWitness F) (pp : PP) : Run Error Unit := do
  Run.assert (W.W.length = shape.numVars)
  Run.assert (U.X.length = shape.numIo)
  let z := U.X ++ W.W
  let Az ← shape.A.multiplyVec z
  let Bz ← shape.B.multiplyVec z
  let Cz ← shape.C.multiplyVec z
  Run.failIf ((List.range shape.numConstraints).any fun idx =>
    Az.getD idx 0 * Bz.getD idx 0 ≠ Cz.getD idx 0) .notSatisfied
  Run.failIf (U.commitment_W ≠ S.commit pp W.W) .notSatisfied

/-- A relaxed instance with its witness satisfies the constraints. -/
def R1CSShape.isRelaxedSatisfied (S : CommitmentScheme F C PP) (shape : R1CSShape F)
    (U : RelaxedR1CSInstance F C) (W : RelaxedR1CSWitness F) (pp : PP) : Run Error Unit := do
  Run.assert (W.W.length = shape.numVars)
  Run.assert (U.X.length = shape.numIo)
  Run.assert (W.E.length = shape.numConstraints)
  let z := U.X ++ W.W
  let Az ← shape.A.multiplyVec z
  let Bz ← shape.B.multiplyVec z
  let Cz ← shape.C.multiplyVec z
  -- a shape has at least one public input
  let u := U.X.getD 0 0
  Run.failIf ((List.range shape.numConstraints).any fun idx =>
    Az.getD idx 0 * Bz.getD idx 0 ≠ u * Cz.getD idx 0 + W.E.getD idx 0) .notSatisfied
  Run.failIf (U.commitment_W ≠ S.commit pp W.W ∨ U.commitment_E ≠ S.commit pp W.E) .notSatisfied

end Satisfaction

section Folding

variable {F C PP : Type} [Field F] [AddCommGroup C] [Module F C]

/-- Folds an incoming strict witness into the current one. -/
def RelaxedR1CSWitness.fold (W₁ : RelaxedR1CSWitness F) (W₂ : R1CSWitness F) (T : List F) (r : F) :
    Run Error (RelaxedR1CSWitness F) := do
  Run.failIf (W₁.W.length ≠ W₂.W.length) .invalidWitnessLength
  .ok
    { W := List.zipWith (fun a b => a + r * b) W₁.W W₂.W
      E := List.zipWith (fun a b => a + r * b) W₁.E T }

/-- Folds an incoming relaxed witness into the current one. -/
def RelaxedR1CSWitness.foldWithRelaxed (W₁ W₂ : RelaxedR1CSWitness F) (T : List F) (r : F) :
    Run Error (RelaxedR1CSWitness F) := do
  Run.failIf (W₁.W.length ≠ W₂.W.length ∨ W₁.E.length ≠ W₂.E.length) .invalidWitnessLength
  .ok
    { W := List.zipWith (fun a b => a + r * b) W₁.W W₂.W
      E := List.zipWith (fun e t => e.1 + r * t + r ^ 2 * e.2) (W₁.E.zip W₂.E) T }

/-- Folds an incoming strict instance into the current one. -/
def RelaxedR1CSInstance.fold (U₁ : RelaxedR1CSInstance F C) (U₂ : R1CSInstance F C) (comm_T : C)
    (r : F) : RelaxedR1CSInstance F C :=
  { commitment_W := U₁.commitment_W + r • U₂.commitment_W
    commitment_E := U₁.commitment_E + r • comm_T
    X := List.zipWith (fun a b => a + r * b) U₁.X U₂.X }

/-- Folds an incoming relaxed instance into the current one. -/
def RelaxedR1CSInstance.foldWithRelaxed (U₁ U₂ : RelaxedR1CSInstance F C) (comm_T : C) (r : F) :
    RelaxedR1CSInstance F C :=
  { commitment_W := U₁.commitment_W + r • U₂.commitment_W
    commitment_E := U₁.commitment_E + r • comm_T + r ^ 2 • U₂.commitment_E
    X := List.zipWith (fun a b => a + r * b) U₁.X U₂.X }

/-- The cross term of a relaxed and a strict pair, and its commitment. -/
def commit_T (S : CommitmentScheme F C PP) (shape : R1CSShape F) (pp : PP)
    (U₁ : RelaxedR1CSInstance F C) (W₁ : RelaxedR1CSWitness F) (U₂ : R1CSInstance F C)
    (W₂ : R1CSWitness F) : Run Error (List F × C) := do
  let z1 := U₁.X ++ W₁.W
  let Az1 ← shape.A.multiplyVec z1
  let Bz1 ← shape.B.multiplyVec z1
  let Cz1 ← shape.C.multiplyVec z1
  let z2 := U₂.X ++ W₂.W
  let Az2 ← shape.A.multiplyVec z2
  let Bz2 ← shape.B.multiplyVec z2
  let Cz2 ← shape.C.multiplyVec z2
  let Az1_Bz2 := List.zipWith (· * ·) Az1 Bz2
  let Az2_Bz1 := List.zipWith (· * ·) Az2 Bz1
  Run.assert (0 < U₁.X.length)
  let u1 := U₁.X.getD 0 0
  let u1_Cz2 := Cz2.map (u1 * ·)
  let T := (List.range Az1_Bz2.length).map fun i =>
    Az1_Bz2.getD i 0 + Az2_Bz1.getD i 0 - u1_Cz2.getD i 0 - Cz1.getD i 0
  .ok (T, S.commit pp T)

/-- The cross term of two relaxed pairs, and its commitment. -/
def commit_T_with_relaxed (S : CommitmentScheme F C PP) (shape : R1CSShape F) (pp : PP)
    (U₁ : RelaxedR1CSInstance F C) (W₁ : RelaxedR1CSWitness F) (U₂ : RelaxedR1CSInstance F C)
    (W₂ : RelaxedR1CSWitness F) : Run Error (List F × C) := do
  let z1 := U₁.X ++ W₁.W
  let Az1 ← shape.A.multiplyVec z1
  let Bz1 ← shape.B.multiplyVec z1
  let Cz1 ← shape.C.multiplyVec z1
  let z2 := U₂.X ++ W₂.W
  let Az2 ← shape.A.multiplyVec z2
  let Bz2 ← shape.B.multiplyVec z2
  let Cz2 ← shape.C.multiplyVec z2
  let Az1_Bz2 := List.zipWith (· * ·) Az1 Bz2
  let Az2_Bz1 := List.zipWith (· * ·) Az2 Bz1
  Run.assert (0 < U₁.X.length)
  Run.assert (0 < U₂.X.length)
  let u1 := U₁.X.getD 0 0
  let u2 := U₂.X.getD 0 0
  let u1_Cz2 := Cz2.map (u1 * ·)
  let u2_Cz1 := Cz1.map (u2 * ·)
  let T := (List.range Az1_Bz2.length).map fun i =>
    Az1_Bz2.getD i 0 + Az2_Bz1.getD i 0 - u1_Cz2.getD i 0 - u2_Cz1.getD i 0
  .ok (T, S.commit pp T)

variable [DecidableEq F] [DecidableEq C] {S : CommitmentScheme F C PP} {shape : R1CSShape F}
  {pp : PP}

/-- What a satisfied strict pair fulfills. -/
structure Satisfied (S : CommitmentScheme F C PP) (shape : R1CSShape F) (U : R1CSInstance F C)
    (W : R1CSWitness F) (pp : PP) : Prop where
  lengthW : W.W.length = shape.numVars
  lengthX : U.X.length = shape.numIo
  rows : ∀ i < shape.numConstraints,
    shape.A.entry (U.X ++ W.W) i * shape.B.entry (U.X ++ W.W) i = shape.C.entry (U.X ++ W.W) i
  commitW : U.commitment_W = S.commit pp W.W

/-- What a satisfied relaxed pair fulfills. -/
structure RelaxedSatisfied (S : CommitmentScheme F C PP) (shape : R1CSShape F)
    (U : RelaxedR1CSInstance F C) (W : RelaxedR1CSWitness F) (pp : PP) : Prop where
  lengthW : W.W.length = shape.numVars
  lengthX : U.X.length = shape.numIo
  lengthE : W.E.length = shape.numConstraints
  rows : ∀ i < shape.numConstraints,
    shape.A.entry (U.X ++ W.W) i * shape.B.entry (U.X ++ W.W) i =
      U.X.getD 0 0 * shape.C.entry (U.X ++ W.W) i + W.E.getD i 0
  commitW : U.commitment_W = S.commit pp W.W
  commitE : U.commitment_E = S.commit pp W.E

theorem isSatisfied_iff {U : R1CSInstance F C} {W : R1CSWitness F} :
    shape.isSatisfied S U W pp = .ok () ↔ Satisfied S shape U W pp := by
  simp only [R1CSShape.isSatisfied, bind_eq_ok, assert_eq_ok, failIf_eq_ok, List.any_eq_true,
    List.mem_range, decide_eq_true_eq, not_exists, not_and, not_not, exists_const]
  constructor
  · rintro ⟨hW, hX, Az, hA, Bz, hB, Cz, hC, hrows, hcommit⟩
    obtain ⟨-, rfl⟩ := SparseMatrix.multiplyVec_eq_ok.mp hA
    obtain ⟨-, rfl⟩ := SparseMatrix.multiplyVec_eq_ok.mp hB
    obtain ⟨-, rfl⟩ := SparseMatrix.multiplyVec_eq_ok.mp hC
    exact ⟨hW, hX, hrows, hcommit⟩
  · intro h
    have hz : (U.X ++ W.W).length = shape.numIo + shape.numVars := by
      rw [List.length_append, h.lengthX, h.lengthW]
    exact ⟨h.lengthW, h.lengthX, _, SparseMatrix.multiplyVec_of_dims shape.dimsA hz, _,
      SparseMatrix.multiplyVec_of_dims shape.dimsB hz, _,
      SparseMatrix.multiplyVec_of_dims shape.dimsC hz, h.rows, h.commitW⟩

theorem isRelaxedSatisfied_iff {U : RelaxedR1CSInstance F C} {W : RelaxedR1CSWitness F} :
    shape.isRelaxedSatisfied S U W pp = .ok () ↔ RelaxedSatisfied S shape U W pp := by
  simp only [R1CSShape.isRelaxedSatisfied, bind_eq_ok, assert_eq_ok, failIf_eq_ok,
    List.any_eq_true, List.mem_range, decide_eq_true_eq, not_exists, not_and, not_not, not_or,
    exists_const]
  constructor
  · rintro ⟨hW, hX, hE, Az, hA, Bz, hB, Cz, hC, hrows, hcommitW, hcommitE⟩
    obtain ⟨-, rfl⟩ := SparseMatrix.multiplyVec_eq_ok.mp hA
    obtain ⟨-, rfl⟩ := SparseMatrix.multiplyVec_eq_ok.mp hB
    obtain ⟨-, rfl⟩ := SparseMatrix.multiplyVec_eq_ok.mp hC
    exact ⟨hW, hX, hE, hrows, hcommitW, hcommitE⟩
  · intro h
    have hz : (U.X ++ W.W).length = shape.numIo + shape.numVars := by
      rw [List.length_append, h.lengthX, h.lengthW]
    exact ⟨h.lengthW, h.lengthX, h.lengthE, _, SparseMatrix.multiplyVec_of_dims shape.dimsA hz, _,
      SparseMatrix.multiplyVec_of_dims shape.dimsB hz, _,
      SparseMatrix.multiplyVec_of_dims shape.dimsC hz, h.rows, h.commitW, h.commitE⟩

end Folding

/-! ## Cross terms and folding -/

section CrossTerms

variable {F C PP : Type} [Field F] [AddCommGroup C] [Module F C] {S : CommitmentScheme F C PP}
  {shape : R1CSShape F} {pp : PP}

/-- An entry of the cross term of two vectors with leading entries `u1` and `u2`. -/
def crossEntry (shape : R1CSShape F) (z1 z2 : List F) (u1 u2 : F) (i : ℕ) : F :=
  shape.A.entry z1 i * shape.B.entry z2 i + shape.A.entry z2 i * shape.B.entry z1 i -
    u1 * shape.C.entry z2 i - u2 * shape.C.entry z1 i

/-- The cross term. -/
def crossTerm (shape : R1CSShape F) (z1 z2 : List F) (u1 u2 : F) : List F :=
  (List.range shape.numConstraints).map (crossEntry shape z1 z2 u1 u2)

theorem length_crossTerm (z1 z2 : List F) (u1 u2 : F) :
    (crossTerm shape z1 z2 u1 u2).length = shape.numConstraints := by
  rw [crossTerm, List.length_map, List.length_range]

theorem getD_crossTerm (z1 z2 : List F) (u1 u2 : F) {i : ℕ} (hi : i < shape.numConstraints) :
    (crossTerm shape z1 z2 u1 u2).getD i 0 = crossEntry shape z1 z2 u1 u2 i := by
  rw [crossTerm, List.getD_eq_getElem _ _ (by simpa using hi), List.getElem_map,
    List.getElem_range]

/-- The products of a vector of the right length. -/
theorem multiplyVec_eq {M : SparseMatrix F} (h : M.HasDims shape.numConstraints
    (shape.numIo + shape.numVars)) {X W : List F} (hX : X.length = shape.numIo)
    (hW : W.length = shape.numVars) :
    (M.multiplyVec (X ++ W) : Run Error (List F)) = .ok (M.multiplyVecUnchecked (X ++ W)) :=
  SparseMatrix.multiplyVec_of_dims h (by rw [List.length_append, hX, hW])

/-- `commit_T_with_relaxed` computes the cross term. -/
theorem commit_T_with_relaxed_eq {U₁ U₂ : RelaxedR1CSInstance F C} {W₁ W₂ : RelaxedR1CSWitness F}
    (hX₁ : U₁.X.length = shape.numIo) (hW₁ : W₁.W.length = shape.numVars)
    (hX₂ : U₂.X.length = shape.numIo) (hW₂ : W₂.W.length = shape.numVars) :
    commit_T_with_relaxed S shape pp U₁ W₁ U₂ W₂ =
      .ok (crossTerm shape (U₁.X ++ W₁.W) (U₂.X ++ W₂.W) (U₁.X.getD 0 0) (U₂.X.getD 0 0),
        S.commit pp (crossTerm shape (U₁.X ++ W₁.W) (U₂.X ++ W₂.W) (U₁.X.getD 0 0)
          (U₂.X.getD 0 0))) := by
  have hio := shape.numIo_pos
  have hlen : ∀ {M N : SparseMatrix F} (u v : List F), M.HasDims shape.numConstraints
      (shape.numIo + shape.numVars) → N.HasDims shape.numConstraints
      (shape.numIo + shape.numVars) →
      (M.multiplyVecUnchecked u).length = (N.multiplyVecUnchecked v).length := by
    intro M N u v hM hN
    rw [SparseMatrix.length_multiplyVecUnchecked hM, SparseMatrix.length_multiplyVecUnchecked hN]
  have hT : ∀ i, (List.zipWith (· * ·) (shape.A.multiplyVecUnchecked (U₁.X ++ W₁.W))
        (shape.B.multiplyVecUnchecked (U₂.X ++ W₂.W))).getD i 0 +
      (List.zipWith (· * ·) (shape.A.multiplyVecUnchecked (U₂.X ++ W₂.W))
        (shape.B.multiplyVecUnchecked (U₁.X ++ W₁.W))).getD i 0 -
      ((shape.C.multiplyVecUnchecked (U₂.X ++ W₂.W)).map (U₁.X.getD 0 0 * ·)).getD i 0 -
      ((shape.C.multiplyVecUnchecked (U₁.X ++ W₁.W)).map (U₂.X.getD 0 0 * ·)).getD i 0 =
      crossEntry shape (U₁.X ++ W₁.W) (U₂.X ++ W₂.W) (U₁.X.getD 0 0) (U₂.X.getD 0 0) i := by
    intro i
    rw [getD_zipWith (mul_zero 0) (hlen _ _ shape.dimsA shape.dimsB),
      getD_zipWith (mul_zero 0) (hlen _ _ shape.dimsA shape.dimsB), getD_map_mul, getD_map_mul]
    rfl
  have hm : (List.zipWith (· * ·) (shape.A.multiplyVecUnchecked (U₁.X ++ W₁.W))
      (shape.B.multiplyVecUnchecked (U₂.X ++ W₂.W))).length = shape.numConstraints := by
    rw [List.length_zipWith, SparseMatrix.length_multiplyVecUnchecked shape.dimsA,
      SparseMatrix.length_multiplyVecUnchecked shape.dimsB, min_self]
  have hx₁ : (Run.assert (0 < U₁.X.length) : Run Error Unit) = .ok () :=
    assert_eq_ok.mpr (hX₁ ▸ hio)
  have hx₂ : (Run.assert (0 < U₂.X.length) : Run Error Unit) = .ok () :=
    assert_eq_ok.mpr (hX₂ ▸ hio)
  simp only [commit_T_with_relaxed, multiplyVec_eq shape.dimsA hX₁ hW₁,
    multiplyVec_eq shape.dimsB hX₁ hW₁, multiplyVec_eq shape.dimsC hX₁ hW₁,
    multiplyVec_eq shape.dimsA hX₂ hW₂, multiplyVec_eq shape.dimsB hX₂ hW₂,
    multiplyVec_eq shape.dimsC hX₂ hW₂, hx₁, hx₂, hm, hT, bind, Except.bind]
  rfl

/-- By how much a row is violated. -/
def residual (shape : R1CSShape F) (X W E : List F) (i : ℕ) : F :=
  shape.A.entry (X ++ W) i * shape.B.entry (X ++ W) i -
    (X.getD 0 0 * shape.C.entry (X ++ W) i + E.getD i 0)

theorem RelaxedSatisfied.residual_eq {U : RelaxedR1CSInstance F C} {W : RelaxedR1CSWitness F}
    (h : RelaxedSatisfied S shape U W pp) {i : ℕ} (hi : i < shape.numConstraints) :
    residual shape U.X W.W W.E i = 0 :=
  sub_eq_zero.mpr (h.rows i hi)

/-- The folded error vector. -/
def foldE (E₁ E₂ T : List F) (r : F) : List F :=
  List.zipWith (fun e t => e.1 + r * t + r ^ 2 * e.2) (E₁.zip E₂) T

variable {E₁ E₂ T : List F}

theorem foldE_eq_comb (hE : E₁.length = E₂.length) (hT : T.length = E₁.length) (r : F) :
    foldE E₁ E₂ T r = comb 1 (r ^ 2) (comb 1 r E₁ T) E₂ := by
  unfold foldE comb
  induction E₁ generalizing E₂ T with
  | nil => rfl
  | cons e E₁ ih =>
      cases E₂ with
      | nil => cases hE
      | cons e' E₂ =>
          cases T with
          | nil => cases hT
          | cons t T =>
              simp only [List.zip_cons_cons, List.zipWith_cons_cons]
              rw [ih (by simpa using hE) (by simpa using hT)]
              simp

/-- **A row of the fold** is a quadratic in the challenge: the violations of the
two pairs, and between them the error of `T`. -/
theorem residual_fold {X₁ X₂ W₁ W₂ E₁ E₂ T : List F} (hX : X₁.length = X₂.length)
    (hW : W₁.length = W₂.length) (hE : E₁.length = E₂.length) (hT : T.length = E₁.length) (r : F)
    (i : ℕ) :
    residual shape (comb 1 r X₁ X₂) (comb 1 r W₁ W₂) (foldE E₁ E₂ T r) i =
      residual shape X₁ W₁ E₁ i +
        r * (crossEntry shape (X₁ ++ W₁) (X₂ ++ W₂) (X₁.getD 0 0) (X₂.getD 0 0) i - T.getD i 0) +
        r * r * residual shape X₂ W₂ E₂ i := by
  have hz : (X₁ ++ W₁).length = (X₂ ++ W₂).length := by
    rw [List.length_append, List.length_append, hX, hW]
  have hET : (comb 1 r E₁ T).length = E₂.length := by
    rw [length_comb_of_eq hT.symm, hE]
  rw [residual, ← comb_append hX, SparseMatrix.entry_comb _ hz, SparseMatrix.entry_comb _ hz,
    SparseMatrix.entry_comb _ hz, getD_comb hX, foldE_eq_comb hE hT, getD_comb hET,
    getD_comb hT.symm, residual, residual, crossEntry]
  ring

theorem commit_foldE (hE : E₁.length = E₂.length) (hT : T.length = E₁.length) (r : F) :
    S.commit pp (foldE E₁ E₂ T r) =
      S.commit pp E₁ + r • S.commit pp T + r ^ 2 • S.commit pp E₂ := by
  have hET : (comb 1 r E₁ T).length = E₂.length := by
    rw [length_comb_of_eq hT.symm, hE]
  rw [foldE_eq_comb hE hT, S.linear _ _ _ _ hET, S.linear _ _ _ _ hT.symm]

theorem length_foldE (hE : E₁.length = E₂.length) (hT : T.length = E₁.length) (r : F) :
    (foldE E₁ E₂ T r).length = E₁.length := by
  rw [foldE_eq_comb hE hT, length_comb_of_eq, length_comb_of_eq hT.symm]
  rw [length_comb_of_eq hT.symm, hE]

variable {T : List F}

/-- The folded witness. -/
theorem foldWithRelaxed_eq_ok {W₁ W₂ W : RelaxedR1CSWitness F} {r : F} :
    W₁.foldWithRelaxed W₂ T r = .ok W ↔ W₁.W.length = W₂.W.length ∧ W₁.E.length = W₂.E.length ∧
      W = ⟨comb 1 r W₁.W W₂.W, foldE W₁.E W₂.E T r⟩ := by
  simp only [RelaxedR1CSWitness.foldWithRelaxed, bind_eq_ok, failIf_eq_ok, exists_const, not_or,
    not_not, Except.ok.injEq, zipWith_fold, and_assoc, foldE]
  constructor
  · rintro ⟨hW, hE, rfl⟩
    exact ⟨hW, hE, rfl⟩
  · rintro ⟨hW, hE, rfl⟩
    exact ⟨hW, hE, rfl⟩

variable {W₁ W₂ : RelaxedR1CSWitness F} {U₁ U₂ : RelaxedR1CSInstance F C}

/-- **A fold of satisfied pairs is satisfied**, with their cross term. -/
theorem RelaxedSatisfied.fold (h₁ : RelaxedSatisfied S shape U₁ W₁ pp)
    (h₂ : RelaxedSatisfied S shape U₂ W₂ pp)
    (hT : T = crossTerm shape (U₁.X ++ W₁.W) (U₂.X ++ W₂.W) (U₁.X.getD 0 0) (U₂.X.getD 0 0)) (r : F) :
    RelaxedSatisfied S shape (U₁.foldWithRelaxed U₂ (S.commit pp T) r)
      ⟨comb 1 r W₁.W W₂.W, foldE W₁.E W₂.E T r⟩ pp := by
  have hX : U₁.X.length = U₂.X.length := h₁.lengthX.trans h₂.lengthX.symm
  have hW : W₁.W.length = W₂.W.length := h₁.lengthW.trans h₂.lengthW.symm
  have hE : W₁.E.length = W₂.E.length := h₁.lengthE.trans h₂.lengthE.symm
  have hTE : T.length = W₁.E.length := by rw [hT, length_crossTerm, h₁.lengthE]
  have hfoldX : (U₁.foldWithRelaxed U₂ (S.commit pp T) r).X = comb 1 r U₁.X U₂.X :=
    zipWith_fold r _ _
  constructor
  · exact (length_comb_of_eq hW 1 r).trans h₁.lengthW
  · rw [hfoldX, length_comb_of_eq hX, h₁.lengthX]
  · exact (length_foldE hE hTE r).trans h₁.lengthE
  · intro i hi
    rw [hfoldX]
    apply sub_eq_zero.mp
    have hrow : residual shape (comb 1 r U₁.X U₂.X) _ _ i = _ := residual_fold hX hW hE hTE r i
    rw [h₁.residual_eq hi, h₂.residual_eq hi, hT, getD_crossTerm _ _ _ _ hi, sub_self] at hrow
    rw [hT]
    simpa [residual] using hrow
  · show U₁.commitment_W + r • U₂.commitment_W = _
    rw [S.linear _ _ _ _ hW, h₁.commitW, h₂.commitW]
  · show U₁.commitment_E + r • S.commit pp T + r ^ 2 • U₂.commitment_E = _
    rw [commit_foldE hE hTE, h₁.commitE, h₂.commitE]

/-- **Three satisfied folds** determine both pairs and the cross term. -/
theorem satisfied_of_folds {comm_T : C} (hX : U₁.X.length = U₂.X.length)
    (hW : W₁.W.length = W₂.W.length) (hE : W₁.E.length = W₂.E.length) (hT : T.length = W₁.E.length)
    {r s t : F} (hrs : r ≠ s) (hrt : r ≠ t) (hst : s ≠ t)
    (h : ∀ x ∈ [r, s, t], RelaxedSatisfied S shape (U₁.foldWithRelaxed U₂ comm_T x) ⟨comb 1 x W₁.W W₂.W, foldE W₁.E W₂.E T x⟩ pp) :
    RelaxedSatisfied S shape U₁ W₁ pp ∧ RelaxedSatisfied S shape U₂ W₂ pp ∧
      T = crossTerm shape (U₁.X ++ W₁.W) (U₂.X ++ W₂.W) (U₁.X.getD 0 0) (U₂.X.getD 0 0) ∧
      comm_T = S.commit pp T := by
  have hr := h r (by simp)
  have hs := h s (by simp)
  have ht := h t (by simp)
  have hfoldX : ∀ x, (U₁.foldWithRelaxed U₂ comm_T x).X = comb 1 x U₁.X U₂.X :=
    fun x => zipWith_fold x _ _
  have hlenW : W₁.W.length = shape.numVars := (length_comb_of_eq hW 1 r).symm.trans hr.lengthW
  have hlenX : U₁.X.length = shape.numIo := by
    have := hr.lengthX
    rwa [hfoldX, length_comb_of_eq hX] at this
  have hlenE : W₁.E.length = shape.numConstraints := (length_foldE hE hT r).symm.trans hr.lengthE
  -- the rows
  have hrow : ∀ x ∈ [r, s, t], ∀ i < shape.numConstraints,
      residual shape U₁.X W₁.W W₁.E i +
        x • (crossEntry shape (U₁.X ++ W₁.W) (U₂.X ++ W₂.W) (U₁.X.getD 0 0) (U₂.X.getD 0 0) i -
          T.getD i 0) + (x * x) • residual shape U₂.X W₂.W W₂.E i = 0 := by
    intro x hx i hi
    have heq := (h x hx).residual_eq hi
    rwa [hfoldX, residual_fold hX hW hE hT] at heq
  have hrows : ∀ i < shape.numConstraints, residual shape U₁.X W₁.W W₁.E i = 0 ∧
      crossEntry shape (U₁.X ++ W₁.W) (U₂.X ++ W₂.W) (U₁.X.getD 0 0) (U₂.X.getD 0 0) i -
        T.getD i 0 = 0 ∧ residual shape U₂.X W₂.W W₂.E i = 0 := fun i hi =>
    quadratic_eq_zero hrs hrt hst (hrow r (by simp) i hi) (hrow s (by simp) i hi)
      (hrow t (by simp) i hi)
  -- the commitments
  have hcommitW : ∀ x ∈ [r, s, t], (U₁.commitment_W - S.commit pp W₁.W) +
      x • (U₂.commitment_W - S.commit pp W₂.W) = 0 := by
    intro x hx
    have heq : U₁.commitment_W + x • U₂.commitment_W = S.commit pp (comb 1 x W₁.W W₂.W) :=
      (h x hx).commitW
    rw [S.linear _ _ _ _ hW] at heq
    rw [← sub_eq_zero.mpr heq]
    module
  have hcommitE : ∀ x ∈ [r, s, t], (U₁.commitment_E - S.commit pp W₁.E) +
      x • (comm_T - S.commit pp T) + (x * x) • (U₂.commitment_E - S.commit pp W₂.E) = 0 := by
    intro x hx
    have heq : U₁.commitment_E + x • comm_T + x ^ 2 • U₂.commitment_E =
        S.commit pp (foldE W₁.E W₂.E T x) := (h x hx).commitE
    rw [commit_foldE hE hT, pow_two] at heq
    rw [← sub_eq_zero.mpr heq]
    module
  obtain ⟨hW₁, hW₂⟩ := line_eq_zero hrs (hcommitW r (by simp)) (hcommitW s (by simp))
  obtain ⟨hE₁, hcT, hE₂⟩ := quadratic_eq_zero hrs hrt hst (hcommitE r (by simp))
    (hcommitE s (by simp)) (hcommitE t (by simp))
  refine ⟨⟨hlenW, hlenX, hlenE, fun i hi => sub_eq_zero.mp (hrows i hi).1, sub_eq_zero.mp hW₁,
    sub_eq_zero.mp hE₁⟩, ⟨hW ▸ hlenW, hX ▸ hlenX, hE ▸ hlenE,
    fun i hi => sub_eq_zero.mp (hrows i hi).2.2, sub_eq_zero.mp hW₂, sub_eq_zero.mp hE₂⟩, ?_,
    sub_eq_zero.mp hcT⟩
  apply ext_getD
  · rw [hT, hlenE, length_crossTerm]
  · intro i hi
    rw [hT, hlenE] at hi
    rw [getD_crossTerm _ _ _ _ hi]
    exact (sub_eq_zero.mp (hrows i hi).2.1).symm

/-! ## Strict pairs as relaxed pairs, the two results and over the field of three elements -/

/-- `From<&R1CSInstance> for RelaxedR1CSInstance`. -/
def R1CSInstance.relaxed (U : R1CSInstance F C) : RelaxedR1CSInstance F C :=
  { commitment_W := U.commitment_W, commitment_E := 0, X := U.X }

/-- `RelaxedR1CSWitness::from_r1cs_witness`. -/
def RelaxedR1CSWitness.fromR1csWitness (shape : R1CSShape F) (W : R1CSWitness F) :
    RelaxedR1CSWitness F :=
  { W := W.W, E := List.replicate shape.numConstraints 0 }

/-- A linear commitment to zeros is zero. -/
theorem commit_replicate_zero (n : ℕ) : S.commit pp (List.replicate n 0) = 0 := by
  have hzero : comb 1 1 (List.replicate n 0) (List.replicate n 0) = List.replicate n (0 : F) := by
    simp [comb]
  have hlin := S.linear pp 1 (List.replicate n 0) (List.replicate n 0) rfl
  rw [hzero, one_smul] at hlin
  simpa using hlin

/-- A satisfied strict pair is a satisfied relaxed pair with `u = 1`. -/
theorem Satisfied.relaxed {U : R1CSInstance F C} {W : R1CSWitness F}
    (h : Satisfied S shape U W pp) (hu : U.X.getD 0 0 = 1) :
    RelaxedSatisfied S shape U.relaxed (.fromR1csWitness shape W) pp := by
  constructor
  · exact h.lengthW
  · exact h.lengthX
  · exact List.length_replicate
  · intro i hi
    show _ = U.X.getD 0 0 * _ + (List.replicate shape.numConstraints 0).getD i 0
    rw [hu, one_mul, List.getD_replicate _ hi, add_zero]
    exact h.rows i hi
  · exact h.commitW
  · exact (commit_replicate_zero _).symm

/-- Folding a strict instance is folding it as a relaxed one. -/
theorem RelaxedR1CSInstance.fold_eq (U₁ : RelaxedR1CSInstance F C) (U₂ : R1CSInstance F C)
    (comm_T : C) (r : F) : U₁.fold U₂ comm_T r = U₁.foldWithRelaxed U₂.relaxed comm_T r := by
  simp [RelaxedR1CSInstance.fold, RelaxedR1CSInstance.foldWithRelaxed, R1CSInstance.relaxed]

/-- Folding a strict witness is folding it as a relaxed one. -/
theorem RelaxedR1CSWitness.fold_eq {shape : R1CSShape F} {W₁ : RelaxedR1CSWitness F}
    {W₂ : R1CSWitness F} {T : List F} {r : F} (hW : W₁.W.length = W₂.W.length)
    (hE : W₁.E.length = shape.numConstraints) (hT : T.length = W₁.E.length) :
    W₁.fold W₂ T r = .ok ⟨comb 1 r W₁.W W₂.W,
      foldE W₁.E (fromR1csWitness shape W₂).E T r⟩ := by
  have hzeros : W₁.E.length = (fromR1csWitness shape W₂).E.length := by
    rw [hE]
    exact List.length_replicate.symm
  have hET : (comb 1 r W₁.E T).length = (fromR1csWitness shape W₂).E.length := by
    rw [length_comb_of_eq hT.symm, hzeros]
  have hfoldE : foldE W₁.E (fromR1csWitness shape W₂).E T r = comb 1 r W₁.E T := by
    rw [foldE_eq_comb hzeros hT]
    apply ext_getD
    · exact length_comb_of_eq hET _ _
    · intro i _
      have hz : (fromR1csWitness shape W₂).E.getD i 0 = 0 := by
        simp only [fromR1csWitness, List.getD_eq_getElem?_getD, List.getElem?_replicate]
        split_ifs <;> rfl
      rw [getD_comb hET, hz, one_mul, mul_zero, add_zero]
  have hguard : (Run.failIf (W₁.W.length ≠ W₂.W.length) Error.invalidWitnessLength) = .ok () :=
    failIf_eq_ok.mpr (not_not.mpr hW)
  rw [fold, hguard, hfoldE, zipWith_fold, zipWith_fold]
  rfl

variable [DecidableEq F] [DecidableEq C]

/-- The pair folded at `r` with a fixed cross term is satisfied. -/
def FoldSatisfied (S : CommitmentScheme F C PP) (shape : R1CSShape F) (pp : PP)
    (U₁ : RelaxedR1CSInstance F C) (W₁ : RelaxedR1CSWitness F) (U₂ : RelaxedR1CSInstance F C)
    (W₂ : RelaxedR1CSWitness F) (T : List F) (comm_T : C) (r : F) : Prop :=
  ∃ W, W₁.foldWithRelaxed W₂ T r = .ok W ∧
    shape.isRelaxedSatisfied S (U₁.foldWithRelaxed U₂ comm_T r) W pp = .ok ()

omit [DecidableEq F] [DecidableEq C] in
/-- `commit_T` is `commit_T_with_relaxed` on a strict pair with `u = 1`. -/
theorem commit_T_eq (S : CommitmentScheme F C PP) (shape : R1CSShape F) (pp : PP)
    {U₁ : RelaxedR1CSInstance F C} {W₁ : RelaxedR1CSWitness F} {U₂ : R1CSInstance F C}
    {W₂ : R1CSWitness F} (hX : 0 < U₂.X.length) (hu : U₂.X.getD 0 0 = 1) :
    commit_T S shape pp U₁ W₁ U₂ W₂ =
      commit_T_with_relaxed S shape pp U₁ W₁ U₂.relaxed (.fromR1csWitness shape W₂) := by
  have hassert : (Run.assert (0 < U₂.relaxed.X.length) : Run Error Unit) = .ok () :=
    assert_eq_ok.mpr hX
  have hu' : U₂.relaxed.X.getD 0 0 = 1 := hu
  simp only [commit_T, commit_T_with_relaxed, hassert, hu', one_mul, List.map_id']
  rfl

/-- **Relaxed R1CS folding.**  A satisfied strict pair folds into a satisfied
relaxed pair.  Conversely two relaxed pairs whose fold with a fixed `T` is
satisfied at three challenges are satisfied, and `T` is their cross term,
provided that the public inputs have the same length and `T` that of `E`. -/
theorem relaxed_folding (S : CommitmentScheme F C PP) (shape : R1CSShape F) (pp : PP) :
    (∀ (U₁ : RelaxedR1CSInstance F C) (W₁ : RelaxedR1CSWitness F) (U₂ : R1CSInstance F C)
      (W₂ : R1CSWitness F), shape.isRelaxedSatisfied S U₁ W₁ pp = .ok () →
      shape.isSatisfied S U₂ W₂ pp = .ok () → U₂.X.head? = some 1 → ∀ r, ∃ T comm_T W,
        commit_T S shape pp U₁ W₁ U₂ W₂ = .ok (T, comm_T) ∧ W₁.fold W₂ T r = .ok W ∧
        shape.isRelaxedSatisfied S (U₁.fold U₂ comm_T r) W pp = .ok ()) ∧
    ∀ (U₁ : RelaxedR1CSInstance F C) (W₁ : RelaxedR1CSWitness F) (U₂ : RelaxedR1CSInstance F C)
      (W₂ : RelaxedR1CSWitness F) (T : List F) (comm_T : C), U₁.X.length = U₂.X.length →
      T.length = W₁.E.length → ∀ r s t, r ≠ s → r ≠ t → s ≠ t →
      (∀ x ∈ [r, s, t], FoldSatisfied S shape pp U₁ W₁ U₂ W₂ T comm_T x) →
        shape.isRelaxedSatisfied S U₁ W₁ pp = .ok () ∧
        shape.isRelaxedSatisfied S U₂ W₂ pp = .ok () ∧
        commit_T_with_relaxed S shape pp U₁ W₁ U₂ W₂ = .ok (T, comm_T) := by
  constructor
  · intro U₁ W₁ U₂ W₂ h₁ h₂ hhead r
    have hR₁ := isRelaxedSatisfied_iff.mp h₁
    have hR₂ := isSatisfied_iff.mp h₂
    have hu : U₂.X.getD 0 0 = 1 := by
      rw [List.getD_eq_getElem?_getD, ← List.head?_eq_getElem?, hhead]
      rfl
    have hrel := hR₂.relaxed hu
    have hpos : 0 < U₂.X.length := by
      rw [hR₂.lengthX]
      exact shape.numIo_pos
    have hW : W₁.W.length = W₂.W.length := hR₁.lengthW.trans hR₂.lengthW.symm
    obtain ⟨T, hT⟩ : ∃ T, T = crossTerm shape (U₁.X ++ W₁.W) (U₂.relaxed.X ++ W₂.W)
      (U₁.X.getD 0 0) (U₂.relaxed.X.getD 0 0) := ⟨_, rfl⟩
    have hlen : T.length = W₁.E.length := by rw [hT, length_crossTerm, hR₁.lengthE]
    refine ⟨T, S.commit pp T, _, ?_, RelaxedR1CSWitness.fold_eq hW hR₁.lengthE hlen, ?_⟩
    · rw [commit_T_eq S shape pp hpos hu, hT]
      exact commit_T_with_relaxed_eq hR₁.lengthX hR₁.lengthW hrel.lengthX hrel.lengthW
    · rw [RelaxedR1CSInstance.fold_eq, isRelaxedSatisfied_iff]
      exact hR₁.fold hrel hT r
  · intro U₁ W₁ U₂ W₂ T comm_T hX hT r s t hrs hrt hst hfold
    have hsat : ∀ x ∈ [r, s, t], (W₁.W.length = W₂.W.length ∧ W₁.E.length = W₂.E.length) ∧
        RelaxedSatisfied S shape (U₁.foldWithRelaxed U₂ comm_T x)
          ⟨comb 1 x W₁.W W₂.W, foldE W₁.E W₂.E T x⟩ pp := by
      intro x hx
      obtain ⟨W, hW, hsatW⟩ := hfold x hx
      obtain ⟨hlenW, hlenE, rfl⟩ := foldWithRelaxed_eq_ok.mp hW
      exact ⟨⟨hlenW, hlenE⟩, isRelaxedSatisfied_iff.mp hsatW⟩
    obtain ⟨hW, hE⟩ := (hsat r (by simp)).1
    obtain ⟨h₁, h₂, hcross, hcomm⟩ :=
      satisfied_of_folds hX hW hE hT hrs hrt hst fun x hx => (hsat x hx).2
    refine ⟨isRelaxedSatisfied_iff.mpr h₁, isRelaxedSatisfied_iff.mpr h₂, ?_⟩
    rw [commit_T_with_relaxed_eq h₁.lengthX h₁.lengthW h₂.lengthX h₂.lengthW, ← hcross, ← hcomm]

end CrossTerms

section Three

/-- The sum of the entries as a commitment. -/
def sumScheme : CommitmentScheme (ZMod 3) (ZMod 3) Unit where
  commit _ v := v.sum
  linear _ r as bs h := by
    show (comb 1 r as bs).sum = as.sum + r * bs.sum
    rw [sum_comb h, one_mul]

/-- The dimensions of the matrix that reads the witness. -/
theorem hasDims_square : (⟨[1], [1], [0, 1], 2⟩ : SparseMatrix (ZMod 3)).HasDims 1 2 :=
  ⟨rfl, rfl, by decide, rfl, by decide, by decide⟩

/-- One row, `w * w = 1`. -/
def squareShape : R1CSShape (ZMod 3) where
  numConstraints := 1
  numVars := 1
  numIo := 1
  A := ⟨[1], [1], [0, 1], 2⟩
  B := ⟨[1], [1], [0, 1], 2⟩
  C := ⟨[1], [0], [0, 1], 2⟩
  numIo_pos := Nat.one_pos
  dimsA := hasDims_square
  dimsB := hasDims_square
  dimsC := ⟨rfl, rfl, by decide, rfl, by decide, by decide⟩

/-- Both square roots of `1`. -/
theorem relaxed_folding_square :
    (∃ T comm_T W, commit_T sumScheme squareShape () ⟨1, 0, [1]⟩ ⟨[1], [0]⟩ ⟨2, [1]⟩ ⟨[2]⟩ =
        .ok (T, comm_T) ∧ RelaxedR1CSWitness.fold ⟨[1], [0]⟩ ⟨[2]⟩ T 2 = .ok W ∧
      squareShape.isRelaxedSatisfied sumScheme
        (RelaxedR1CSInstance.fold ⟨1, 0, [1]⟩ ⟨2, [1]⟩ comm_T 2) W () = .ok ()) ∧
    squareShape.isRelaxedSatisfied sumScheme ⟨1, 0, [1]⟩ ⟨[1], [0]⟩ () = .ok () := by
  constructor
  · exact (relaxed_folding sumScheme squareShape ()).1 ⟨1, 0, [1]⟩ ⟨[1], [0]⟩ ⟨2, [1]⟩ ⟨[2]⟩
      rfl rfl rfl 2
  · exact ((relaxed_folding sumScheme squareShape ()).2 ⟨1, 0, [1]⟩ ⟨[1], [0]⟩ ⟨2, 0, [1]⟩
      ⟨[2], [0]⟩ [2] 2 rfl rfl 0 1 2 (by decide) (by decide) (by decide)
      fun x hx => ⟨_, rfl, by revert x; decide⟩).1

/-- One row without entries. -/
def emptyShape : R1CSShape (ZMod 3) where
  numConstraints := 1
  numVars := 0
  numIo := 1
  A := ⟨[], [], [0, 0], 1⟩
  B := ⟨[], [], [0, 0], 1⟩
  C := ⟨[], [], [0, 0], 1⟩
  numIo_pos := Nat.one_pos
  dimsA := ⟨rfl, rfl, by decide, rfl, by decide, by decide⟩
  dimsB := ⟨rfl, rfl, by decide, rfl, by decide, by decide⟩
  dimsC := ⟨rfl, rfl, by decide, rfl, by decide, by decide⟩

/-- Vectors that are too long are cut off by the fold: a `T` with a second entry
is not the cross term, and a pair with a second public input is not satisfied,
although all three folds are. -/
theorem folding_cuts_off :
    ((∀ x ∈ [0, 1, 2], FoldSatisfied sumScheme emptyShape () ⟨0, 0, [0]⟩ ⟨[], [0]⟩ ⟨0, 0, [0]⟩
        ⟨[], [0]⟩ [0, 1] 0 x) ∧
      commit_T_with_relaxed sumScheme emptyShape () ⟨0, 0, [0]⟩ ⟨[], [0]⟩ ⟨0, 0, [0]⟩ ⟨[], [0]⟩ ≠
        .ok ([0, 1], 0)) ∧
    (∀ x ∈ [0, 1, 2], FoldSatisfied sumScheme emptyShape () ⟨0, 0, [0, 0]⟩ ⟨[], [0]⟩ ⟨0, 0, [0]⟩
        ⟨[], [0]⟩ [0] 0 x) ∧
      emptyShape.isRelaxedSatisfied sumScheme ⟨0, 0, [0, 0]⟩ ⟨[], [0]⟩ () ≠ .ok () := by
  refine ⟨⟨fun x _ => ⟨_, rfl, by revert x; decide⟩, by decide⟩,
    fun x _ => ⟨_, rfl, by revert x; decide⟩, by decide⟩

end Three

end R1cs

end NexusVm.Nova
