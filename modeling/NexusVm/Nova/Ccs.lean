import NexusVm.Nova.R1cs
import NexusVm.Nova.Mle

/-!
# Folding of linearized CCS instances

`nova/src/ccs/mod.rs`.  Instances and witnesses are folded by separate functions
with the same weights: the challenge for the first and its square for the second.
-/

namespace NexusVm.Nova

/-- A homomorphic commitment to multilinear polynomials. -/
structure PolyCommitmentScheme (F C CK : Type) [Field F] [AddCommGroup C] [Module F C] where
  commit : DensePolynomial F → CK → C
  linear : ∀ (ck : CK) (x y : F) (p q : DensePolynomial F), p.numVars = q.numVars →
    p.Z.length = q.Z.length →
    commit ⟨p.numVars, comb x y p.Z q.Z⟩ ck = x • commit p ck + y • commit q ck

namespace Ccs

inductive Error
  | invalidWitnessLength
  | invalidInputLength
  | invalidEvaluationPoint
  | invalidTargets
  | notSatisfied
deriving DecidableEq

/-- The shape of the CCS matrices. -/
structure CCSShape (F : Type) where
  numConstraints : ℕ
  numVars : ℕ
  numIo : ℕ
  numMatrices : ℕ
  numMultisets : ℕ
  Ms : List (SparseMatrix F)
  cSs : List (F × List ℕ)
  numIo_pos : 0 < numIo
  dims : ∀ M ∈ Ms, M.HasDims numConstraints (numIo + numVars)
  matrices : Ms.length = numMatrices
  multisets : cSs.length = numMultisets
  selectors : ∀ cS ∈ cSs, ∀ j ∈ cS.2, j < numMatrices

/-- `From<R1CSShape> for CCSShape`. -/
def CCSShape.ofR1CSShape {F : Type} [Field F] (shape : R1cs.R1CSShape F) : CCSShape F where
  numConstraints := shape.numConstraints
  numVars := shape.numVars
  numIo := shape.numIo
  numMatrices := 3
  numMultisets := 2
  Ms := [shape.A, shape.B, shape.C]
  cSs := [(1, [0, 1]), (-1, [2])]
  numIo_pos := shape.numIo_pos
  dims := by
    intro M hM
    simp only [List.mem_cons, List.not_mem_nil, or_false] at hM
    rcases hM with rfl | rfl | rfl
    · exact shape.dimsA
    · exact shape.dimsB
    · exact shape.dimsC
  matrices := rfl
  multisets := rfl
  selectors := by
    intro cS hcS j hj
    simp only [List.mem_cons, List.not_mem_nil, or_false] at hcS
    rcases hcS with rfl | rfl
    · simp at hj
      omega
    · simp at hj
      omega

section Instances

variable (F C : Type)

structure CCSWitness where
  W : List F
deriving DecidableEq

structure CCSInstance where
  commitment_W : C
  X : List F
deriving DecidableEq

/-- A linearized instance: the evaluation point `rs` and the targets `vs`. -/
structure LCCSInstance where
  commitment_W : C
  X : List F
  rs : List F
  vs : List F
deriving DecidableEq

end Instances

section Construction

variable {F C : Type}

/-- A witness of the shape's length. -/
def CCSWitness.new (shape : CCSShape F) (W : List F) : Run Error (CCSWitness F) := do
  Run.failIf (shape.numVars ≠ W.length) .invalidWitnessLength
  .ok ⟨W⟩

def CCSInstance.new (shape : CCSShape F) (commitment_W : C) (X : List F) :
    Run Error (CCSInstance F C) := do
  Run.failIf (X.length = 0) .invalidInputLength
  Run.failIf (shape.numIo ≠ X.length) .invalidInputLength
  .ok ⟨commitment_W, X⟩

def LCCSInstance.new (shape : CCSShape F) (commitment_W : C) (X rs vs : List F) :
    Run Error (LCCSInstance F C) := do
  Run.failIf (X.length = 0 ∨ shape.numIo ≠ X.length) .invalidInputLength
  Run.failIf (safeLoglike shape.numConstraints ≠ rs.length) .invalidEvaluationPoint
  Run.failIf (shape.numMatrices ≠ vs.length) .invalidTargets
  .ok ⟨commitment_W, X, rs, vs⟩

theorem instanceNew_eq_ok {shape : CCSShape F} {c : C} {X : List F} {U : CCSInstance F C} :
    CCSInstance.new shape c X = .ok U ↔ shape.numIo = X.length ∧ ⟨c, X⟩ = U := by
  have hpos := shape.numIo_pos
  simp only [CCSInstance.new, bind_eq_ok, failIf_eq_ok, exists_const, not_not, Except.ok.injEq]
  constructor
  · rintro ⟨-, hX, hU⟩
    exact ⟨hX, hU⟩
  · rintro ⟨hX, hU⟩
    exact ⟨by omega, hX, hU⟩

theorem linearizedNew_eq_ok {shape : CCSShape F} {c : C} {X rs vs : List F}
    {U : LCCSInstance F C} :
    LCCSInstance.new shape c X rs vs = .ok U ↔ shape.numIo = X.length ∧
      safeLoglike shape.numConstraints = rs.length ∧ shape.numMatrices = vs.length ∧
        ⟨c, X, rs, vs⟩ = U := by
  have hpos := shape.numIo_pos
  simp only [LCCSInstance.new, bind_eq_ok, failIf_eq_ok, exists_const, not_not, not_or,
    Except.ok.injEq]
  constructor
  · rintro ⟨⟨-, hX⟩, hrest⟩
    exact ⟨hX, hrest⟩
  · rintro ⟨hX, hrest⟩
    exact ⟨⟨by omega, hX⟩, hrest⟩

end Construction

section Model

variable {F C CK : Type} [Field F] [AddCommGroup C] [Module F C]

def CCSWitness.commit (S : PolyCommitmentScheme F C CK) (W : CCSWitness F) (ck : CK) :
    Run Error C := do
  let poly ← vecToMle W.W
  .ok (S.commit poly ck)

/-- Folds an incoming witness into the current one. -/
def CCSWitness.fold (W₁ W₂ : CCSWitness F) (rho : F) : Run Error (CCSWitness F) := do
  Run.failIf (W₁.W.length ≠ W₂.W.length) .invalidWitnessLength
  let rho_squared := rho * rho
  .ok ⟨List.zipWith (fun a b => rho * a + rho_squared * b) W₁.W W₂.W⟩

/-- Folds an incoming instance into the current one. -/
def LCCSInstance.fold (U₁ : LCCSInstance F C) (U₂ : CCSInstance F C) (rho : F)
    (rs sigmas thetas : List F) : Run Error (LCCSInstance F C) := do
  Run.failIf (U₁.rs.length ≠ rs.length) .invalidEvaluationPoint
  Run.failIf (sigmas.length ≠ thetas.length) .invalidTargets
  -- `[0]` and `[1..]` of both inputs
  Run.assert (0 < U₁.X.length)
  Run.assert (0 < U₂.X.length)
  let rho_squared := rho * rho
  .ok
    { commitment_W := rho • U₁.commitment_W + rho_squared • U₂.commitment_W
      X := (U₁.X.getD 0 0 * rho + U₂.X.getD 0 0 * rho_squared) ::
        List.zipWith (fun a b => a * rho + b * rho_squared) U₁.X.tail U₂.X.tail
      rs := rs
      vs := List.zipWith (fun sigma theta => sigma * rho + theta * rho_squared) sigmas thetas }

/-- Combines two linearized instances. -/
def LCCSInstance.foldLccs (U₁ other : LCCSInstance F C) (rho : F)
    (sigmas1 sigmas2 merged_rs : List F) : Run Error (LCCSInstance F C) := do
  Run.failIf (U₁.rs.length ≠ other.rs.length ∨ U₁.rs.length ≠ merged_rs.length)
    .invalidEvaluationPoint
  Run.failIf (sigmas1.length ≠ sigmas2.length ∨ U₁.vs.length ≠ other.vs.length) .invalidTargets
  Run.failIf (U₁.X.length ≠ other.X.length) .invalidInputLength
  Run.assert (0 < U₁.X.length)
  Run.assert (0 < other.X.length)
  let rho_squared := rho * rho
  .ok
    { commitment_W := rho • U₁.commitment_W + rho_squared • other.commitment_W
      X := (U₁.X.getD 0 0 * rho + other.X.getD 0 0 * rho_squared) ::
        List.zipWith (fun a b => a * rho + b * rho_squared) U₁.X.tail other.X.tail
      rs := merged_rs
      vs := List.zipWith (fun sigma1 sigma2 => sigma1 * rho + sigma2 * rho_squared)
        sigmas1 sigmas2 }

variable [DecidableEq F] [DecidableEq C]

/-- One multiset: its coefficient times the products it selects. -/
def hadamard (cS : F × List ℕ) (Mzs : List (List F)) (i : ℕ) : F :=
  cS.2.foldl (fun x idx => x * (Mzs.getD idx []).getD i 0) cS.1

/-- An instance with its witness satisfies the constraints. -/
def CCSShape.isSatisfied (S : PolyCommitmentScheme F C CK) (shape : CCSShape F)
    (U : CCSInstance F C) (W : CCSWitness F) (ck : CK) : Run Error Unit := do
  Run.assert (W.W.length = shape.numVars)
  Run.assert (U.X.length = shape.numIo)
  let z := U.X ++ W.W
  let Mzs ← shape.Ms.mapM fun M => M.multiplyVec z
  let acc := (List.range shape.numConstraints).map fun i =>
    shape.cSs.foldl (fun s cS => s + hadamard cS Mzs i) 0
  Run.failIf (acc.any fun s => s ≠ 0) .notSatisfied
  let commitment ← W.commit S ck
  Run.failIf (U.commitment_W ≠ commitment) .notSatisfied

/-- The evaluations of the matrix products at a point. -/
def evaluations (shape : CCSShape F) (z rs : List F) : Run Error (List F) :=
  shape.Ms.mapM fun M => do
    let Mz ← M.multiplyVec z
    evaluateVec Mz rs

/-- A linearized instance with its witness satisfies the constraints. -/
def CCSShape.isSatisfiedLinearized (S : PolyCommitmentScheme F C CK) (shape : CCSShape F)
    (U : LCCSInstance F C) (W : CCSWitness F) (ck : CK) : Run Error Unit := do
  Run.assert (W.W.length = shape.numVars)
  Run.assert (U.X.length = shape.numIo)
  let z := U.X ++ W.W
  let Mzs ← evaluations shape z U.rs
  (List.range shape.numMatrices).forM fun idx => do
    -- `U.vs[idx]`; there are as many evaluations as matrices
    Run.assert (idx < U.vs.length)
    Run.failIf (Mzs.getD idx 0 ≠ U.vs.getD idx 0) .notSatisfied
  let computed_commitment ← W.commit S ck
  Run.failIf (U.commitment_W ≠ computed_commitment) .notSatisfied

end Model

/-! ## Satisfaction of a linearized pair and folding -/

section Linearized

variable {F C CK : Type} [Field F] [AddCommGroup C] [Module F C] {S : PolyCommitmentScheme F C CK}
  {shape : CCSShape F} {ck : CK}

/-- The evaluations of the matrix products at a point. -/
def matrixEvals (shape : CCSShape F) (z rs : List F) : List F :=
  shape.Ms.map fun M => mleAt (M.multiplyVecUnchecked z) rs

/-- Matrix products can be evaluated at points of this many coordinates. -/
def CanEvaluate (shape : CCSShape F) (s : ℕ) : Prop :=
  shape.Ms ≠ [] → 0 < shape.numConstraints ∧ s = mleVars shape.numConstraints

theorem length_matrixEvals (z rs : List F) :
    (matrixEvals shape z rs).length = shape.numMatrices := by
  rw [matrixEvals, List.length_map, shape.matrices]

theorem evaluations_eq_ok {z rs vals : List F}
    (hz : z.length = shape.numIo + shape.numVars) :
    evaluations shape z rs = .ok vals ↔
      CanEvaluate shape rs.length ∧ matrixEvals shape z rs = vals := by
  apply mapM_eq_ok
  intro M hM v
  have hd := shape.dims M hM
  rw [SparseMatrix.multiplyVec_of_dims hd hz]
  show evaluateVec _ rs = _ ↔ _
  rw [evaluateVec_eq_ok, SparseMatrix.length_multiplyVecUnchecked hd, and_assoc]

/-- The evaluations of a combination. -/
theorem matrixEvals_comb {z1 z2 : List F} (h : z1.length = z2.length) (x y : F) (rs : List F) :
    matrixEvals shape (comb x y z1 z2) rs =
      comb x y (matrixEvals shape z1 rs) (matrixEvals shape z2 rs) := by
  unfold matrixEvals
  rw [comb_map]
  apply List.map_congr_left
  intro M _
  rw [SparseMatrix.multiplyVecUnchecked_comb M h, mleAt_comb]
  simp [SparseMatrix.multiplyVecUnchecked]

variable {W : CCSWitness F}

/-- The commitment to a nonempty witness. -/
theorem commit_eq_ok {c : C} : W.commit S ck = .ok c ↔
    0 < W.W.length ∧ S.commit (.new (padTo (nextPowerOfTwo W.W.length) W.W)) ck = c := by
  simp only [CCSWitness.commit, vecToMle, bind_eq_ok, assert_eq_ok, exists_const,
    Except.ok.injEq]
  constructor
  · rintro ⟨poly, ⟨hW, rfl⟩, hc⟩
    exact ⟨hW, hc⟩
  · rintro ⟨hW, hc⟩
    exact ⟨_, ⟨hW, rfl⟩, hc⟩

/-- The commitment to a folded witness is the folded commitment. -/
theorem commit_comb {W₁ W₂ : CCSWitness F} {c₁ c₂ : C} (h : W₁.W.length = W₂.W.length)
    (h₁ : W₁.commit S ck = .ok c₁) (h₂ : W₂.commit S ck = .ok c₂) (x y : F) :
    CCSWitness.commit S ⟨comb x y W₁.W W₂.W⟩ ck = .ok (x • c₁ + y • c₂) := by
  obtain ⟨hpos, rfl⟩ := commit_eq_ok.mp h₁
  obtain ⟨-, rfl⟩ := commit_eq_ok.mp h₂
  have hlen : (comb x y W₁.W W₂.W).length = W₁.W.length := length_comb_of_eq h x y
  have hpad : (padTo (nextPowerOfTwo W₁.W.length) W₁.W).length =
      (padTo (nextPowerOfTwo W₁.W.length) W₂.W).length := by
    rw [length_padTo (le_nextPowerOfTwo _), length_padTo (h ▸ le_nextPowerOfTwo _)]
  have hvars : (DensePolynomial.new (padTo (nextPowerOfTwo W₁.W.length) W₁.W)).numVars =
      (DensePolynomial.new (padTo (nextPowerOfTwo W₁.W.length) W₂.W)).numVars := by
    simp only [DensePolynomial.new, hpad]
  rw [commit_eq_ok, hlen, padTo_comb h, ← h]
  refine ⟨hpos, ?_⟩
  rw [← S.linear ck x y _ _ hvars hpad]
  simp only [DensePolynomial.new, length_comb_of_eq hpad]

/-- What a satisfied linearized pair fulfills. -/
structure LinearizedSatisfied (S : PolyCommitmentScheme F C CK) (shape : CCSShape F)
    (U : LCCSInstance F C) (W : CCSWitness F) (ck : CK) : Prop where
  lengthW : W.W.length = shape.numVars
  lengthX : U.X.length = shape.numIo
  evaluate : CanEvaluate shape U.rs.length
  targets : ∀ i < shape.numMatrices, i < U.vs.length ∧
    (matrixEvals shape (U.X ++ W.W) U.rs).getD i 0 = U.vs.getD i 0
  commitW : W.commit S ck = .ok U.commitment_W

variable [DecidableEq F] [DecidableEq C]

theorem isSatisfiedLinearized_iff {U : LCCSInstance F C} :
    shape.isSatisfiedLinearized S U W ck = .ok () ↔ LinearizedSatisfied S shape U W ck := by
  simp only [CCSShape.isSatisfiedLinearized, bind_eq_ok, assert_eq_ok, failIf_eq_ok, forM_eq_ok,
    List.mem_range, exists_const, not_not]
  constructor
  · rintro ⟨hW, hX, Mzs, hMzs, htargets, c, hc, rfl⟩
    have hz : (U.X ++ W.W).length = shape.numIo + shape.numVars := by
      rw [List.length_append, hX, hW]
    obtain ⟨heval, rfl⟩ := (evaluations_eq_ok hz).mp hMzs
    exact ⟨hW, hX, heval, htargets, hc⟩
  · intro h
    have hz : (U.X ++ W.W).length = shape.numIo + shape.numVars := by
      rw [List.length_append, h.lengthX, h.lengthW]
    exact ⟨h.lengthW, h.lengthX, _, (evaluations_eq_ok hz).mpr ⟨h.evaluate, rfl⟩, h.targets, _,
      h.commitW, rfl⟩

/-- The lengths and the commitment of a satisfied pair. -/
theorem of_isSatisfied {U : CCSInstance F C} (h : shape.isSatisfied S U W ck = .ok ()) :
    W.W.length = shape.numVars ∧
      U.X.length = shape.numIo ∧ W.commit S ck = .ok U.commitment_W := by
  simp only [CCSShape.isSatisfied, bind_eq_ok, assert_eq_ok, failIf_eq_ok, exists_const,
    not_not] at h
  obtain ⟨hW, hX, Mzs, -, -, c, hc, rfl⟩ := h
  exact ⟨hW, hX, hc⟩

end Linearized

section Folding

variable {F C CK : Type} [Field F] [AddCommGroup C] [Module F C] {S : PolyCommitmentScheme F C CK}
  {shape : CCSShape F} {ck : CK}

/-- The folded public input, whose first entry is folded apart. -/
theorem foldX_eq {X₁ X₂ : List F} (h₁ : 0 < X₁.length) (h₂ : 0 < X₂.length) (rho : F) :
    (X₁.getD 0 0 * rho + X₂.getD 0 0 * (rho * rho)) ::
        List.zipWith (fun a b => a * rho + b * (rho * rho)) X₁.tail X₂.tail =
      comb rho (rho * rho) X₁ X₂ := by
  cases X₁ with
  | nil => cases h₁
  | cons a X₁ =>
      cases X₂ with
      | nil => cases h₂
      | cons b X₂ => simp [comb, mul_comm]

theorem foldVs_eq (rho : F) (as bs : List F) :
    List.zipWith (fun a b => a * rho + b * (rho * rho)) as bs = comb rho (rho * rho) as bs := by
  simp only [comb, mul_comm]

/-- The fold of two instances. -/
def folded (c₁ c₂ : C) (X₁ X₂ rs sigmas thetas : List F) (rho : F) : LCCSInstance F C :=
  { commitment_W := rho • c₁ + (rho * rho) • c₂
    X := comb rho (rho * rho) X₁ X₂
    rs := rs
    vs := comb rho (rho * rho) sigmas thetas }

theorem fold_eq_ok {U₁ : LCCSInstance F C} {U₂ : CCSInstance F C} {rho : F}
    {rs sigmas thetas : List F} {U : LCCSInstance F C} :
    U₁.fold U₂ rho rs sigmas thetas = .ok U ↔ U₁.rs.length = rs.length ∧
      sigmas.length = thetas.length ∧ 0 < U₁.X.length ∧ 0 < U₂.X.length ∧
      U = folded U₁.commitment_W U₂.commitment_W U₁.X U₂.X rs sigmas thetas rho := by
  simp only [LCCSInstance.fold, bind_eq_ok, failIf_eq_ok, assert_eq_ok, exists_const, not_not,
    Except.ok.injEq, folded]
  constructor
  · rintro ⟨hrs, hst, hX₁, hX₂, rfl⟩
    rw [foldX_eq hX₁ hX₂, foldVs_eq]
    exact ⟨hrs, hst, hX₁, hX₂, rfl⟩
  · rintro ⟨hrs, hst, hX₁, hX₂, rfl⟩
    rw [foldX_eq hX₁ hX₂, foldVs_eq]
    exact ⟨hrs, hst, hX₁, hX₂, rfl⟩

theorem foldLccs_eq_ok {U₁ U₂ : LCCSInstance F C} {rho : F} {rs sigmas1 sigmas2 : List F}
    {U : LCCSInstance F C} :
    U₁.foldLccs U₂ rho sigmas1 sigmas2 rs = .ok U ↔
      (U₁.rs.length = U₂.rs.length ∧ U₁.rs.length = rs.length) ∧
      (sigmas1.length = sigmas2.length ∧ U₁.vs.length = U₂.vs.length) ∧
      U₁.X.length = U₂.X.length ∧ 0 < U₁.X.length ∧ 0 < U₂.X.length ∧
      U = folded U₁.commitment_W U₂.commitment_W U₁.X U₂.X rs sigmas1 sigmas2 rho := by
  simp only [LCCSInstance.foldLccs, bind_eq_ok, failIf_eq_ok, assert_eq_ok, exists_const, not_or,
    not_not, Except.ok.injEq, folded]
  constructor
  · rintro ⟨hrs, hst, hX, hX₁, hX₂, rfl⟩
    rw [foldX_eq hX₁ hX₂, foldVs_eq]
    exact ⟨hrs, hst, hX, hX₁, hX₂, rfl⟩
  · rintro ⟨hrs, hst, hX, hX₁, hX₂, rfl⟩
    rw [foldX_eq hX₁ hX₂, foldVs_eq]
    exact ⟨hrs, hst, hX, hX₁, hX₂, rfl⟩

theorem witnessFold_eq_ok {W₁ W₂ W : CCSWitness F} {rho : F} :
    W₁.fold W₂ rho = .ok W ↔
      W₁.W.length = W₂.W.length ∧ W = ⟨comb rho (rho * rho) W₁.W W₂.W⟩ := by
  simp only [CCSWitness.fold, bind_eq_ok, failIf_eq_ok, exists_const, not_not, Except.ok.injEq,
    comb]
  constructor
  · rintro ⟨hW, rfl⟩
    exact ⟨hW, rfl⟩
  · rintro ⟨hW, rfl⟩
    exact ⟨hW, rfl⟩

/-- An opened pair: lengths and commitment. -/
structure Opened (S : PolyCommitmentScheme F C CK) (shape : CCSShape F) (c : C) (X : List F)
    (W : CCSWitness F) (ck : CK) : Prop where
  lengthW : W.W.length = shape.numVars
  lengthX : X.length = shape.numIo
  commitW : W.commit S ck = .ok c

/-- **A fold is satisfied** at a point where the matrices can be evaluated, with
the evaluations there as targets. -/
theorem linearizedSatisfied_folded {c₁ c₂ : C} {X₁ X₂ : List F} {W₁ W₂ : CCSWitness F}
    (h₁ : Opened S shape c₁ X₁ W₁ ck) (h₂ : Opened S shape c₂ X₂ W₂ ck) {rs : List F}
    (hrs : CanEvaluate shape rs.length) (rho : F) :
    LinearizedSatisfied S shape
      (folded c₁ c₂ X₁ X₂ rs (matrixEvals shape (X₁ ++ W₁.W) rs)
        (matrixEvals shape (X₂ ++ W₂.W) rs) rho)
      ⟨comb rho (rho * rho) W₁.W W₂.W⟩ ck := by
  have hX : X₁.length = X₂.length := h₁.lengthX.trans h₂.lengthX.symm
  have hW : W₁.W.length = W₂.W.length := h₁.lengthW.trans h₂.lengthW.symm
  have hz : (X₁ ++ W₁.W).length = (X₂ ++ W₂.W).length := by
    rw [List.length_append, List.length_append, hX, hW]
  have hvs : (matrixEvals shape (X₁ ++ W₁.W) rs).length =
      (matrixEvals shape (X₂ ++ W₂.W) rs).length := by
    rw [length_matrixEvals, length_matrixEvals]
  constructor
  · exact (length_comb_of_eq hW _ _).trans h₁.lengthW
  · exact (length_comb_of_eq hX _ _).trans h₁.lengthX
  · exact hrs
  · intro i hi
    constructor
    · show i < (comb rho (rho * rho) _ _).length
      rw [length_comb_of_eq hvs, length_matrixEvals]
      exact hi
    · show (matrixEvals shape (comb rho (rho * rho) X₁ X₂ ++ comb rho (rho * rho) W₁.W W₂.W)
        rs).getD i 0 = (comb rho (rho * rho) _ _).getD i 0
      rw [← comb_append hX, matrixEvals_comb hz]
  · exact commit_comb hW h₁.commitW h₂.commitW _ _

/-! ## Consecutive folds -/

/-- A pair that is folded into the accumulated one, at a new point. -/
inductive Incoming (F C : Type)
  | ccs (U : CCSInstance F C) (W : CCSWitness F) (rho : F) (rs : List F)
  | lccs (U : LCCSInstance F C) (W : CCSWitness F) (rho : F) (rs : List F)

/-- One fold, with the evaluations of the matrix products at the new point. -/
def foldStep (shape : CCSShape F) (acc : LCCSInstance F C × CCSWitness F) :
    Incoming F C → Run Error (LCCSInstance F C × CCSWitness F)
  | .ccs U₂ W₂ rho rs => do
      let sigmas ← evaluations shape (acc.1.X ++ acc.2.W) rs
      let thetas ← evaluations shape (U₂.X ++ W₂.W) rs
      let U ← acc.1.fold U₂ rho rs sigmas thetas
      let W ← acc.2.fold W₂ rho
      .ok (U, W)
  | .lccs U₂ W₂ rho rs => do
      let sigmas1 ← evaluations shape (acc.1.X ++ acc.2.W) rs
      let sigmas2 ← evaluations shape (U₂.X ++ W₂.W) rs
      let U ← acc.1.foldLccs U₂ rho sigmas1 sigmas2 rs
      let W ← acc.2.fold W₂ rho
      .ok (U, W)

/-- `LCCSInstance::new` accepts only instances of the shape's lengths. -/
structure LCCSInstance.Sized (shape : CCSShape F) (s : ℕ) (U : LCCSInstance F C) : Prop where
  rs : U.rs.length = s
  vs : U.vs.length = shape.numMatrices

variable [DecidableEq F] [DecidableEq C]

/-- An incoming pair is satisfied, and its new point has `s` coordinates. -/
def Incoming.Satisfied (S : PolyCommitmentScheme F C CK) (shape : CCSShape F) (ck : CK) (s : ℕ) :
    Incoming F C → Prop
  | .ccs U W _ rs => rs.length = s ∧ shape.isSatisfied S U W ck = .ok ()
  | .lccs U W _ rs =>
      rs.length = s ∧ U.Sized shape s ∧ shape.isSatisfiedLinearized S U W ck = .ok ()

variable {S : PolyCommitmentScheme F C CK} {shape : CCSShape F} {ck : CK}

variable {W : CCSWitness F}

omit [DecidableEq F] [DecidableEq C] in
theorem LinearizedSatisfied.opened {U : LCCSInstance F C} (h : LinearizedSatisfied S shape U W ck) :
    Opened S shape U.commitment_W U.X W ck :=
  ⟨h.lengthW, h.lengthX, h.commitW⟩

variable {rs : List F}

omit [DecidableEq F] [DecidableEq C] in
theorem Opened.evaluations {c : C} {X : List F} (h : Opened S shape c X W ck)
    (hrs : CanEvaluate shape rs.length) :
    evaluations shape (X ++ W.W) rs = .ok (matrixEvals shape (X ++ W.W) rs) :=
  (evaluations_eq_ok (by rw [List.length_append, h.lengthX, h.lengthW])).mpr ⟨hrs, rfl⟩

omit [DecidableEq F] [DecidableEq C] in
theorem Opened.pos {c : C} {X : List F} (h : Opened S shape c X W ck) :
    0 < X.length :=
  h.lengthX ▸ shape.numIo_pos

omit [DecidableEq F] [DecidableEq C] in
theorem sized_folded {c₁ c₂ : C} {X₁ X₂ z1 z2 rs : List F} (rho : F) :
    (folded c₁ c₂ X₁ X₂ rs (matrixEvals shape z1 rs) (matrixEvals shape z2 rs) rho).Sized shape
      rs.length := by
  constructor
  · rfl
  · have hvs : (matrixEvals shape z1 rs).length = (matrixEvals shape z2 rs).length := by
      rw [length_matrixEvals, length_matrixEvals]
    exact (length_comb_of_eq hvs _ _).trans (length_matrixEvals _ _)

variable {acc : LCCSInstance F C × CCSWitness F}

/-- A fold with a satisfied CCS pair. -/
theorem foldStep_ccs {U₂ : CCSInstance F C} {W₂ : CCSWitness F}
    (h : LinearizedSatisfied S shape acc.1 acc.2 ck) (h₂ : shape.isSatisfied S U₂ W₂ ck = .ok ())
    (hrs : acc.1.rs.length = rs.length) (rho : F) :
    ∃ acc', foldStep shape acc (.ccs U₂ W₂ rho rs) = .ok acc' ∧
      LinearizedSatisfied S shape acc'.1 acc'.2 ck ∧ acc'.1.Sized shape rs.length := by
  obtain ⟨hW₂, hX₂, hc₂⟩ := of_isSatisfied h₂
  have ho₁ := h.opened
  have ho₂ : Opened S shape U₂.commitment_W U₂.X W₂ ck := ⟨hW₂, hX₂, hc₂⟩
  have heval : CanEvaluate shape rs.length := hrs ▸ h.evaluate
  have hlen : (matrixEvals shape (acc.1.X ++ acc.2.W) rs).length =
      (matrixEvals shape (U₂.X ++ W₂.W) rs).length := by
    rw [length_matrixEvals, length_matrixEvals]
  have hW : acc.2.W.length = W₂.W.length := h.lengthW.trans hW₂.symm
  refine ⟨(_, _), ?_, linearizedSatisfied_folded ho₁ ho₂ heval rho, sized_folded rho⟩
  exact bind_eq_ok.mpr ⟨_, ho₁.evaluations heval, bind_eq_ok.mpr ⟨_, ho₂.evaluations heval,
    bind_eq_ok.mpr ⟨_, fold_eq_ok.mpr ⟨hrs, hlen, ho₁.pos, ho₂.pos, rfl⟩,
      bind_eq_ok.mpr ⟨_, witnessFold_eq_ok.mpr ⟨hW, rfl⟩, rfl⟩⟩⟩⟩

/-- A fold with a satisfied linearized pair. -/
theorem foldStep_lccs {U₂ : LCCSInstance F C} {W₂ : CCSWitness F}
    (h : LinearizedSatisfied S shape acc.1 acc.2 ck)
    (h₂ : shape.isSatisfiedLinearized S U₂ W₂ ck = .ok ())
    (hrs : acc.1.rs.length = U₂.rs.length ∧ acc.1.rs.length = rs.length)
    (hvs : acc.1.vs.length = U₂.vs.length) (rho : F) :
    ∃ acc', foldStep shape acc (.lccs U₂ W₂ rho rs) = .ok acc' ∧
      LinearizedSatisfied S shape acc'.1 acc'.2 ck ∧ acc'.1.Sized shape rs.length := by
  have ho₁ := h.opened
  have ho₂ := (isSatisfiedLinearized_iff.mp h₂).opened
  have heval : CanEvaluate shape rs.length := hrs.2 ▸ h.evaluate
  have hlen : (matrixEvals shape (acc.1.X ++ acc.2.W) rs).length =
      (matrixEvals shape (U₂.X ++ W₂.W) rs).length := by
    rw [length_matrixEvals, length_matrixEvals]
  have hW : acc.2.W.length = W₂.W.length := h.lengthW.trans ho₂.lengthW.symm
  have hX : acc.1.X.length = U₂.X.length := h.lengthX.trans ho₂.lengthX.symm
  refine ⟨(_, _), ?_, linearizedSatisfied_folded ho₁ ho₂ heval rho, sized_folded rho⟩
  exact bind_eq_ok.mpr ⟨_, ho₁.evaluations heval, bind_eq_ok.mpr ⟨_, ho₂.evaluations heval,
    bind_eq_ok.mpr ⟨_, foldLccs_eq_ok.mpr ⟨hrs, ⟨hlen, hvs⟩, hX, ho₁.pos, ho₂.pos, rfl⟩,
      bind_eq_ok.mpr ⟨_, witnessFold_eq_ok.mpr ⟨hW, rfl⟩, rfl⟩⟩⟩⟩

/-- A fold with any satisfied pair. -/
theorem foldStep_satisfied {s : ℕ} {inc : Incoming F C}
    (h : LinearizedSatisfied S shape acc.1 acc.2 ck) (hacc : acc.1.Sized shape s)
    (hinc : inc.Satisfied S shape ck s) :
    ∃ acc', foldStep shape acc inc = .ok acc' ∧ LinearizedSatisfied S shape acc'.1 acc'.2 ck ∧
      acc'.1.Sized shape s := by
  cases inc with
  | ccs U₂ W₂ rho rs =>
      obtain ⟨rfl, h₂⟩ := hinc
      exact foldStep_ccs h h₂ hacc.rs rho
  | lccs U₂ W₂ rho rs =>
      obtain ⟨rfl, hU₂, h₂⟩ := hinc
      exact foldStep_lccs h h₂ ⟨hacc.rs.trans hU₂.rs.symm, hacc.rs⟩ (hacc.vs.trans hU₂.vs.symm) rho

/-- Any number of folds with satisfied pairs. -/
theorem folds_satisfied {s : ℕ} {incs : List (Incoming F C)}
    (h : LinearizedSatisfied S shape acc.1 acc.2 ck) (hacc : acc.1.Sized shape s)
    (hincs : ∀ inc ∈ incs, inc.Satisfied S shape ck s) :
    ∃ acc', incs.foldlM (foldStep shape) acc = .ok acc' ∧
      LinearizedSatisfied S shape acc'.1 acc'.2 ck := by
  induction incs generalizing acc with
  | nil => exact ⟨acc, rfl, h⟩
  | cons inc incs ih =>
      rw [List.forall_mem_cons] at hincs
      obtain ⟨acc₁, hstep, h₁, hacc₁⟩ := foldStep_satisfied h hacc hincs.1
      obtain ⟨acc₂, hrun, h₂⟩ := ih h₁ hacc₁ hincs.2
      refine ⟨acc₂, ?_, h₂⟩
      rw [List.foldlM_cons]
      exact bind_eq_ok.mpr ⟨acc₁, hstep, hrun⟩

/-- **Folding preserves satisfaction.**  A satisfied linearized pair folded with
a satisfied CCS pair, or with any number of satisfied pairs of both kinds one
after the other, gives a satisfied linearized pair. -/
theorem folding_preserves (S : PolyCommitmentScheme F C CK) (shape : CCSShape F) (ck : CK)
    (U₁ : LCCSInstance F C) (W₁ : CCSWitness F)
    (h₁ : shape.isSatisfiedLinearized S U₁ W₁ ck = .ok ()) :
    (∀ (U₂ : CCSInstance F C) (W₂ : CCSWitness F) (rho : F) (rs : List F),
      shape.isSatisfied S U₂ W₂ ck = .ok () → rs.length = U₁.rs.length →
      ∃ sigmas thetas U W, evaluations shape (U₁.X ++ W₁.W) rs = .ok sigmas ∧
        evaluations shape (U₂.X ++ W₂.W) rs = .ok thetas ∧
        U₁.fold U₂ rho rs sigmas thetas = .ok U ∧ W₁.fold W₂ rho = .ok W ∧
        shape.isSatisfiedLinearized S U W ck = .ok ()) ∧
    ∀ (s : ℕ) (incs : List (Incoming F C)), U₁.Sized shape s →
      (∀ inc ∈ incs, inc.Satisfied S shape ck s) →
      ∃ acc, incs.foldlM (foldStep shape) (U₁, W₁) = .ok acc ∧
        shape.isSatisfiedLinearized S acc.1 acc.2 ck = .ok () := by
  have hsat : LinearizedSatisfied S shape (U₁, W₁).1 (U₁, W₁).2 ck :=
    isSatisfiedLinearized_iff.mp h₁
  constructor
  · intro U₂ W₂ rho rs h₂ hrs
    have hlen : (U₁, W₁).1.rs.length = rs.length := hrs.symm
    obtain ⟨acc, hstep, hacc, -⟩ := foldStep_ccs hsat h₂ hlen rho
    obtain ⟨sigmas, hsigmas, hrest⟩ := bind_eq_ok.mp hstep
    obtain ⟨thetas, hthetas, hrest⟩ := bind_eq_ok.mp hrest
    obtain ⟨U, hU, hrest⟩ := bind_eq_ok.mp hrest
    obtain ⟨W, hW, heq⟩ := bind_eq_ok.mp hrest
    obtain rfl := Except.ok.inj heq
    exact ⟨sigmas, thetas, U, W, hsigmas, hthetas, hU, hW, isSatisfiedLinearized_iff.mpr hacc⟩
  · intro s incs hU₁ hincs
    have hU : (U₁, W₁).1.Sized shape s := hU₁
    obtain ⟨acc, hrun, hacc⟩ := folds_satisfied hsat hU hincs
    exact ⟨acc, hrun, isSatisfiedLinearized_iff.mpr hacc⟩

/-- The sum of the evaluations as a commitment. -/
def sumScheme : PolyCommitmentScheme (ZMod 3) (ZMod 3) Unit where
  commit p _ := p.Z.sum
  linear _ _ _ _ _ _ h := sum_comb h _ _

/-- Two constraints `z0 = 0` and `0 = 0`. -/
def rowShape : CCSShape (ZMod 3) where
  numConstraints := 2
  numVars := 1
  numIo := 1
  numMatrices := 1
  numMultisets := 1
  Ms := [⟨[1], [0], [0, 1, 1], 2⟩]
  cSs := [(1, [0])]
  numIo_pos := Nat.one_pos
  dims := by
    intro M hM
    rw [List.mem_singleton] at hM
    subst hM
    constructor <;> decide
  matrices := rfl
  multisets := rfl
  selectors := by decide

/-- Both square roots of `1`, folded with weight `2`. -/
theorem folding_preserves_square :
    (∃ sigmas thetas U W,
      evaluations (.ofR1CSShape R1cs.squareShape) [1, 1] [] = .ok sigmas ∧
      evaluations (.ofR1CSShape R1cs.squareShape) [1, 2] [] = .ok thetas ∧
      LCCSInstance.fold ⟨1, [1], [], [1, 1, 1]⟩ ⟨(2 : ZMod 3), [1]⟩ 2 [] sigmas thetas = .ok U ∧
      CCSWitness.fold ⟨[1]⟩ ⟨[2]⟩ 2 = .ok W ∧
      CCSShape.isSatisfiedLinearized sumScheme (.ofR1CSShape R1cs.squareShape) U W () =
        .ok ()) ∧
    ∃ acc, [.ccs ⟨(2 : ZMod 3), [1]⟩ ⟨[2]⟩ 2 [],
        .lccs ⟨1, [1], [], [1, 1, 1]⟩ ⟨[1]⟩ 1 []].foldlM
          (foldStep (.ofR1CSShape R1cs.squareShape)) (⟨1, [1], [], [1, 1, 1]⟩, ⟨[1]⟩) = .ok acc ∧
      CCSShape.isSatisfiedLinearized sumScheme (.ofR1CSShape R1cs.squareShape) acc.1 acc.2 () =
        .ok () := by
  have h := folding_preserves sumScheme (.ofR1CSShape R1cs.squareShape) () ⟨1, [1], [], [1, 1, 1]⟩
    ⟨[1]⟩ (by decide)
  constructor
  · exact h.1 ⟨2, [1]⟩ ⟨[2]⟩ 2 [] (by decide) rfl
  · apply h.2 0
    · exact ⟨rfl, rfl⟩
    · rw [List.forall_mem_cons, List.forall_mem_singleton]
      exact ⟨⟨rfl, by decide⟩, ⟨rfl, ⟨rfl, rfl⟩, by decide⟩⟩

end Folding

end Ccs

end NexusVm.Nova
