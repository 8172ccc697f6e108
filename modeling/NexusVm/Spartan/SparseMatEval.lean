import NexusVm.Spartan.ProductTree
import NexusVm.Spartan.Crr1csProof

/-!
# Evaluations of committed matrices

The verifier of `spartan/src/sparse_mlpoly.rs`: the values of the three matrices of a shape at one
point, from commitments to their entries, by memory checking.  The product layer only asserts; the
hash layer opens three commitments, and only these openings return errors.
-/

namespace NexusVm.Spartan

open Nova

section Types

variable {F C : Type} {T : Transcript F C} (PC : PolyCommitmentScheme F C T)

/-- `SparseMatPolyCommitmentKey`, with the same pairs of keys as a `CRR1CSKey`. -/
structure SparseMatPolyCommitmentKey where
  gensOps : CRR1CSKey PC
  gensMem : CRR1CSKey PC
  gensDerefs : CRR1CSKey PC

/-- `SparseMatPolyCommitment`. -/
structure SparseMatPolyCommitment (C : Type) where
  batchSize : ℕ
  numOps : ℕ
  numMemCells : ℕ
  commCombOps : C
  commCombMem : C

/-- `ProductLayerProof`: the values are those of the cells before, the reads, the writes and the
cells after. -/
structure ProductLayerProof (F : Type) where
  evalRow : F × List F × List F × F
  evalCol : F × List F × List F × F
  evalVal : List F × List F
  proofMem : ProductCircuitEvalProofBatched F
  proofOps : ProductCircuitEvalProofBatched F

/-- `HashLayerProof`: addresses, times of the reads and last times. -/
structure HashLayerProof where
  evalRow : List F × List F × F
  evalCol : List F × List F × F
  evalVal : List F
  evalDerefs : List F × List F
  proofOps : PC.PolyCommitmentProof
  proofMem : PC.PolyCommitmentProof
  proofDerefs : PC.PolyCommitmentProof

/-- `PolyEvalNetworkProof`. -/
structure PolyEvalNetworkProof where
  proofProdLayer : ProductLayerProof F
  proofHashLayer : HashLayerProof PC

/-- `SparseMatPolyEvalProof`. -/
structure SparseMatPolyEvalProof where
  commDerefs : C
  polyEvalNetworkProof : PolyEvalNetworkProof PC

end Types

section Model

variable {F C : Type} [Field F] {T : Transcript F C} {PC : PolyCommitmentScheme F C T}

/-- The labels of a joint opening: of the values, of the challenges and of the joint value. -/
structure JointLabels where
  evals : String
  challenges : String
  claim : String

/-- The labels of `DerefsEvalProof::verify_single`. -/
def derefsLabels : JointLabels :=
  ⟨"evals_ops_val", "challenge_combine_n_to_one", "joint_claim_eval"⟩

/-- The labels for the operations in `HashLayerProof::verify`. -/
def opsLabels : JointLabels :=
  ⟨"claim_evals_ops", "challenge_combine_n_to_one", "joint_claim_eval_ops"⟩

/-- The labels for the memory in `HashLayerProof::verify`. -/
def memLabels : JointLabels :=
  ⟨"claim_evals_mem", "challenge_combine_two_to_one", "joint_claim_eval_mem"⟩

/-- Values at one point are opened as one value of the joint polynomial. -/
def verifyJoint (labels : JointLabels) (comm : C) (proof : PC.PolyCommitmentProof)
    (vk : PC.EvalVerifierKey) (r evals : List F) (st : T.State) :
    Run ProofVerifyError T.State := do
  let numChallenges ← log2 evals.length
  let challenges := T.challengeVector (T.appendScalars st labels.evals evals) labels.challenges
    numChallenges
  let poly ← denseNew evals
  let bound ← challenges.1.reverse.foldlM boundPolyVarBot poly
  Run.assert (bound.Z.length = 1)
  let jointClaim := bound.Z.getD 0 0
  (PC.verify comm proof vk (T.appendScalar challenges.2 labels.claim jointClaim)
    (challenges.1 ++ r) jointClaim).mapError .polyCommitmentError

/-- `resize` to the next power of two. -/
def resizePow2 (evals : List F) : List F := padTo (Nova.nextPowerOfTwo evals.length) evals

/-- `DerefsEvalProof::verify`. -/
def verifyDerefs (proof : PC.PolyCommitmentProof) (r evalRow evalCol : List F)
    (vk : PC.EvalVerifierKey) (comm : C) (st : T.State) : Run ProofVerifyError T.State :=
  let st := T.appendProtocolName st "Derefs evaluation proof"
  verifyJoint derefsLabels comm proof vk r (resizePow2 (evalRow ++ evalCol)) st

/-- What is absorbed of the values for an axis. -/
def absorbAxis (axis : String) (evals : F × List F × List F × F) (st : T.State) : T.State :=
  let st := T.appendScalar st ("claim_" ++ axis ++ "_eval_init") evals.1
  let st := T.appendScalars st ("claim_" ++ axis ++ "_eval_read") evals.2.1
  let st := T.appendScalars st ("claim_" ++ axis ++ "_eval_write") evals.2.2.1
  T.appendScalar st ("claim_" ++ axis ++ "_eval_audit") evals.2.2.2

/-- The values that a proof of the product layer is about, in pairs. -/
def dotpClaims (left right : List F) (n : ℕ) : List F :=
  (List.range n).flatMap fun i => [left.getD i 0, right.getD i 0]

variable [DecidableEq F]

/-- The subset check for an axis: what is read is what is written. -/
def verifySubset {E : Type} (axis : String) (numInstances : ℕ) (evals : F × List F × List F × F)
    (st : T.State) : Run E T.State := do
  Run.assert (evals.2.2.1.length = numInstances)
  Run.assert (evals.2.1.length = numInstances)
  Run.assert (evals.1 * evals.2.2.1.prod = evals.2.1.prod * evals.2.2.2)
  .ok (absorbAxis axis evals st)

/-- `ProductLayerProof::verify`: what the products over the memory and over the operations leave. -/
def ProductLayerProof.verify {E : Type} (proof : ProductLayerProof F) (numOps numCells : ℕ)
    (eval : List F) (st : T.State) : Run E (LayerState T × LayerState T) := do
  let st := T.appendProtocolName st "Sparse polynomial product layer proof"
  let st ← verifySubset "row" eval.length proof.evalRow st
  let st ← verifySubset "col" eval.length proof.evalCol st
  Run.assert (proof.evalVal.1.length = eval.length)
  -- the indices of the right values
  Run.assert (eval.length ≤ proof.evalVal.2.length)
  Run.assert (∀ i < eval.length,
    proof.evalVal.1.getD i 0 + proof.evalVal.2.getD i 0 = eval.getD i 0)
  let st := absorbPairs "claim_eval_dotp_left" "claim_eval_dotp_right" proof.evalVal.1
    proof.evalVal.2 st
  let ops ← proof.proofOps.verify
    (proof.evalRow.2.1 ++ proof.evalRow.2.2.1 ++ proof.evalCol.2.1 ++ proof.evalCol.2.2.1)
    (dotpClaims proof.evalVal.1 proof.evalVal.2 eval.length) numOps st
  let mem ← proof.proofMem.verify
    [proof.evalRow.1, proof.evalRow.2.2.2, proof.evalCol.1, proof.evalCol.2.2.2] [] numCells ops.st
  .ok (mem, ops)

/-- `IdentityPolynomial::evaluate`; its size is the length of the point. -/
def identityValue (r : List F) : F :=
  ((List.range r.length).map fun i => ((2 ^ (r.length - i - 1) : ℕ) : F) * r.getD i 0).sum

/-- `EqPolynomial::evaluate`. -/
def eqEvaluate {E : Type} (r rx : List F) : Run E F := do
  Run.assert (r.length = rx.length)
  .ok (eqValue r rx)

/-- The hash of an address, a value and a time, less the challenge of the check. -/
def hashFunc (rMemCheck : F × F) (addr val ts : F) : F :=
  ts * rMemCheck.1 ^ 2 + val * rMemCheck.1 + addr - rMemCheck.2

/-- The hashes of the operations of an axis; a write is one step later than its read. -/
def opsHash (rMemCheck : F × F) (opsAddr opsVal readTs : List F) (later : F) (i : ℕ) : F :=
  hashFunc rMemCheck (opsAddr.getD i 0) (opsVal.getD i 0) (readTs.getD i 0 + later)

/-- `HashLayerProof::verify_helper`: the claims are those of the cells before, the reads, the writes
and the cells after. -/
def verifyHelper {E : Type} (randMem : List F) (claims : F × List F × List F × F) (opsVal : List F)
    (eval : List F × List F × F) (r : List F) (rMemCheck : F × F) : Run E Unit := do
  let initAddr := identityValue randMem
  let initVal ← eqEvaluate r randMem
  Run.assert (hashFunc rMemCheck initAddr initVal 0 = claims.1)
  -- the indices of the reads
  Run.assert (eval.1.length ≤ opsVal.length ∧ eval.1.length ≤ eval.2.1.length ∧
    eval.1.length ≤ claims.2.1.length)
  Run.assert (∀ i < eval.1.length,
    opsHash rMemCheck eval.1 opsVal eval.2.1 0 i = claims.2.1.getD i 0)
  -- the indices of the writes
  Run.assert (eval.1.length ≤ claims.2.2.1.length)
  Run.assert (∀ i < eval.1.length,
    opsHash rMemCheck eval.1 opsVal eval.2.1 1 i = claims.2.2.1.getD i 0)
  Run.assert (hashFunc rMemCheck initAddr initVal eval.2.2 = claims.2.2.2)

/-- The values at the point of the operations, as they are committed to. -/
def HashLayerProof.evalsOps (proof : HashLayerProof PC) : List F :=
  resizePow2 (proof.evalRow.1 ++ proof.evalRow.2.1 ++ proof.evalCol.1 ++ proof.evalCol.2.1 ++
    proof.evalVal)

/-- The claims of the dot products, against what the hash layer opens. -/
def verifyDotp {E : Type} (proof : HashLayerProof PC) (claimsDotp : List F) : Run E Unit := do
  Run.assert (claimsDotp.length = 3 * proof.evalDerefs.1.length)
  -- the indices of the columns and of the entries
  Run.assert (claimsDotp.length / 3 ≤ proof.evalDerefs.2.length ∧
    claimsDotp.length / 3 ≤ proof.evalVal.length)
  Run.assert (∀ i < claimsDotp.length / 3,
    claimsDotp.getD (3 * i) 0 = proof.evalDerefs.1.getD i 0 ∧
    claimsDotp.getD (3 * i + 1) 0 = proof.evalDerefs.2.getD i 0 ∧
    claimsDotp.getD (3 * i + 2) 0 = proof.evalVal.getD i 0)

/-- `HashLayerProof::verify`. -/
def HashLayerProof.verify (proof : HashLayerProof PC) (randMem randOps : List F)
    (claimsRow claimsCol : F × List F × List F × F) (claimsDotp : List F)
    (comm : SparseMatPolyCommitment C) (gens : SparseMatPolyCommitmentKey PC) (commDerefs : C)
    (rx ry : List F) (rMemCheck : F × F) (st : T.State) : Run ProofVerifyError T.State := do
  let st := T.appendProtocolName st "Sparse polynomial hash layer proof"
  Run.assert (proof.evalDerefs.1.length = proof.evalDerefs.2.length)
  let st ← verifyDerefs proof.proofDerefs randOps proof.evalDerefs.1 proof.evalDerefs.2
    gens.gensDerefs.vk commDerefs st
  verifyDotp proof claimsDotp
  let st ← verifyJoint opsLabels comm.commCombOps proof.proofOps gens.gensOps.vk randOps
    proof.evalsOps st
  let st ← verifyJoint memLabels comm.commCombMem proof.proofMem gens.gensMem.vk randMem
    [proof.evalRow.2.2, proof.evalCol.2.2] st
  verifyHelper randMem claimsRow proof.evalDerefs.1 proof.evalRow rx rMemCheck
  verifyHelper randMem claimsCol proof.evalDerefs.2 proof.evalCol ry rMemCheck
  .ok st

/-! ## The whole evaluation, what a proof has to meet and the product layer -/

/-- The claims for an axis: of two entries for the memory, and of the reads and writes. -/
def axisClaims (mem ops : List F) (axis numInstances : ℕ) : F × List F × List F × F :=
  (mem.getD (2 * axis) 0, (ops.drop (2 * axis * numInstances)).take numInstances,
    (ops.drop ((2 * axis + 1) * numInstances)).take numInstances, mem.getD (2 * axis + 1) 0)

/-- `PolyEvalNetworkProof::verify`. -/
def PolyEvalNetworkProof.verify (proof : PolyEvalNetworkProof PC)
    (comm : SparseMatPolyCommitment C) (commDerefs : C) (evals : List F)
    (gens : SparseMatPolyCommitmentKey PC) (rx ry : List F) (rMemCheck : F × F) (nz : ℕ)
    (st : T.State) : Run ProofVerifyError T.State := do
  let st := T.appendProtocolName st "Sparse polynomial evaluation proof"
  Run.assert (rx.length = ry.length)
  let out ← proof.proofProdLayer.verify (Nova.nextPowerOfTwo nz) (2 ^ rx.length) evals st
  Run.assert (out.1.claims.length = 4)
  Run.assert (out.2.claims.length = 4 * evals.length)
  Run.assert (out.2.claimsDotp.length = 3 * evals.length)
  proof.proofHashLayer.verify out.1.rand out.2.rand
    (axisClaims out.1.claims out.2.claims 0 evals.length)
    (axisClaims out.1.claims out.2.claims 1 evals.length) out.2.claimsDotp comm gens commDerefs
    rx ry rMemCheck out.1.st

/-- `SparseMatPolyEvalProof::equalize`: zeros before the shorter point. -/
def equalize (rx ry : List F) : List F × List F :=
  (List.replicate (ry.length - rx.length) 0 ++ rx, List.replicate (rx.length - ry.length) 0 ++ ry)

/-- `DerefsCommitment::append_to_transcript`. -/
def absorbDerefs (comm : C) (st : T.State) : T.State :=
  let st := T.appendMessage st "derefs_commitment" (.bytes "begin_derefs_commitment")
  let st := T.appendPoint st "comm_poly_row_col_ops_val" comm
  T.appendMessage st "derefs_commitment" (.bytes "end_derefs_commitment")

/-- `SparseMatPolyEvalProof::verify`. -/
def SparseMatPolyEvalProof.verify (proof : SparseMatPolyEvalProof PC)
    (comm : SparseMatPolyCommitment C) (rx ry evals : List F)
    (gens : SparseMatPolyCommitmentKey PC) (st : T.State) : Run ProofVerifyError T.State := do
  let st := T.appendProtocolName st "Sparse polynomial evaluation proof"
  let points := equalize rx ry
  Run.assert (2 ^ points.1.length = comm.numMemCells)
  let rHash := T.challengeScalar (absorbDerefs proof.commDerefs st) "challenge_r_hash"
  let rMultiset := T.challengeScalar rHash.2 "challenge_r_hash"
  proof.polyEvalNetworkProof.verify comm proof.commDerefs evals gens points.1 points.2
    (rHash.1, rMultiset.1) comm.numOps rMultiset.2

/-- A point, a value there and the transcript before the opening. -/
structure Opening {F C : Type} (T : Transcript F C) where
  point : List F
  value : F
  st : T.State

/-- The opening of a joint value. -/
def jointOpening (labels : JointLabels) (r evals : List F) (st : T.State) : Opening T :=
  let challenges := T.challengeVector (T.appendScalars st labels.evals evals) labels.challenges
    (Nat.clog 2 evals.length)
  let value := (challenges.1.reverse.foldl boundBot evals).getD 0 0
  ⟨challenges.1 ++ r, value, T.appendScalar challenges.2 labels.claim value⟩

/-- The scheme's verifier on an opening. -/
def Opening.verify (opening : Opening T) (comm : C) (proof : PC.PolyCommitmentProof)
    (vk : PC.EvalVerifierKey) : Run PCSError T.State :=
  PC.verify comm proof vk opening.st opening.point opening.value

variable {E : Type}

omit [DecidableEq F] in
/-- A table of a power of two is bound to one entry. -/
theorem foldlM_boundPolyVarBot (rs : List F) {Z : List F} (hZ : Z.length = 2 ^ rs.length) :
    (rs.foldlM boundPolyVarBot ⟨rs.length, Z⟩ : Run E _) = .ok ⟨0, rs.foldl boundBot Z⟩ ∧
      (rs.foldl boundBot Z).length = 1 := by
  induction rs generalizing Z with
  | nil => exact ⟨rfl, hZ⟩
  | cons r rs ih =>
      obtain ⟨hrun, hlen⟩ := ih (length_boundBot hZ r)
      constructor
      · rw [List.foldlM_cons]
        exact bind_eq_ok.mpr ⟨_, boundPolyVarBot_eq (Nat.succ_pos _) r, hrun⟩
      · exact hlen

omit [DecidableEq F] in
/-- **A joint opening** of a power of two of values does not fail before the scheme's verifier. -/
theorem verifyJoint_safe_iff (labels : JointLabels) (comm : C) (proof : PC.PolyCommitmentProof)
    (vk : PC.EvalVerifierKey) (r : List F) {evals : List F} {n : ℕ} (h : evals.length = 2 ^ n)
    (st : T.State) {P : T.State → Prop} : (verifyJoint labels comm proof vk r evals st).Safe P ↔
      ((jointOpening labels r evals st).verify comm proof vk).Safe P := by
  have hpos := Nat.two_pow_pos n
  have hlog : (log2 evals.length : Run ProofVerifyError ℕ) = .ok (Nat.clog 2 evals.length) :=
    log2_eq_ok.mpr ⟨by omega, rfl⟩
  have hlen : (T.challengeVector (T.appendScalars st labels.evals evals) labels.challenges
      (Nat.clog 2 evals.length)).1.reverse.length = n := by
    rw [List.length_reverse, T.length_challengeVector, h, clog_two_pow]
  obtain ⟨hfold, hone⟩ := foldlM_boundPolyVarBot (E := ProofVerifyError)
    (T.challengeVector (T.appendScalars st labels.evals evals) labels.challenges
      (Nat.clog 2 evals.length)).1.reverse (Z := evals) (by rw [hlen, h])
  rw [hlen] at hfold
  have hassert : (Run.assert _ : Run ProofVerifyError Unit) = .ok () := assert_eq_ok.mpr hone
  exact (safe_bind_of_eq_ok hlog).trans ((safe_bind_of_eq_ok (denseNew_eq h)).trans
    ((safe_bind_of_eq_ok hfold).trans ((safe_bind_of_eq_ok hassert).trans safe_mapError_iff)))

omit [DecidableEq F] in
theorem length_resizePow2 (evals : List F) : ∃ n, (resizePow2 evals).length = 2 ^ n := by
  obtain ⟨n, hn⟩ := nextPowerOfTwo_eq evals.length
  refine ⟨n, ?_⟩
  rw [resizePow2, length_padTo (le_nextPowerOfTwo _), hn]

/-- The subset check for an axis. -/
structure SubsetHolds (numInstances : ℕ) (evals : F × List F × List F × F) : Prop where
  write : evals.2.2.1.length = numInstances
  read : evals.2.1.length = numInstances
  products : evals.1 * evals.2.2.1.prod = evals.2.1.prod * evals.2.2.2

theorem verifySubset_guarded (axis : String) (numInstances : ℕ) (evals : F × List F × List F × F)
    (st : T.State) :
    Run.Guarded (verifySubset axis numInstances evals st : Run E _)
      (SubsetHolds numInstances evals) (absorbAxis axis evals st) :=
  Run.Guarded.congr ((Run.Guarded.assert _).bind fun _ => (Run.Guarded.assert _).bind fun _ =>
    (Run.Guarded.assert _).bind fun _ => Run.Guarded.ok _)
    ⟨fun h => ⟨h.1, h.2.1, h.2.2.1⟩, fun h => ⟨h.write, h.read, h.products, trivial⟩⟩ fun _ => rfl

namespace ProductLayerProof

/-- The products over the operations. -/
def opsClaims (proof : ProductLayerProof F) : List F :=
  proof.evalRow.2.1 ++ proof.evalRow.2.2.1 ++ proof.evalCol.2.1 ++ proof.evalCol.2.2.1

/-- The products over the memory. -/
def memClaims (proof : ProductLayerProof F) : List F :=
  [proof.evalRow.1, proof.evalRow.2.2.2, proof.evalCol.1, proof.evalCol.2.2.2]

/-- The transcript before the products. -/
def absorbed (proof : ProductLayerProof F) (st : T.State) : T.State :=
  let st := T.appendProtocolName st "Sparse polynomial product layer proof"
  let st := absorbAxis "col" proof.evalCol (absorbAxis "row" proof.evalRow st)
  absorbPairs "claim_eval_dotp_left" "claim_eval_dotp_right" proof.evalVal.1 proof.evalVal.2 st

/-- What the products over the operations leave for `n` instances. -/
def opsPath (proof : ProductLayerProof F) (n : ℕ) (st : T.State) : LayerState T :=
  proof.proofOps.path proof.opsClaims (dotpClaims proof.evalVal.1 proof.evalVal.2 n)
    (proof.absorbed st)

/-- What the products over the memory leave. -/
def memPath (proof : ProductLayerProof F) (n : ℕ) (st : T.State) : LayerState T :=
  proof.proofMem.path proof.memClaims [] (proof.opsPath n st).st

/-- What a product layer has to meet. -/
structure Holds (proof : ProductLayerProof F) (numOps numCells : ℕ) (eval : List F)
    (st : T.State) : Prop where
  row : SubsetHolds eval.length proof.evalRow
  col : SubsetHolds eval.length proof.evalCol
  left : proof.evalVal.1.length = eval.length
  right : eval.length ≤ proof.evalVal.2.length
  values : ∀ i < eval.length,
    proof.evalVal.1.getD i 0 + proof.evalVal.2.getD i 0 = eval.getD i 0
  ops : proof.proofOps.Holds proof.opsClaims
    (dotpClaims proof.evalVal.1 proof.evalVal.2 eval.length) numOps (proof.absorbed st)
  mem : proof.proofMem.Holds proof.memClaims [] numCells (proof.opsPath eval.length st).st

theorem verify_guarded {E : Type} (proof : ProductLayerProof F) (numOps numCells : ℕ)
    (eval : List F) (st : T.State) :
    Run.Guarded (proof.verify numOps numCells eval st : Run E _)
      (proof.Holds numOps numCells eval st)
      (proof.memPath eval.length st, proof.opsPath eval.length st) := by
  refine Run.Guarded.congr ((verifySubset_guarded _ _ _ _).bind fun _ =>
    (verifySubset_guarded _ _ _ _).bind fun _ => (Run.Guarded.assert _).bind fun _ =>
    (Run.Guarded.assert _).bind fun _ => (Run.Guarded.assert _).bind fun _ =>
    (ProductCircuitEvalProofBatched.verify_guarded _ _ _ _ _).bind fun _ =>
    (ProductCircuitEvalProofBatched.verify_guarded _ _ _ _ _).bind fun _ =>
    Run.Guarded.ok _) ?_ fun _ => rfl
  constructor
  · rintro ⟨hrow, hcol, hleft, hright, hvalues, hops, hmem, -⟩
    exact ⟨hrow, hcol, hleft, hright, hvalues, hops, hmem⟩
  · intro h
    exact ⟨h.row, h.col, h.left, h.right, h.values, h.ops, h.mem, trivial⟩

omit [DecidableEq F] in
/-- The lengths that the product layer leaves. -/
theorem Holds.lengths {proof : ProductLayerProof F} {numOps numCells : ℕ} {eval : List F}
    {st : T.State} (h : proof.Holds numOps numCells eval st) :
    (proof.memPath eval.length st).claims.length = 4 ∧
      (proof.memPath eval.length st).rand.length = Nat.clog 2 numCells ∧
      (proof.opsPath eval.length st).claims.length = 4 * eval.length := by
  have hops : proof.opsClaims.length = 4 * eval.length := by
    simp only [opsClaims, List.length_append, h.row.read, h.row.write, h.col.read, h.col.write]
    omega
  exact ⟨h.mem.fits.claims, h.mem.fits.rand, h.ops.fits.claims.trans hops⟩

end ProductLayerProof

/-! ## The hash layer, the whole evaluation and the argument of knowledge -/

/-- The claims for an axis are the hashes at the point; a write is one step after its read. -/
structure HelperHolds (randMem : List F) (claims : F × List F × List F × F) (opsVal : List F)
    (eval : List F × List F × F) (r : List F) (rMemCheck : F × F) : Prop where
  init : hashFunc rMemCheck (identityValue randMem) (eqValue r randMem) 0 = claims.1
  readLengths : eval.1.length ≤ opsVal.length ∧ eval.1.length ≤ eval.2.1.length ∧
    eval.1.length ≤ claims.2.1.length
  reads : ∀ i < eval.1.length,
    opsHash rMemCheck eval.1 opsVal eval.2.1 0 i = claims.2.1.getD i 0
  writeLengths : eval.1.length ≤ claims.2.2.1.length
  writes : ∀ i < eval.1.length,
    opsHash rMemCheck eval.1 opsVal eval.2.1 1 i = claims.2.2.1.getD i 0
  audit : hashFunc rMemCheck (identityValue randMem) (eqValue r randMem) eval.2.2 = claims.2.2.2

theorem verifyHelper_guarded {randMem : List F} (claims : F × List F × List F × F) (opsVal : List F)
    (eval : List F × List F × F) {r : List F} (rMemCheck : F × F) (h : r.length = randMem.length) :
    Run.Guarded (verifyHelper randMem claims opsVal eval r rMemCheck : Run E Unit)
      (HelperHolds randMem claims opsVal eval r rMemCheck) () := by
  have heq : Run.Guarded (eqEvaluate r randMem : Run E F) True (eqValue r randMem) :=
    Run.Guarded.congr ((Run.Guarded.assert _).bind fun _ => Run.Guarded.ok _)
      (iff_of_true ⟨h, trivial⟩ trivial) fun _ => rfl
  refine Run.Guarded.congr (heq.bind fun _ => (Run.Guarded.assert _).bind fun _ =>
    (Run.Guarded.assert _).bind fun _ => (Run.Guarded.assert _).bind fun _ =>
    (Run.Guarded.assert _).bind fun _ => (Run.Guarded.assert _).bind fun _ =>
    Run.Guarded.assert _) ?_ fun _ => rfl
  constructor
  · rintro ⟨-, hinit, hreadLengths, hreads, hwriteLengths, hwrites, haudit⟩
    exact ⟨hinit, hreadLengths, hreads, hwriteLengths, hwrites, haudit⟩
  · intro h
    exact ⟨trivial, h.init, h.readLengths, h.reads, h.writeLengths, h.writes, h.audit⟩

/-- The claims of the dot products are the values that are opened. -/
structure DotpHolds (proof : HashLayerProof PC) (claimsDotp : List F) : Prop where
  length : claimsDotp.length = 3 * proof.evalDerefs.1.length
  entries : proof.evalDerefs.1.length ≤ proof.evalDerefs.2.length ∧
    proof.evalDerefs.1.length ≤ proof.evalVal.length
  values : ∀ i < proof.evalDerefs.1.length,
    claimsDotp.getD (3 * i) 0 = proof.evalDerefs.1.getD i 0 ∧
    claimsDotp.getD (3 * i + 1) 0 = proof.evalDerefs.2.getD i 0 ∧
    claimsDotp.getD (3 * i + 2) 0 = proof.evalVal.getD i 0

theorem verifyDotp_guarded (proof : HashLayerProof PC) (claimsDotp : List F) :
    Run.Guarded (verifyDotp proof claimsDotp : Run E Unit) (DotpHolds proof claimsDotp) () := by
  refine Run.Guarded.congr ((Run.Guarded.assert _).bind fun _ => (Run.Guarded.assert _).bind
    fun _ => Run.Guarded.assert _) ?_ fun _ => rfl
  constructor
  · rintro ⟨hlength, hentries, hvalues⟩
    rw [hlength, Nat.mul_div_cancel_left _ three_pos] at hentries hvalues
    exact ⟨hlength, hentries, hvalues⟩
  · intro h
    rw [h.length, Nat.mul_div_cancel_left _ three_pos]
    exact ⟨rfl, h.entries, h.values⟩

namespace HashLayerProof

/-- The opening of what the operations read. -/
def derefsOpening (proof : HashLayerProof PC) (randOps : List F) (st : T.State) : Opening T :=
  let st := T.appendProtocolName st "Sparse polynomial hash layer proof"
  jointOpening derefsLabels randOps (resizePow2 (proof.evalDerefs.1 ++ proof.evalDerefs.2))
    (T.appendProtocolName st "Derefs evaluation proof")

/-- What a hash layer has to meet; a check is made only if the openings before it are accepted. -/
def Holds (proof : HashLayerProof PC) (randMem randOps : List F)
    (claimsRow claimsCol : F × List F × List F × F) (claimsDotp : List F)
    (comm : SparseMatPolyCommitment C) (gens : SparseMatPolyCommitmentKey PC) (commDerefs : C)
    (rx ry : List F) (rMemCheck : F × F) (st : T.State) : Prop :=
  proof.evalDerefs.1.length = proof.evalDerefs.2.length ∧
  ((proof.derefsOpening randOps st).verify commDerefs proof.proofDerefs gens.gensDerefs.vk).Safe
    fun st => DotpHolds proof claimsDotp ∧
    ((jointOpening opsLabels randOps proof.evalsOps st).verify comm.commCombOps proof.proofOps
      gens.gensOps.vk).Safe fun st =>
    ((jointOpening memLabels randMem [proof.evalRow.2.2, proof.evalCol.2.2] st).verify
      comm.commCombMem proof.proofMem gens.gensMem.vk).Safe fun _ =>
    HelperHolds randMem claimsRow proof.evalDerefs.1 proof.evalRow rx rMemCheck ∧
    HelperHolds randMem claimsCol proof.evalDerefs.2 proof.evalCol ry rMemCheck

/-- **The hash layer** panics only where it has something to meet. -/
theorem verify_ne_panic_iff (proof : HashLayerProof PC) {randMem : List F} (randOps : List F)
    (claimsRow claimsCol : F × List F × List F × F) (claimsDotp : List F)
    (comm : SparseMatPolyCommitment C) (gens : SparseMatPolyCommitmentKey PC) (commDerefs : C)
    {rx ry : List F} (hx : rx.length = randMem.length) (hy : ry.length = randMem.length)
    (rMemCheck : F × F) (st : T.State) :
    proof.verify randMem randOps claimsRow claimsCol claimsDotp comm gens commDerefs rx ry
        rMemCheck st ≠ .error .panic ↔
      proof.Holds randMem randOps claimsRow claimsCol claimsDotp comm gens commDerefs rx ry
        rMemCheck st := by
  obtain ⟨n, hderefs⟩ := length_resizePow2 (proof.evalDerefs.1 ++ proof.evalDerefs.2)
  obtain ⟨m, hops⟩ := length_resizePow2 (proof.evalRow.1 ++ proof.evalRow.2.1 ++ proof.evalCol.1 ++
    proof.evalCol.2.1 ++ proof.evalVal)
  have htail : ∀ st : T.State, Run.Safe (do
        verifyHelper randMem claimsRow proof.evalDerefs.1 proof.evalRow rx rMemCheck
        verifyHelper randMem claimsCol proof.evalDerefs.2 proof.evalCol ry rMemCheck
        .ok st : Run ProofVerifyError T.State) (fun _ => True) ↔
      HelperHolds randMem claimsRow proof.evalDerefs.1 proof.evalRow rx rMemCheck ∧
        HelperHolds randMem claimsCol proof.evalDerefs.2 proof.evalCol ry rMemCheck := by
    intro st
    rw [(verifyHelper_guarded _ _ _ _ hx).safe_bind_iff,
      (verifyHelper_guarded _ _ _ _ hy).safe_bind_iff, safe_ok_iff, and_true]
  rw [← safe_true_iff]
  refine safe_assert_bind_iff.trans (and_congr_right fun _ => ?_)
  rw [safe_bind_iff]
  refine (verifyJoint_safe_iff _ _ _ _ _ hderefs _).trans (Run.Safe.congr fun st => ?_)
  refine (verifyDotp_guarded _ _).safe_bind_iff.trans (and_congr_right fun _ => ?_)
  rw [safe_bind_iff]
  refine (verifyJoint_safe_iff _ _ _ _ _ hops _).trans (Run.Safe.congr fun st => ?_)
  rw [safe_bind_iff]
  exact (verifyJoint_safe_iff _ _ _ _ _ (n := 1) rfl _).trans (Run.Safe.congr htail)

end HashLayerProof

/-- What a network has to meet. -/
structure PolyEvalNetworkProof.Holds (proof : PolyEvalNetworkProof PC)
    (comm : SparseMatPolyCommitment C) (commDerefs : C) (evals : List F)
    (gens : SparseMatPolyCommitmentKey PC) (rx ry : List F) (rMemCheck : F × F) (nz : ℕ)
    (st : T.State) : Prop where
  prod : proof.proofProdLayer.Holds (Nova.nextPowerOfTwo nz) (2 ^ rx.length) evals st
  claimsDotp : (proof.proofProdLayer.opsPath evals.length st).claimsDotp.length = 3 * evals.length
  hash : proof.proofHashLayer.Holds (proof.proofProdLayer.memPath evals.length st).rand
    (proof.proofProdLayer.opsPath evals.length st).rand
    (axisClaims (proof.proofProdLayer.memPath evals.length st).claims
      (proof.proofProdLayer.opsPath evals.length st).claims 0 evals.length)
    (axisClaims (proof.proofProdLayer.memPath evals.length st).claims
      (proof.proofProdLayer.opsPath evals.length st).claims 1 evals.length)
    (proof.proofProdLayer.opsPath evals.length st).claimsDotp comm gens commDerefs rx ry rMemCheck
    (proof.proofProdLayer.memPath evals.length st).st

theorem PolyEvalNetworkProof.verify_ne_panic_iff (proof : PolyEvalNetworkProof PC)
    (comm : SparseMatPolyCommitment C) (commDerefs : C) (evals : List F)
    (gens : SparseMatPolyCommitmentKey PC) {rx ry : List F} (hlen : rx.length = ry.length)
    (rMemCheck : F × F) (nz : ℕ) (st : T.State) :
    proof.verify comm commDerefs evals gens rx ry rMemCheck nz st ≠ .error .panic ↔
      proof.Holds comm commDerefs evals gens rx ry rMemCheck nz
        (T.appendProtocolName st "Sparse polynomial evaluation proof") := by
  rw [← safe_true_iff]
  refine safe_assert_bind_iff.trans ((and_iff_right hlen).trans
    ((ProductLayerProof.verify_guarded _ _ _ _ _).safe_bind_iff.trans ?_))
  constructor
  · rintro ⟨hprod, hrest⟩
    obtain ⟨hmem, hrand, hops⟩ := hprod.lengths
    rw [clog_two_pow] at hrand
    have hdotp := (safe_assert_bind_iff.mp (safe_assert_bind_iff.mp hrest).2).2
    rw [safe_assert_bind_iff, safe_true_iff, HashLayerProof.verify_ne_panic_iff _ _ _ _ _ _ _ _
      hrand.symm (hlen.symm.trans hrand.symm)] at hdotp
    exact ⟨hprod, hdotp.1, hdotp.2⟩
  · intro h
    obtain ⟨hmem, hrand, hops⟩ := h.prod.lengths
    rw [clog_two_pow] at hrand
    refine ⟨h.prod, safe_assert_bind_iff.mpr ⟨hmem, safe_assert_bind_iff.mpr ⟨hops, ?_⟩⟩⟩
    rw [safe_assert_bind_iff, safe_true_iff, HashLayerProof.verify_ne_panic_iff _ _ _ _ _ _ _ _
      hrand.symm (hlen.symm.trans hrand.symm)]
    exact ⟨h.claimsDotp, h.hash⟩

/-- The challenges of the memory check, and the transcript after them. -/
def SparseMatPolyEvalProof.memCheck (proof : SparseMatPolyEvalProof PC) (st : T.State) :
    (F × F) × T.State :=
  let st := T.appendProtocolName st "Sparse polynomial evaluation proof"
  let rHash := T.challengeScalar (absorbDerefs proof.commDerefs st) "challenge_r_hash"
  let rMultiset := T.challengeScalar rHash.2 "challenge_r_hash"
  ((rHash.1, rMultiset.1), rMultiset.2)

/-- What an evaluation has to meet. -/
structure SparseMatPolyEvalProof.Holds (proof : SparseMatPolyEvalProof PC)
    (comm : SparseMatPolyCommitment C) (rx ry evals : List F)
    (gens : SparseMatPolyCommitmentKey PC) (st : T.State) : Prop where
  cells : 2 ^ max rx.length ry.length = comm.numMemCells
  network : proof.polyEvalNetworkProof.Holds comm proof.commDerefs evals gens (equalize rx ry).1
    (equalize rx ry).2 (proof.memCheck st).1 comm.numOps
    (T.appendProtocolName (proof.memCheck st).2 "Sparse polynomial evaluation proof")

omit [DecidableEq F] in
theorem length_equalize (rx ry : List F) : (equalize rx ry).1.length = max rx.length ry.length ∧
    (equalize rx ry).2.length = max rx.length ry.length := by
  rw [equalize, List.length_append, List.length_append, List.length_replicate,
    List.length_replicate]
  omega

/-- **The verifier of an evaluation.** -/
theorem SparseMatPolyEvalProof.verify_ne_panic_iff (proof : SparseMatPolyEvalProof PC)
    (comm : SparseMatPolyCommitment C) (rx ry evals : List F)
    (gens : SparseMatPolyCommitmentKey PC) (st : T.State) :
    proof.verify comm rx ry evals gens st ≠ .error .panic ↔
      proof.Holds comm rx ry evals gens st := by
  obtain ⟨hx, hy⟩ := length_equalize rx ry
  have hnetwork := proof.polyEvalNetworkProof.verify_ne_panic_iff comm proof.commDerefs evals gens
    (hx.trans hy.symm) (proof.memCheck st).1 comm.numOps (proof.memCheck st).2
  rw [← safe_true_iff]
  refine safe_assert_bind_iff.trans ?_
  rw [hx, safe_true_iff]
  constructor
  · exact fun h => ⟨h.1, hnetwork.mp h.2⟩
  · exact fun h => ⟨h.cells, hnetwork.mpr h.network⟩

end Model

section Snark

variable {F C : Type} {T : Transcript F C} (PC : PolyCommitmentScheme F C T)

/-- `R1CSCommitment`, and `ComputationCommitment` around it. -/
structure R1CSCommitment (C : Type) where
  numCons : ℕ
  numVars : ℕ
  numInputs : ℕ
  comm : SparseMatPolyCommitment C

/-- `CRSNARKKey`. -/
structure CRSNARKKey where
  gensR1csSat : CRR1CSKey PC
  gensR1csEval : SparseMatPolyCommitmentKey PC

/-- `SNARK` of `committed_relaxed_snark.rs`. -/
structure SNARK where
  r1csSatProof : CRR1CSProof PC
  instEvals : F × F × F
  r1csEvalProof : SparseMatPolyEvalProof PC

variable {PC}

/-- `R1CSCommitment::append_to_transcript`. -/
def R1CSCommitment.appendToTranscript (T : Transcript F C) (comm : R1CSCommitment C)
    (st : T.State) : T.State :=
  let st := T.appendU64 st "num_cons" comm.numCons
  let st := T.appendU64 st "num_vars" comm.numVars
  let st := T.appendU64 st "num_inputs" comm.numInputs
  let st := T.appendU64 st "batch_size" comm.comm.batchSize
  let st := T.appendU64 st "num_ops" comm.comm.numOps
  let st := T.appendU64 st "num_mem_cells" comm.comm.numMemCells
  let st := T.appendPoint st "comm_comb_ops" comm.comm.commCombOps
  T.appendPoint st "comm_comb_mem" comm.comm.commCombMem

/-- What is absorbed of the evaluations between the two proofs. -/
def absorbEvals (T : Transcript F C) (evals : F × F × F) (st : T.State) : T.State :=
  let st := T.appendScalar st "Ar_claim" evals.1
  let st := T.appendScalar st "Ar_claim" evals.2.1
  T.appendScalar st "Ar_claim" evals.2.2

/-- `SNARK::verify`; the evaluations are verified by `R1CSEvalProof::verify`. -/
def SNARK.verify [Field F] [DecidableEq F] (proof : SNARK PC) (comm : R1CSCommitment C)
    (inst : CRR1CSInstance F C) (st : T.State) (key : CRSNARKKey PC) :
    Run ProofVerifyError T.State := do
  let st := T.appendProtocolName st "Spartan SNARK proof"
  let st := comm.appendToTranscript T st
  Run.assert (inst.input.length = comm.numInputs)
  let out ← proof.r1csSatProof.verify comm.numVars comm.numCons inst proof.instEvals st
    key.gensR1csSat.vk
  proof.r1csEvalProof.verify comm.comm out.1 out.2.1
    [proof.instEvals.1, proof.instEvals.2.1, proof.instEvals.2.2] key.gensR1csEval
    (absorbEvals T proof.instEvals out.2.2)

end Snark

end NexusVm.Spartan
