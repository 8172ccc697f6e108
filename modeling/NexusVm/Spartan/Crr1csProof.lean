import NexusVm.Spartan.Sumcheck
import NexusVm.Spartan.SparseMlpoly

/-!
# Proofs of committed relaxed R1CS

`spartan/src/crr1csproof.rs` and `crr1cs.rs`, with the padding of `committed_relaxed_snark.rs`: two
sumchecks reduce a pair to one opening of the witness and one of the error vector, both with the
same key.
-/

namespace NexusVm.Spartan

open Nova

/-- `PolyCommitmentScheme`; only `verify` returns errors. -/
structure PolyCommitmentScheme (F C : Type) (T : Transcript F C) where
  SRS : Type
  PolyCommitmentKey : Type
  EvalVerifierKey : Type
  PolyCommitmentProof : Type
  commit : DensePolynomial F → PolyCommitmentKey → Run Empty C
  prove : Option C → DensePolynomial F → List F → F → PolyCommitmentKey → T.State →
    Run Empty (PolyCommitmentProof × T.State)
  verify : C → PolyCommitmentProof → EvalVerifierKey → T.State → List F → F → Run PCSError T.State
  trim : SRS → ℕ → Run Empty (PolyCommitmentKey × EvalVerifierKey)

section Model

variable {F C : Type} {T : Transcript F C} (PC : PolyCommitmentScheme F C T)

/-- `CRR1CSKey`. -/
structure CRR1CSKey where
  ck : PC.PolyCommitmentKey
  vk : PC.EvalVerifierKey

variable {PC}

/-- `CRR1CSKey::new`: the key is for the larger of the two vectors. -/
def CRR1CSKey.new (srs : PC.SRS) (numCons numVars : ℕ) : Run Empty (CRR1CSKey PC) := do
  let n ← log2 (max numCons numVars)
  let keys ← PC.trim srs n
  .ok ⟨keys.1, keys.2⟩

/-- `check_commitments`. -/
def checkCommitments [DecidableEq C] (inst : CRR1CSInstance F C) (witness : CRR1CSWitness F)
    (key : CRR1CSKey PC) : Run Empty Bool := do
  let polyW ← denseNew witness.W
  let polyE ← denseNew witness.E
  let expectedCommW ← PC.commit polyW key.ck
  let expectedCommE ← PC.commit polyE key.ck
  .ok (expectedCommW = inst.comm_W ∧ expectedCommE = inst.comm_E)

variable (PC) in
/-- `CRR1CSProof`. -/
structure CRR1CSProof where
  scProofPhase1 : List (CompressedUniPoly F)
  claimsPhase2 : F × F × F
  scProofPhase2 : List (CompressedUniPoly F)
  evalVarsAtRy : F
  proofEvalVarsAtRy : PC.PolyCommitmentProof
  evalErrorAtRx : F
  proofEvalErrorAtRx : PC.PolyCommitmentProof

variable [Field F]

/-- The padding of `SNARK::prove`. -/
def padWitness {E : Type} (shape : R1CSInstance F) (witness : CRR1CSWitness F) :
    Run E (CRR1CSWitness F) := do
  let paddedVars ← padVars shape.numVars witness.W
  let paddedError := if witness.E.length < shape.numCons then padTo shape.numCons witness.E
    else witness.E
  .ok ⟨paddedVars, paddedError⟩

/-- `z`: the variables, `u`, the inputs and zeros. -/
def paddedAssignment (vars input : List F) (u : F) : List F :=
  vars ++ [u] ++ input ++ List.replicate (vars.length - input.length - 1) 0

/-- What both sides absorb first. -/
def absorbInstance (inst : CRR1CSInstance F C) (st : T.State) : T.State :=
  let st := T.appendScalars st "input" inst.input
  let st := T.appendScalar st "u" inst.u
  let st := T.appendPoint st "comm_W" inst.comm_W
  T.appendPoint st "comm_E" inst.comm_E

/-- What both sides absorb between the sumchecks, and the challenges there. -/
def absorbClaims (claims : F × F × F) (eClaim : F) (st : T.State) : (F × F × F) × T.State :=
  let st := T.appendScalar st "Az_claim" claims.1
  let st := T.appendScalar st "Bz_claim" claims.2.1
  let st := T.appendScalar st "Cz_claim" claims.2.2
  let st := T.appendScalar st "E_claim" eClaim
  let (rA, st) := T.challengeScalar st "challenege_Az"
  let (rB, st) := T.challengeScalar st "challenege_Bz"
  let (rC, st) := T.challengeScalar st "challenege_Cz"
  ((rA, rB, rC), st)

/-- `evals_ABC`. -/
def combineEvals (r : F × F × F) (evalsA evalsB evalsC : List F) : List F :=
  (List.range evalsA.length).map fun i =>
    r.1 * evalsA.getD i 0 + r.2.1 * evalsB.getD i 0 + r.2.2 * evalsC.getD i 0

variable [DecidableEq F]

variable (T) in
/-- `CRR1CSProof::prove_phase_one`. -/
def provePhaseOne {E : Type} (numRounds : ℕ)
    (evalsTau evalsAz evalsBz evalsCz evalsE : DensePolynomial F) (u : F) (st : T.State) :
    Run E (ProverOutput T 5) :=
  proveCubicFiveTerms T 0 numRounds evalsTau evalsAz evalsBz evalsCz evalsE
    (fun tau a b c e => (a * b - u * c - e) * tau) st

variable (T) in
/-- `CRR1CSProof::prove_phase_two`. -/
def provePhaseTwo {E : Type} (numRounds : ℕ) (claim : F) (evalsZ evalsABC : DensePolynomial F)
    (st : T.State) : Run E (ProverOutput T 2) :=
  proveQuad T claim numRounds evalsZ evalsABC (fun a b => a * b) st

/-- The first sumcheck of `CRR1CSProof::prove`. -/
def proveFirst {E : Type} (shape : R1CSInstance F) (inst : CRR1CSInstance F C)
    (witness : CRR1CSWitness F) (st : T.State) : Run E (ProverOutput T 5) := do
  let z := paddedAssignment witness.W inst.input inst.u
  let polyError ← denseNew witness.E
  let numRoundsX ← log2 shape.numCons
  let (tau, st) := T.challengeVector st "challenge_tau" numRoundsX
  let polyTau ← denseNew (eqEvals tau)
  let (polyAz, polyBz, polyCz) ← shape.multiplyVec shape.numCons z.length z
  let out ← provePhaseOne T numRoundsX polyTau polyAz polyBz polyCz polyError inst.u st
  Run.assert (∀ j, (out.polys j).Z.length = 1)
  .ok out

/-- The claims that the first sumcheck leaves: of the products and of the error vector. -/
def phaseClaims (out : ProverOutput T 5) : (F × F × F) × F :=
  (((out.polys 1).Z.getD 0 0, (out.polys 2).Z.getD 0 0, (out.polys 3).Z.getD 0 0),
    (out.polys 4).Z.getD 0 0)

/-- The second sumcheck of `CRR1CSProof::prove`. -/
def proveSecond {E : Type} (shape : R1CSInstance F) (z rx : List F) (claims r : F × F × F)
    (st : T.State) : Run E (ProverOutput T 2) := do
  let numRoundsY ← log2 z.length
  let claimPhase2 := r.1 * claims.1 + r.2.1 * claims.2.1 + r.2.2 * claims.2.2
  let (evalsA, evalsB, evalsC) ←
    shape.computeEvalTableSparse shape.numCons z.length (eqEvals rx)
  Run.assert (evalsA.length = evalsB.length)
  Run.assert (evalsA.length = evalsC.length)
  let polyZ ← denseNew z
  let polyABC ← denseNew (combineEvals r evalsA evalsB evalsC)
  provePhaseTwo T numRoundsY claimPhase2 polyZ polyABC st

/-- `CRR1CSProof::prove`: the proof, the two points and the transcript. -/
def CRR1CSProof.prove (shape : R1CSInstance F) (inst : CRR1CSInstance F C)
    (witness : CRR1CSWitness F) (key : CRR1CSKey PC) (st : T.State) :
    Run Empty (CRR1CSProof PC × List F × List F × T.State) := do
  let st := T.appendProtocolName st "CRR1CS proof"
  Run.assert (inst.input.length < witness.W.length)
  let st := absorbInstance inst st
  let polyVars ← denseNew witness.W
  let polyError ← denseNew witness.E
  let phase1 ← proveFirst shape inst witness st
  let (claims, eClaim) := phaseClaims phase1
  let (r, st) := absorbClaims claims eClaim phase1.st
  let z := paddedAssignment witness.W inst.input inst.u
  let phase2 ← proveSecond shape z phase1.r claims r st
  Run.assert (phase2.r ≠ [])
  let evalVarsAtRy ← polyVars.evaluate phase2.r.tail
  let (proofEvalVarsAtRy, st) ←
    PC.prove (some inst.comm_W) polyVars phase2.r.tail evalVarsAtRy key.ck phase2.st
  let (proofEvalErrorAtRx, st) ←
    PC.prove (some inst.comm_E) polyError phase1.r eClaim key.ck st
  .ok ({ scProofPhase1 := phase1.proof, claimsPhase2 := claims, scProofPhase2 := phase2.proof
         evalVarsAtRy := evalVarsAtRy, proofEvalVarsAtRy := proofEvalVarsAtRy
         evalErrorAtRx := eClaim, proofEvalErrorAtRx := proofEvalErrorAtRx },
    phase1.r, phase2.r, st)

/-- `input_as_sparse_poly_entries`. -/
def sparseInput (u : F) (input : List F) : List (SparsePolyEntry F) :=
  ⟨0, u⟩ :: (List.range input.length).map fun i => ⟨i + 1, input.getD i 0⟩

/-- `CRR1CSProof::verify`: the two points and the transcript. -/
def CRR1CSProof.verify (proof : CRR1CSProof PC) (numVars numCons : ℕ) (inst : CRR1CSInstance F C)
    (evals : F × F × F) (st : T.State) (key : PC.EvalVerifierKey) :
    Run ProofVerifyError (List F × List F × T.State) := do
  let st := T.appendProtocolName st "CRR1CS proof"
  let st := absorbInstance inst st
  let numRoundsX ← log2 numCons
  let numRoundsY ← log2 (2 * numVars)
  let (tau, st) := T.challengeVector st "challenge_tau" numRoundsX
  let (claimPostPhase1, rx, st) ← verifySumcheck T proof.scProofPhase1 0 numRoundsX 3 st
  let (AzClaim, BzClaim, CzClaim) := proof.claimsPhase2
  let (r, st) := absorbClaims proof.claimsPhase2 proof.evalErrorAtRx st
  let tausBoundRx := (List.zipWith (fun x t => x * t + (1 - x) * (1 - t)) rx tau).prod
  Run.assert ((AzClaim * BzClaim - inst.u * CzClaim - proof.evalErrorAtRx) * tausBoundRx =
    claimPostPhase1)
  let claimPhase2 := r.1 * AzClaim + r.2.1 * BzClaim + r.2.2 * CzClaim
  let (claimPostPhase2, ry, st) ← verifySumcheck T proof.scProofPhase2 claimPhase2 numRoundsY 2 st
  Run.assert (ry ≠ [])
  let st ← (PC.verify inst.comm_W proof.proofEvalVarsAtRy key st ry.tail
    proof.evalVarsAtRy).mapError fun _ => .internalError
  let st ← (PC.verify inst.comm_E proof.proofEvalErrorAtRx key st rx
    proof.evalErrorAtRx).mapError fun _ => .internalError
  let n ← log2 numVars
  let polyInputEval ← SparsePolynomial.evaluate ⟨n, sparseInput inst.u inst.input⟩ ry.tail
  let evalZAtRy := (1 - ry.headD 0) * proof.evalVarsAtRy + ry.headD 0 * polyInputEval
  Run.assert (evalZAtRy * (r.1 * evals.1 + r.2.1 * evals.2.1 + r.2.2 * evals.2.2) =
    claimPostPhase2)
  .ok (rx, ry, st)

end Model

end NexusVm.Spartan
