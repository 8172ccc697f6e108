import NexusVm.Spartan.ZeromorphAlgebra
import NexusVm.Spartan.Sumcheck
import Mathlib.Algebra.Module.BigOperators

/-!
# Zeromorph

`spartan/src/polycommitments/zeromorph/mod.rs`: multilinear polynomials are committed to as
univariate ones.  Groups, their pairing and the KZG commitments come from other crates.
-/

namespace NexusVm.Spartan

open Nova Univariate

/-- The groups of a pairing and `KZG10::commit(..).unwrap()` without hiding: a polynomial with more
coefficients than powers panics. -/
structure KzgGroups (F G1 G2 GT : Type) [Field F] [AddCommGroup G1] [AddCommGroup G2]
    [AddCommGroup GT] [Module F G1] [Module F G2] [Module F GT] (U : UnivariatePolynomials F) where
  pairing : G1 → G2 → GT
  kzgCommit : List G1 → U.Poly → Run Empty G1
  pairing_smul : ∀ (a b : F) P Q, pairing (a • P) (b • Q) = (a * b) • pairing P Q
  kzgCommit_eq : ∀ powers p, U.degree p + 1 ≤ powers.length → kzgCommit powers p =
    .ok (∑ i ∈ Finset.range powers.length, (U.coeffs p).getD i 0 • powers.getD i 0)

/-- `ark_poly_commit::Error`, as far as `setup` returns it. -/
inductive SetupError
  | degreeIsZero
deriving DecidableEq

/-- `ZeromorphSRS`; the map of the shifted powers has the keys `0, 1, ..`. -/
structure ZeromorphSRS (G1 G2 : Type) where
  maxNumVars : ℕ
  powersOfTauG : List G1
  h : G2
  shiftPowersOfTauH : List G2

/-- `ZeromorphCommitterKey`. -/
structure ZeromorphCommitterKey (G1 : Type) where
  powersOfTauG : List G1
  shiftedPowersOfTauG : List G1
  numVars : ℕ
  N_max : ℕ

/-- `ZeromorphVerifierKey`. -/
structure ZeromorphVerifierKey (G1 G2 : Type) where
  supportedNumVars : ℕ
  g : G1
  h : G2
  tauH : G2
  shiftedTauH : G2

/-- `ZeromorphProof`. -/
structure ZeromorphProof (G1 : Type) where
  proof : G1
  quotientCommitments : List G1
  combinedShiftedCommitment : G1

section Model

variable {F G1 G2 GT : Type} [Field F] [AddCommGroup G1] [AddCommGroup G2] [AddCommGroup GT]
  [Module F G1] [Module F G2] [Module F GT]

/-- `ZeromorphSRS::max_degree`. -/
def ZeromorphSRS.maxDegree (srs : ZeromorphSRS G1 G2) : ℕ := srs.powersOfTauG.length - 1

/-- `Zeromorph::setup` with the random trapdoor and generators. -/
def setup (maxNumPolyVars : ℕ) (beta : F) (g : G1) (h : G2) :
    Run SetupError (ZeromorphSRS G1 G2) := do
  let maxDegree := 2 ^ maxNumPolyVars - 1
  Run.failIf (maxDegree < 1) .degreeIsZero
  let powersOfBeta := (List.range (maxDegree + 2)).map (beta ^ ·)
  let shiftPowersOfBeta := (powersOfBeta.getD maxDegree 0 * beta) ::
    (List.range' 1 maxNumPolyVars).map fun n => powersOfBeta.getD (maxDegree + 1 - 2 ^ n + 1) 0
  .ok
    { maxNumVars := maxNumPolyVars
      powersOfTauG := (powersOfBeta.take (maxDegree + 1)).map (· • g)
      h := h
      shiftPowersOfTauH := shiftPowersOfBeta.map (· • h) }

/-- `Zeromorph::trim`. -/
def trim {E : Type} (srs : ZeromorphSRS G1 G2) (supportedNumVars : ℕ) :
    Run E (ZeromorphCommitterKey G1 × ZeromorphVerifierKey G1 G2) := do
  let maxDegree := srs.maxDegree
  let supportedDegree := 2 ^ supportedNumVars - 1
  Run.assert (supportedDegree ≤ maxDegree)
  let powersOfTauG := srs.powersOfTauG.take (supportedDegree + 1)
  let shiftedPowersOfTauG := srs.powersOfTauG.drop (maxDegree - supportedDegree + 1)
  -- the entries of the map
  Run.assert (supportedNumVars < srs.shiftPowersOfTauH.length)
  .ok (⟨powersOfTauG, shiftedPowersOfTauG, supportedNumVars, maxDegree⟩,
    { supportedNumVars := supportedNumVars
      g := srs.powersOfTauG.getD 0 0
      h := srs.h
      tauH := srs.shiftPowersOfTauH.getD (srs.shiftPowersOfTauH.length - 1) 0
      shiftedTauH := srs.shiftPowersOfTauH.getD supportedNumVars 0 })

variable {U : UnivariatePolynomials F} (K : KzgGroups F G1 G2 GT U) {T : Transcript F G1}

/-- `Zeromorph::commit`. -/
def commit (poly : DensePolynomial F) (ck : ZeromorphCommitterKey G1) : Run Empty G1 := do
  let uniPoly ← multilinearToUnivar U poly
  K.kzgCommit ck.powersOfTauG uniPoly

/-- What both sides absorb of the claim. -/
def absorbClaim (c : G1) (u : List F) (eval : F) (st : T.State) : T.State :=
  let st := T.appendProtocolName st "Zeromorph_eval_proof"
  let st := T.appendScalar st "eval_claim" eval
  let st := T.appendScalars st "eval_point" u
  T.appendPoint st "commitment" c

/-- The challenge `y` after the commitments to the quotients. -/
def quotientChallenge (commitments : List G1) (st : T.State) : F × T.State :=
  T.challengeScalar (commitments.foldl (fun st c => T.appendPoint st "quotients" c) st) "y"

/-- The challenges `x` and `z` after the commitment to the combined polynomial. -/
def lastChallenges (cQHat : G1) (st : T.State) : (F × F) × T.State :=
  let (x, st) := T.challengeScalar (T.appendPoint st "C_q_hat" cQHat) "x"
  let (z, st) := T.challengeScalar st "z"
  ((x, z), st)

variable (U T) in
/-- What the prover has after the last challenge. -/
structure CommitPhase where
  quotients : List U.Poly
  commitments : List G1
  y : F
  cQHat : G1
  x : F
  z : F
  st : T.State

/-- `Zeromorph::prove` up to the last challenge. -/
def commitPhase (c : Option G1) (poly : DensePolynomial F) (u : List F) (eval : F)
    (ck : ZeromorphCommitterKey G1) (st : T.State) : Run Empty (CommitPhase U T) := do
  let c ← match c with
    | some c => .ok c
    | none => commit K poly ck
  let st := absorbClaim c u eval st
  let truncatedQuotients ← getTruncatedQuotients U poly u
  Run.assert (poly.numVars = ck.numVars)
  Run.assert (truncatedQuotients.length = poly.numVars)
  let commitments ← truncatedQuotients.mapM (K.kzgCommit ck.powersOfTauG)
  let (y, st) := quotientChallenge commitments st
  let qHat ← shiftAndCombineWithPowers U truncatedQuotients y poly.numVars
  let cQHat ← K.kzgCommit ck.powersOfTauG qHat
  let ((x, z), st) := lastChallenges cQHat st
  .ok ⟨truncatedQuotients, commitments, y, cQHat, x, z, st⟩

variable [DecidableEq F]

variable (U) in
/-- The sum of the quotients with their coefficients. -/
def combineQuotients (quotients : List U.Poly) (coefficients : List F) : U.Poly :=
  quotients.zipIdx.foldl (fun sum (q, k) => U.add sum (U.scale q (coefficients.getD k 0)))
    (U.fromCoefficientsVec [])

variable (U) in
/-- `Z_x`. -/
def polyZx {E : Type} (poly : DensePolynomial F) (quotients : List U.Poly) (u : List F)
    (eval x : F) : Run E U.Poly := do
  let uniPoly ← multilinearToUnivar U poly
  let phi ← evalGeneralizedCyclotomicPolynomial poly.numVars 0 x
  let coefficients ← getZxCoefficients x u
  .ok (U.sub (U.sub uniPoly (U.fromCoefficientsVec [eval * phi]))
    (combineQuotients U quotients coefficients))

variable (U) in
/-- `zeta_x`. -/
def polyZetaX {E : Type} (quotients : List U.Poly) (y x : F) (numVars : ℕ) : Run E U.Poly := do
  let combined ← shiftAndCombineWithPowers U quotients y numVars
  let coefficients ← getZetaXCoefficients x y numVars
  .ok (U.sub combined (combineQuotients U quotients coefficients))

/-- `Zeromorph::prove`: the proof and the transcript. -/
def prove (c : Option G1) (poly : DensePolynomial F) (u : List F) (eval : F)
    (ck : ZeromorphCommitterKey G1) (st : T.State) : Run Empty (ZeromorphProof G1 × T.State) := do
  let phase ← commitPhase K c poly u eval ck st
  -- with `x = 0` the loop that asks for another one never ends: it tests the old `x`
  Run.assert (phase.x ≠ 0)
  let Zx ← polyZx U poly phase.quotients u eval phase.x
  let zetaX ← polyZetaX U phase.quotients phase.y phase.x poly.numVars
  let qZ := quotientUnivarByLinearFactor U Zx phase.x
  let qZeta := quotientUnivarByLinearFactor U zetaX phase.x
  let qZetaZ := U.add qZeta (U.scale qZ phase.z)
  let proof ← K.kzgCommit ck.shiftedPowersOfTauG qZetaZ
  .ok (⟨proof, phase.commitments, phase.cQHat⟩, phase.st)

/-- The sum of the commitments with their coefficients.  The code computes the coefficients again
for each commitment; one without a coefficient is out of bounds. -/
def combineCommitments {E : Type} (commitments : List G1) (coefficients : Run E (List F)) :
    Run E G1 :=
  commitments.zipIdx.foldlM (fun sum (q, k) => do
    let coefficients ← coefficients
    Run.assert (k < coefficients.length)
    .ok (sum + coefficients.getD k 0 • q)) 0

variable [DecidableEq GT]

/-- `Zeromorph::verify`: the transcript. -/
def verify (commitment : G1) (proof : ZeromorphProof G1) (vk : ZeromorphVerifierKey G1 G2)
    (st : T.State) (u : List F) (eval : F) : Run PCSError T.State := do
  let numVars := u.length
  Run.assert (numVars = vk.supportedNumVars)
  let st := absorbClaim commitment u eval st
  let (y, st) := quotientChallenge proof.quotientCommitments st
  let ((x, z), st) := lastChallenges proof.combinedShiftedCommitment st
  Run.assert (x ≠ 0)
  let phi ← evalGeneralizedCyclotomicPolynomial numVars 0 x
  let combinedZx ← combineCommitments proof.quotientCommitments (getZxCoefficients x u)
  let C_Z_x := commitment - (eval * phi) • vk.g - combinedZx
  let combinedZetaX ←
    combineCommitments proof.quotientCommitments (getZetaXCoefficients x y numVars)
  let C_zeta_x := proof.combinedShiftedCommitment - combinedZetaX
  let C_zeta_Z := C_zeta_x + z • C_Z_x
  let lhs := K.pairing C_zeta_Z vk.shiftedTauH
  let rhs := K.pairing proof.proof (vk.tauH - x • vk.h)
  Run.failIf (lhs ≠ rhs) .evalVerifierFailure
  .ok st

/-- The sum of the commitments with given coefficients. -/
def sumCommitments (commitments : List G1) (coefficients : List F) : G1 :=
  commitments.zipIdx.foldl (fun sum (q, k) => sum + coefficients.getD k 0 • q) 0

variable {cs : List F}

omit [DecidableEq F] in
theorem foldlM_combine_guarded {E : Type} {coefficients : Run E (List F)} {c : Prop}
    (h : Run.Guarded coefficients c cs) (entries : List (G1 × ℕ)) (sum : G1) :
    Run.Guarded (entries.foldlM (fun sum (q, k) => do
        let coefficients ← coefficients
        Run.assert (k < coefficients.length)
        .ok (sum + coefficients.getD k 0 • q)) sum : Run E G1)
      (∀ e ∈ entries, c ∧ e.2 < cs.length)
      (entries.foldl (fun sum (q, k) => sum + cs.getD k 0 • q) sum) := by
  induction entries generalizing sum with
  | nil => exact (Run.Guarded.ok sum).congr (by simp) fun _ => rfl
  | cons e entries ih =>
      have hhead : Run.Guarded (do
            let coefficients ← coefficients
            Run.assert (e.2 < coefficients.length)
            .ok (sum + coefficients.getD e.2 0 • e.1) : Run E G1)
          (c ∧ e.2 < cs.length ∧ True) (sum + cs.getD e.2 0 • e.1) :=
        h.bind fun _ => (Run.Guarded.assert _).bind fun _ => Run.Guarded.ok _
      rw [List.foldlM_cons, List.foldl_cons]
      refine Run.Guarded.congr (hhead.bind fun _ => ih _) ?_ fun _ => rfl
      rw [List.forall_mem_cons, and_true]

omit [DecidableEq F] in
/-- **Combined commitments** need a coefficient for each commitment; without commitments the
coefficients are not computed. -/
theorem combineCommitments_guarded {E : Type} {coefficients : Run E (List F)} {c : Prop}
    (h : Run.Guarded coefficients c cs) (commitments : List G1) :
    Run.Guarded (combineCommitments commitments coefficients)
      (commitments ≠ [] → c ∧ commitments.length ≤ cs.length) (sumCommitments commitments cs) := by
  refine (foldlM_combine_guarded h commitments.zipIdx 0).congr ?_ fun _ => rfl
  constructor
  · intro hentries hne
    have hlast := hentries (commitments.getLast hne, commitments.length - 1) (by
      rw [List.mem_zipIdx_iff_getElem?, ← List.getLast?_eq_getElem?]
      exact List.getLast?_eq_some_getLast hne)
    refine ⟨hlast.1, ?_⟩
    have hindex : commitments.length - 1 < cs.length := hlast.2
    omega
  · intro hlen e he
    have hindex := List.snd_lt_of_mem_zipIdx he
    obtain ⟨hc, hle⟩ := hlen (List.ne_nil_of_length_pos ((Nat.zero_le _).trans_lt hindex))
    exact ⟨hc, hindex.trans_le hle⟩

omit [DecidableEq F] in
/-- Enough coefficients for the commitments. -/
theorem combineCommitments_eq_ok {E : Type} {commitments : List G1} {coefficients : Run E (List F)}
    (h : coefficients = .ok cs) (hlen : commitments.length ≤ cs.length) :
    combineCommitments commitments coefficients = .ok (sumCommitments commitments cs) := by
  have hguarded : Run.Guarded coefficients True cs := by
    rw [h]
    exact Run.Guarded.ok cs
  exact (combineCommitments_guarded hguarded commitments).returns fun _ => ⟨trivial, hlen⟩

end Model

end NexusVm.Spartan
