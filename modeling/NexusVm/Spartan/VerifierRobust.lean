import NexusVm.Spartan.SparseMatEval
import NexusVm.Spartan.ZeromorphPoints
import NexusVm.Spartan.ZeromorphComplete
import NexusVm.Spartan.Crr1csComplete

/-!
# Verifiers on arbitrary proofs

Which proofs make the verifiers of `zeromorph/mod.rs`, `crr1csproof.rs` and
`committed_relaxed_snark.rs` panic.  Errors come only from the openings of commitments; every other
check is an assertion, and a wrong proof that is not refused by an opening fails one of them.
-/

namespace NexusVm.Spartan

open Nova

section Zeromorph

variable {F G1 G2 GT : Type} [Field F] [AddCommGroup G1] [AddCommGroup G2] [AddCommGroup GT]
  [Module F G1] [Module F G2] [Module F GT] {U : UnivariatePolynomials F}

/-- The challenge `x` of a proof. -/
def ZeromorphProof.challengeX (T : Transcript F G1) (proof : ZeromorphProof G1) (commitment : G1)
    (u : List F) (eval : F) (st : T.State) : F :=
  (lastChallenges proof.combinedShiftedCommitment
    (quotientChallenge proof.quotientCommitments (absorbClaim commitment u eval st)).2).1.1

/-- A proof with at most as many quotients as the key has variables, at a challenge that is neither
zero nor one, nor a root of unity of the order of the point if there are quotients. -/
structure ZeromorphProof.Fits (T : Transcript F G1) (proof : ZeromorphProof G1)
    (vk : ZeromorphVerifierKey G1 G2) (commitment : G1) (u : List F) (eval : F)
    (st : T.State) : Prop where
  numVars : u.length = vk.supportedNumVars
  quotients : proof.quotientCommitments.length ≤ u.length
  ne_zero : proof.challengeX T commitment u eval st ≠ 0
  ne_one : proof.challengeX T commitment u eval st ≠ 1
  ne_root : proof.quotientCommitments ≠ [] →
    proof.challengeX T commitment u eval st ^ 2 ^ u.length ≠ 1

variable [DecidableEq F] [DecidableEq GT]

/-- **Zeromorph on arbitrary proofs.** -/
theorem zeromorph_ne_panic_iff (K : KzgGroups F G1 G2 GT U) {T : Transcript F G1}
    (commitment : G1) (proof : ZeromorphProof G1) (vk : ZeromorphVerifierKey G1 G2) (st : T.State)
    (u : List F) (eval : F) : verify K commitment proof vk st u eval ≠ .error .panic ↔
      proof.Fits T vk commitment u eval st := by
  have hpow : proof.challengeX T commitment u eval st ^ 2 ^ 0 ≠ 1 ↔
      proof.challengeX T commitment u eval st ≠ 1 := by rw [pow_zero, pow_one]
  have hcoefficients : ∀ f : ℕ → F, ((List.range u.length).map f).length = u.length := by
    intro f
    rw [List.length_map, List.length_range]
  rw [← safe_true_iff]
  constructor
  · intro h
    obtain ⟨hvars, h⟩ := safe_assert_bind_iff.mp h
    obtain ⟨hzero, h⟩ := safe_assert_bind_iff.mp h
    obtain ⟨hone, h⟩ := (evalCyclotomic_guarded (Nat.zero_le _) _).safe_bind_iff.mp h
    obtain ⟨hzx, -⟩ := (combineCommitments_guarded (getZxCoefficients_guarded hzero u)
      _).safe_bind_iff.mp h
    rw [hcoefficients] at hzx
    refine ⟨hvars, ?_, hzero, hpow.mp hone, fun hne => (hzx hne).1 ?_⟩
    · by_cases hne : proof.quotientCommitments = []
      · rw [hne]
        exact Nat.zero_le _
      · exact (hzx hne).2
    · exact List.ne_nil_of_length_pos ((List.length_pos_of_ne_nil hne).trans_le (hzx hne).2)
  · intro h
    have hzx : proof.quotientCommitments ≠ [] → (u ≠ [] →
        proof.challengeX T commitment u eval st ^ 2 ^ u.length ≠ 1) ∧
          proof.quotientCommitments.length ≤ u.length :=
      fun hne => ⟨fun _ => h.ne_root hne, h.quotients⟩
    refine safe_assert_bind_iff.mpr ⟨h.numVars, safe_assert_bind_iff.mpr ⟨h.ne_zero,
      (evalCyclotomic_guarded (Nat.zero_le _) _).safe_bind_iff.mpr ⟨hpow.mpr h.ne_one,
      (combineCommitments_guarded (getZxCoefficients_guarded h.ne_zero u)
        _).safe_bind_iff.mpr ⟨?_, (combineCommitments_guarded
          (getZetaXCoefficients_guarded h.ne_zero _ u.length) _).safe_bind_iff.mpr ⟨?_, ?_⟩⟩⟩⟩⟩
    · rw [hcoefficients]
      exact hzx
    · rw [hcoefficients]
      exact fun _ => ⟨trivial, h.quotients⟩
    · exact safe_bind_iff.mpr ⟨failIf_ne_panic, fun _ _ => safe_ok_iff.mpr trivial⟩

end Zeromorph

/-! ## Committed relaxed R1CS, the argument of knowledge and all three verifiers -/

section Crr1cs

variable {F C : Type} [Field F] {T : Transcript F C} {PC : PolyCommitmentScheme F C T}

/-- What a verifier has before it opens commitments: the claims that the sumchecks leave, their
randomness and the challenges between them. -/
structure VerifierView (T : Transcript F C) where
  tau : List F
  claimPostPhase1 : F
  rx : List F
  r : F × F × F
  claimPostPhase2 : F
  ry : List F
  st : T.State

/-- The joint claim of the second sumcheck. -/
def combineClaims (r claims : F × F × F) : F :=
  r.1 * claims.1 + r.2.1 * claims.2.1 + r.2.2 * claims.2.2

/-- Where a proof leads on a transcript. -/
def CRR1CSProof.view (proof : CRR1CSProof PC) (numCons : ℕ) (inst : CRR1CSInstance F C)
    (st : T.State) : VerifierView T :=
  let st := absorbInstance inst (T.appendProtocolName st "CRR1CS proof")
  let tau := T.challengeVector st "challenge_tau" (Nat.clog 2 numCons)
  let phase1 := sumcheckPath T proof.scProofPhase1 0 tau.2
  let r := absorbClaims proof.claimsPhase2 proof.evalErrorAtRx phase1.2.2
  let phase2 := sumcheckPath T proof.scProofPhase2 (combineClaims r.1 proof.claimsPhase2) r.2
  { tau := tau.1, claimPostPhase1 := phase1.1, rx := phase1.2.1, r := r.1
    claimPostPhase2 := phase2.1, ry := phase2.2.1, st := phase2.2.2 }

/-- The value of `u` and the inputs. -/
def inputValue (inst : CRR1CSInstance F C) (r : List F) : F :=
  ((sparseInput inst.u inst.input).map fun e => computeChi (getBits e.idx r.length) r * e.val).sum

/-- The sumchecks have messages of the right numbers and degrees, and the first one ends in the
claims. -/
structure CRR1CSProof.Shaped (proof : CRR1CSProof PC) (numVars numCons : ℕ)
    (inst : CRR1CSInstance F C) (view : VerifierView T) : Prop where
  cons : numCons ≠ 0
  vars : numVars ≠ 0
  phase1 : SumcheckShape (Nat.clog 2 numCons) 3 proof.scProofPhase1
  claims : (proof.claimsPhase2.1 * proof.claimsPhase2.2.1 - inst.u * proof.claimsPhase2.2.2 -
    proof.evalErrorAtRx) * eqValue view.rx view.tau = view.claimPostPhase1
  phase2 : SumcheckShape (Nat.clog 2 (2 * numVars)) 2 proof.scProofPhase2

/-- The second sumcheck ends in the value of the vector and those of the matrices. -/
def CRR1CSProof.Evaluates (proof : CRR1CSProof PC) (inst : CRR1CSInstance F C) (evals : F × F × F)
    (view : VerifierView T) : Prop :=
  ((1 - view.ry.headD 0) * proof.evalVarsAtRy + view.ry.headD 0 * inputValue inst view.ry.tail) *
    combineClaims view.r evals = view.claimPostPhase2

/-- Both openings, before a condition on what follows; the values are compared only if both are
accepted. -/
def CRR1CSProof.OpensThen (proof : CRR1CSProof PC) (inst : CRR1CSInstance F C) (evals : F × F × F)
    (view : VerifierView T) (key : PC.EvalVerifierKey)
    (P : List F × List F × T.State → Prop) : Prop :=
  (PC.verify inst.comm_W proof.proofEvalVarsAtRy key view.st view.ry.tail proof.evalVarsAtRy).Safe
    fun st =>
  (PC.verify inst.comm_E proof.proofEvalErrorAtRx key st view.rx proof.evalErrorAtRx).Safe
    fun st => proof.Evaluates inst evals view ∧ P (view.rx, view.ry, st)

/-- What a proof has to meet before a condition on what follows. -/
def CRR1CSProof.HoldsThen (proof : CRR1CSProof PC) (numVars numCons : ℕ)
    (inst : CRR1CSInstance F C) (evals : F × F × F) (st : T.State) (key : PC.EvalVerifierKey)
    (P : List F × List F × T.State → Prop) : Prop :=
  proof.Shaped numVars numCons inst (proof.view numCons inst st) ∧
    proof.OpensThen inst evals (proof.view numCons inst st) key P

theorem clog_two_mul {n : ℕ} (hn : n ≠ 0) : Nat.clog 2 (2 * n) = Nat.clog 2 n + 1 := by
  rw [Nat.clog_of_two_le one_lt_two (by omega)]
  congr 2
  omega

theorem inputValue_guarded {E : Type} (inst : CRR1CSInstance F C) (n : ℕ) (r : List F) :
    Run.Guarded (SparsePolynomial.evaluate ⟨n, sparseInput inst.u inst.input⟩ r : Run E F)
      (n = r.length) (inputValue inst r) :=
  Run.Guarded.congr ((Run.Guarded.assert _).bind fun _ => Run.Guarded.ok _) (and_iff_left trivial)
    fun _ => rfl

variable [DecidableEq F]

/-- **Proofs of committed relaxed R1CS.** -/
theorem CRR1CSProof.verify_safe_iff (proof : CRR1CSProof PC) (numVars numCons : ℕ)
    (inst : CRR1CSInstance F C) (evals : F × F × F) (st : T.State) (key : PC.EvalVerifierKey)
    {P : List F × List F × T.State → Prop} :
    (proof.verify numVars numCons inst evals st key).Safe P ↔
      proof.HoldsThen numVars numCons inst evals st key P := by
  let view := proof.view numCons inst st
  -- the checks up to the openings
  refine Iff.trans ((log2_guarded numCons).safe_bind_iff.trans (and_congr_right fun _ =>
    (log2_guarded (2 * numVars)).safe_bind_iff.trans (and_congr_right fun htwice =>
    (verifySumcheck_guarded T three_pos _ _ _ _).safe_bind_iff.trans (and_congr_right fun _ =>
    safe_assert_bind_iff.trans (and_congr_right fun _ =>
    (verifySumcheck_guarded T two_pos _ _ _ _).safe_bind_iff.trans (and_congr_right fun hphase2 =>
    (?_ : _ ↔ proof.OpensThen inst evals view key P))))))) ?_
  · have hvars : numVars ≠ 0 := by omega
    have hlen : view.ry.length = Nat.clog 2 numVars + 1 := by
      rw [← clog_two_mul hvars, ← hphase2.rounds]
      exact length_sumcheckPath T _ _ _
    have hne : view.ry ≠ [] := List.ne_nil_of_length_pos (by omega)
    have htail : Nat.clog 2 numVars = view.ry.tail.length := by
      rw [List.length_tail, hlen, Nat.add_sub_cancel]
    refine safe_assert_bind_iff.trans ((and_iff_right hne).trans (safe_bind_iff.trans
      (safe_mapError_iff.trans (Run.Safe.congr fun _ => safe_bind_iff.trans
      (safe_mapError_iff.trans (Run.Safe.congr fun _ => ?_))))))
    exact (log2_guarded numVars).safe_bind_iff.trans ((and_iff_right hvars).trans
      ((inputValue_guarded inst _ _).safe_bind_iff.trans ((and_iff_right htail).trans
      (safe_assert_bind_iff.trans (and_congr_right fun _ => safe_ok_iff)))))
  · constructor
    · rintro ⟨hcons, htwice, hphase1, hclaims, hphase2, hopenings⟩
      exact ⟨⟨hcons, by omega, hphase1, hclaims, hphase2⟩, hopenings⟩
    · rintro ⟨hshaped, hopenings⟩
      have hvars := hshaped.vars
      exact ⟨hshaped.cons, by omega, hshaped.phase1, hshaped.claims, hshaped.phase2, hopenings⟩

/-- What an argument of knowledge has to meet. -/
def SNARK.Holds (proof : SNARK PC) (comm : R1CSCommitment C) (inst : CRR1CSInstance F C)
    (st : T.State) (key : CRSNARKKey PC) : Prop :=
  inst.input.length = comm.numInputs ∧
  proof.r1csSatProof.HoldsThen comm.numVars comm.numCons inst proof.instEvals
    (comm.appendToTranscript T (T.appendProtocolName st "Spartan SNARK proof"))
    key.gensR1csSat.vk fun out =>
  proof.r1csEvalProof.Holds comm.comm out.1 out.2.1
    [proof.instEvals.1, proof.instEvals.2.1, proof.instEvals.2.2] key.gensR1csEval
    (absorbEvals T proof.instEvals out.2.2)

theorem SNARK.verify_ne_panic_iff (proof : SNARK PC) (comm : R1CSCommitment C)
    (inst : CRR1CSInstance F C) (st : T.State) (key : CRSNARKKey PC) :
    proof.verify comm inst st key ≠ .error .panic ↔ proof.Holds comm inst st key := by
  rw [← safe_true_iff]
  refine safe_assert_bind_iff.trans (and_congr_right fun _ => safe_bind_iff.trans
    (Iff.trans (Run.Safe.congr fun out => ?_) (CRR1CSProof.verify_safe_iff _ _ _ _ _ _ _)))
  rw [safe_true_iff]
  exact proof.r1csEvalProof.verify_ne_panic_iff _ _ _ _ _ _

end Crr1cs

section Verifiers

variable {F G1 G2 GT C : Type} [Field F] [AddCommGroup G1] [AddCommGroup G2] [AddCommGroup GT]
  [Module F G1] [Module F G2] [Module F GT] [DecidableEq F] [DecidableEq GT]
  {U : UnivariatePolynomials F}

/-- **Verifiers on arbitrary proofs.**  They return a result or an error, for any proof and any
instance, exactly if the proof meets all that they assert. -/
theorem verifiers_ne_panic_iff (K : KzgGroups F G1 G2 GT U) (T : Transcript F G1)
    (T' : Transcript F C) (PC : PolyCommitmentScheme F C T') :
    (∀ commitment (proof : ZeromorphProof G1) vk (st : T.State) u eval,
      verify K commitment proof vk st u eval ≠ .error .panic ↔
        proof.Fits T vk commitment u eval st) ∧
    (∀ (proof : CRR1CSProof PC) numVars numCons inst evals st key,
      proof.verify numVars numCons inst evals st key ≠ .error .panic ↔
        proof.HoldsThen numVars numCons inst evals st key fun _ => True) ∧
    ∀ (proof : SNARK PC) comm inst st key,
      proof.verify comm inst st key ≠ .error .panic ↔ proof.Holds comm inst st key := by
  constructor
  · intro commitment proof vk st u eval
    exact zeromorph_ne_panic_iff K commitment proof vk st u eval
  constructor
  · intro proof numVars numCons inst evals st key
    rw [← safe_true_iff]
    exact proof.verify_safe_iff numVars numCons inst evals st key
  · exact fun proof comm inst st key => proof.verify_ne_panic_iff comm inst st key

end Verifiers

/-- A proof without messages. -/
def emptyProof : CRR1CSProof (clearScheme ℚ) :=
  { scProofPhase1 := [], claimsPhase2 := (0, 0, 0), scProofPhase2 := [], evalVarsAtRy := 0
    proofEvalVarsAtRy := (), evalErrorAtRx := 0, proofEvalErrorAtRx := () }

/-- Two quotients for a point of one entry, and no messages for two constraints. -/
theorem verifiers_panic :
    verify (T := constantTranscript 2) (exponentGroups ℚ) 0 ⟨0, [0, 0], 0⟩ ⟨1, 1, 1, 3, 3⟩ () [5]
      0 = .error .panic ∧
    emptyProof.verify 2 2 ⟨[], 1, [0, 0], [0, 0]⟩ (0, 0, 0) () (1 : ℕ) = .error .panic := by
  constructor
  · by_contra h
    have hquotients := ((zeromorph_ne_panic_iff _ _ _ _ _ _ _).mp h).quotients
    exact absurd hquotients (by decide)
  · by_contra h
    have hshaped := ((CRR1CSProof.verify_safe_iff _ _ _ _ _ _ _).mp (safe_true_iff.mpr h)).1
    have hrounds : 0 = Nat.clog 2 2 := hshaped.phase1.rounds
    exact absurd hrounds (by decide)

end NexusVm.Spartan
