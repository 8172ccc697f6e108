import NexusVm.Nova.Nimfs

/-!
# Linearization of CCS instances

`nova/src/ccs/linearization.rs`.  The prover turns a satisfied CCS instance into a
linearized one at the point that the sumcheck leaves.  The verifier expects the
value `0` there, not only the sum `0` over the hypercube.

So an honest proof is accepted exactly for the points where the combination of the constraints
vanishes, and the condition is stated for each shape, pair and oracle.  How likely it is for a
random point is not claimed: it depends on the degree and on the field.
-/

namespace NexusVm.Nova.Linearization

open Ccs

/-- The linearized instance with the proof and the challenges that led to it. -/
structure LCCSLinearization {F : Type} [Field F] (M : MultilinearExtensions F) (C : Type) where
  lccsInstance : LCCSInstance F C
  polynomial : Sumcheck.ListOfProductsOfPolynomials M
  witness : CCSWitness F
  sumcheckProof : List (List F)
  gamma : F
  beta : List F
  sumcheckRounds : ℕ

section Model

variable {F C B CK : Type} [Field F] (M : MultilinearExtensions F) (O : RandomOracle F C B)

/-- The challenges `gamma` and `beta`. -/
def challenges (shape : CCSShape F) (st : O.State) : F × List F × O.State :=
  let (gamma, st) := O.squeezeOne st
  let (beta, st) := O.squeeze st (safeLoglike shape.numConstraints)
  (gamma, beta, st)

/-- The summand of a multiset. -/
def addMultiset (shape : CCSShape F) (z : List F) (eq_beta_mle : M.Mle) (gamma : F)
    (polynomial : Sumcheck.ListOfProductsOfPolynomials M) (cS : F × List ℕ) :
    Run Error (Sumcheck.ListOfProductsOfPolynomials M) := do
  let summand_Q ← cS.2.mapM (matrixMle M shape z)
  polynomial.addProduct (summand_Q ++ [eq_beta_mle]) (cS.1 * gamma)

/-- `construct_css_polynomial`. -/
def constructCssPolynomial (shape : CCSShape F) (z beta : List F) (gamma : F) :
    Run Error (Sumcheck.ListOfProductsOfPolynomials M) := do
  let eq_beta_mle ← vecToArkMle M (eqEvals beta)
  shape.cSs.foldlM (addMultiset M shape z eq_beta_mle gamma)
    (.new (safeLoglike shape.numConstraints))

/-- `MLSumcheck::extract_sum`. -/
def extractSum {E : Type} : List (List F) → Run E F
  | [] => .error .panic
  | msg :: _ => do
      -- `evaluations[0]` and `evaluations[1]`
      Run.assert (1 < msg.length)
      .ok (msg.getD 0 0 + msg.getD 1 0)

/-- `compute_theta_values`: the matrix products, evaluated at `r_x`. -/
def computeThetaValues (shape : CCSShape F) (z r_x : List F) : Run Error (List F) :=
  evaluations shape z r_x

/-- `compute_equality_polynomial_native`. -/
def computeEqualityPolynomialNative (a b : List F) : Run Error F := do
  Run.failIf (a.length ≠ b.length) .notSatisfied
  .ok (List.zipWith (fun ai bi => ai * bi + ai * bi - ai - bi + 1) a b).prod

variable [AddCommGroup C] [Module F C] [DecidableEq F] [DecidableEq C]
  (S : PolyCommitmentScheme F C CK)

/-- `linearize_ccs`: the linearization and the oracle's last state. -/
def linearizeCcs (shape : CCSShape F) (U : CCSInstance F C) (W : CCSWitness F) (ck : CK)
    (st : O.State) : Run Error (LCCSLinearization M C × O.State) := do
  shape.isSatisfied S U W ck
  let (gamma, beta, st) := challenges O shape st
  let sumcheck_rounds := safeLoglike shape.numConstraints
  let z := U.X ++ W.W
  let polynomial ← constructCssPolynomial M shape z beta gamma
  let (sumcheck_proof, r_x, st) ← Sumcheck.proveAsSubprotocol O polynomial st
  let sum ← extractSum sumcheck_proof
  -- "First round sum must be 0 for satisfied CCS instance"
  Run.assert (sum = 0)
  let thetas ← computeThetaValues shape z r_x
  -- "Ensure u = 1"
  let X := U.X.set 0 1
  let lccs_instance ← LCCSInstance.new shape U.commitment_W X r_x thetas
  shape.isSatisfiedLinearized S lccs_instance W ck
  let _ ← computeEqualityPolynomialNative beta r_x
  .ok (⟨lccs_instance, polynomial, W, sumcheck_proof, gamma, beta, sumcheck_rounds⟩, st)

omit [AddCommGroup C] [Module F C] [DecidableEq C] in
/-- `verify_linearization`: the oracle's last state.  The two sides of the main
equation are only logged. -/
def verifyLinearization (shape : CCSShape F) (U : CCSInstance F C) (W : CCSWitness F)
    (linearization : LCCSLinearization M C) (st : O.State) : Run Error O.State := do
  Run.failIf (linearization.sumcheckProof.length ≠ linearization.sumcheckRounds) .notSatisfied
  let (gamma, beta, st) := challenges O shape st
  Run.failIf (linearization.sumcheckRounds ≠ safeLoglike shape.numConstraints) .notSatisfied
  Run.failIf (gamma ≠ linearization.gamma) .notSatisfied
  Run.failIf (beta ≠ linearization.beta) .notSatisfied
  let z := U.X ++ W.W
  let polynomial ← constructCssPolynomial M shape z beta gamma
  let (subclaim, st) ← (Sumcheck.verifyAsSubprotocol O polynomial.info 0
    linearization.sumcheckProof st).mapError fun _ => Error.notSatisfied
  let r_x := subclaim.point
  Run.failIf (r_x ≠ linearization.lccsInstance.rs) .notSatisfied
  -- "Verify the final evaluation is indeed 0 (as expected for satisfied CCS)"
  Run.failIf (subclaim.expectedEvaluation ≠ 0) .notSatisfied
  let _ ← computeEqualityPolynomialNative beta r_x
  let computed_vs ← computeThetaValues shape z r_x
  Run.failIf (computed_vs ≠ linearization.lccsInstance.vs) .notSatisfied
  .ok st

/-- The verifier accepts the prover's linearization from the same state, and the
linearized instance is satisfied with the original witness. -/
def Completes (shape : CCSShape F) (U : CCSInstance F C) (W : CCSWitness F) (ck : CK)
    (st : O.State) : Prop :=
  ∃ linearization st' st'',
    linearizeCcs M O S shape U W ck st = .ok (linearization, st') ∧
    verifyLinearization M O shape U W linearization st = .ok st'' ∧
    shape.isSatisfiedLinearized S linearization.lccsInstance W ck = .ok ()

end Model

section Polynomial

variable {F C B : Type} [Field F] {M : MultilinearExtensions F} {shape : CCSShape F}

/-- The products of the polynomial, for the extensions `Q` of the matrix products. -/
def cssProducts (shape : CCSShape F) (gamma : F) (Q : ℕ → M.Mle) (eq_beta : M.Mle) :
    List (F × List M.Mle) :=
  shape.cSs.map fun cS => (cS.1 * gamma, cS.2.map Q ++ [eq_beta])

/-- The value of the polynomial where the matrix products have these values. -/
theorem combine_cssProducts {gamma : F} {Q : ℕ → M.Mle} {eq_beta : M.Mle} {value : M.Mle → F}
    (theta : ℕ → F) (hQ : ∀ j < shape.numMatrices, value (Q j) = theta j) :
    Sumcheck.combine (cssProducts shape gamma Q eq_beta) value =
      Nimfs.residual shape theta * (gamma * value eq_beta) :=
  Nimfs.combine_multisets theta hQ

/-- What the polynomial is made of. -/
structure Constructed (M : MultilinearExtensions F) (shape : CCSShape F) (z beta : List F)
    (gamma : F) (degree : ℕ) (Q : ℕ → M.Mle) (eq_beta : M.Mle) : Prop where
  products : ∀ j < shape.numMatrices, matrixMle M shape z j = .ok (Q j)
  eq_mle : (vecToArkMle M (eqEvals beta) : Run Error M.Mle) = .ok eq_beta
  polynomial : constructCssPolynomial M shape z beta gamma =
    .ok ⟨degree, safeLoglike shape.numConstraints, cssProducts shape gamma Q eq_beta⟩
  sized : Sumcheck.Sized degree (safeLoglike shape.numConstraints)
    (cssProducts shape gamma Q eq_beta)
  degree_pos : 0 < degree

/-- Rows and multisets for which the polynomial can be built and proved. -/
structure Constructible (shape : CCSShape F) : Prop where
  multisets : 0 < shape.numMultisets
  rows : 0 < shape.numConstraints
  two_rows : 0 < shape.numMatrices → 2 ≤ shape.numConstraints

theorem exists_constructed (M : MultilinearExtensions F) (h : Constructible shape) {z : List F}
    (hz : z.length = shape.numIo + shape.numVars) {beta : List F}
    (hbeta : beta.length = safeLoglike shape.numConstraints) (gamma : F) :
    ∃ degree Q eq_beta, Constructed M shape z beta gamma degree Q eq_beta := by
  have hs : 0 < safeLoglike shape.numConstraints := safeLoglike_pos h.rows
  obtain ⟨eq_beta, heq⟩ := exists_eqMle (M := M) (E := Error).mpr (hbeta ▸ hs)
  have : Nonempty M.Mle := ⟨eq_beta⟩
  have hQ : ∀ j < shape.numMatrices, ∃ m, matrixMle M shape z j = .ok m :=
    fun j hj => (exists_matrixMle hj).mpr ⟨hz, h.two_rows (by omega)⟩
  choose! Q hQ using hQ
  have hstep : ∀ g cS, cS.2.mapM (matrixMle M shape z) = .ok (cS.2.map Q) →
      addMultiset M shape z eq_beta gamma g cS =
        g.addProduct (cS.2.map Q ++ [eq_beta]) (cS.1 * gamma) := by
    intro g cS hmap
    rw [addMultiset, hmap]
    rfl
  obtain ⟨degree, -, hpos, hrun, hsized⟩ := Nimfs.foldlM_multisets hQ
    ((numVars_eqMle heq).trans hbeta) hstep (g := .new (safeLoglike shape.numConstraints))
    rfl (fun _ hmem => absurd hmem List.not_mem_nil)
  refine ⟨degree, Q, eq_beta, hQ, heq, bind_eq_ok.mpr ⟨_, heq, hrun⟩, hsized, hpos ?_⟩
  have hq := h.multisets
  rw [← shape.multisets] at hq
  exact List.ne_nil_of_length_pos hq

/-- What multisets select of the matrix products at a point. -/
def valueAt (shape : CCSShape F) (z r : List F) : F :=
  Nimfs.residual shape fun j => mleAt (matrixProduct shape z j) r

variable {z beta : List F} {gamma : F} {degree : ℕ} {Q : ℕ → M.Mle} {eq_beta : M.Mle}

/-- The value of the polynomial at a point. -/
theorem Constructed.evaluate (h : Constructed M shape z beta gamma degree Q eq_beta)
    (hrows : 0 < shape.numConstraints) {r : List F}
    (hr : r.length = safeLoglike shape.numConstraints)
    (hbeta : beta.length = safeLoglike shape.numConstraints) :
    (Sumcheck.combine (cssProducts shape gamma Q eq_beta) fun m => M.evaluate m r) =
      valueAt shape z r *
        (gamma * (List.zipWith (fun x y => x * y + (1 - x) * (1 - y)) beta r).prod) := by
  have hs : 0 < safeLoglike shape.numConstraints := safeLoglike_pos hrows
  have hQ : ∀ j < shape.numMatrices, M.evaluate (Q j) r = mleAt (matrixProduct shape z j) r := by
    intro j hj
    exact evaluate_vecToArkMle ((matrixMle_eq_ok hj).mp (h.products j hj)).2
      (by rw [length_matrixProduct z hj, hr])
  have heq : M.evaluate eq_beta r = mleAt (eqEvals beta) r := by
    apply evaluate_vecToArkMle h.eq_mle
    rw [length_eqEvals, hbeta, safeLoglike_two_pow hs, hr]
  have hpad : padTo (nextPowerOfTwo (eqEvals beta).length) (eqEvals beta) = eqEvals beta := by
    rw [length_eqEvals, hbeta, nextPowerOfTwo_two_pow hs, padTo, length_eqEvals, hbeta,
      Nat.sub_self, List.replicate_zero, List.append_nil, List.take_of_length_le]
    rw [length_eqEvals, hbeta]
  rw [combine_cssProducts _ hQ, heq, mleAt, hpad, dotProduct_eqEvals (hbeta.trans hr.symm)]
  rfl

/-- The sum over the hypercube is `0` if the polynomial vanishes at the points there. -/
theorem Constructed.hypercubeSum (h : Constructed M shape z beta gamma degree Q eq_beta)
    (hshape : Constructible shape)
    (hvalue : ∀ r, r.length = safeLoglike shape.numConstraints → valueAt shape z r = 0) :
    Sumcheck.hypercubeSum (safeLoglike shape.numConstraints)
      (cssProducts shape gamma Q eq_beta) = 0 := by
  apply Finset.sum_eq_zero
  intro b hb
  rw [Finset.mem_range] at hb
  obtain ⟨r, hr, hentries⟩ := exists_mleAt_eq_getD (F := F)
    (reverseBits_lt (safeLoglike shape.numConstraints) b)
  have hindex : ∀ j < shape.numMatrices, M.index (Q j) b = mleAt (matrixProduct shape z j) r := by
    intro j hj
    have hlen := length_matrixProduct z hj
    have htwo := hshape.two_rows (by omega)
    have hidx := index_vecToArkMle ((matrixMle_eq_ok hj).mp (h.products j hj)).2 (b := b)
    rw [hlen] at hidx
    rw [hidx hb, hentries _ (hlen ▸ htwo) (by rw [hlen])]
  have hzero := hvalue r hr
  rw [valueAt] at hzero
  rw [combine_cssProducts _ hindex, hzero, zero_mul]

/-! ## Honest runs and completeness -/

variable {O : RandomOracle F C B}

/-- There is a message for each variable. -/
theorem length_messages (O : RandomOracle F C B) (degree n : ℕ) (products : List (F × List M.Mle))
    (st : O.State) : (Sumcheck.proveRounds O degree n products st).1.length = n := by
  induction n generalizing products st with
  | zero => rfl
  | succ n ih => exact congrArg Nat.succ (ih _ _)

/-- The first message of an accepted proof adds up to the claimed sum. -/
theorem extractSum_of_accepted [DecidableEq F] {E : Type} {info : Sumcheck.PolynomialInfo} {v : F}
    {proof : List (List F)} {st : O.State} {out : Sumcheck.SubClaim F × O.State}
    (h : Sumcheck.verifyAsSubprotocol O info v proof st = .ok out) :
    (extractSum proof : Run E F) = .ok v := by
  simp only [Sumcheck.verifyAsSubprotocol, bind_eq_ok, assert_eq_ok, exists_const] at h
  obtain ⟨⟨rounds, st'⟩, hrounds, hne, expected, hcheck, -⟩ := h
  obtain ⟨n, hn⟩ := Nat.exists_eq_succ_of_ne_zero hne
  rw [hn] at hrounds
  cases proof with
  | nil => cases hrounds
  | cons msg msgs =>
      obtain ⟨rest, -, heq⟩ := bind_eq_ok.mp hrounds
      obtain ⟨rfl, -⟩ := Prod.mk.inj (Except.ok.inj heq)
      simp only [Sumcheck.checkRounds, bind_eq_ok, assert_eq_ok, failIf_eq_ok, exists_const,
        not_not] at hcheck
      obtain ⟨-, hlt, hsum, -⟩ := hcheck
      exact bind_eq_ok.mpr ⟨(), assert_eq_ok.mpr hlt, by rw [hsum]⟩

/-- The values of a run of the prover, up to the point `r_x`. -/
structure Honest [DecidableEq F] (M : MultilinearExtensions F) (O : RandomOracle F C B)
    (shape : CCSShape F) (z : List F) (st : O.State) (gamma : F) (beta : List F) (degree : ℕ)
    (Q : ℕ → M.Mle) (eq_beta : M.Mle) (msgs : List (List F)) (r_x : List F)
    (st₁ st₂ : O.State) : Prop where
  challenges : challenges O shape st = (gamma, beta, st₁)
  constructed : Constructed M shape z beta gamma degree Q eq_beta
  length_beta : beta.length = safeLoglike shape.numConstraints
  length_msgs : msgs.length = safeLoglike shape.numConstraints
  length_r_x : r_x.length = safeLoglike shape.numConstraints
  prove : (Sumcheck.proveAsSubprotocol O ⟨degree, safeLoglike shape.numConstraints,
    cssProducts shape gamma Q eq_beta⟩ st₁ : Run Error _) = .ok (msgs, r_x, st₂)
  verify : Sumcheck.verifyAsSubprotocol O
    ⟨degree, safeLoglike shape.numConstraints, (cssProducts shape gamma Q eq_beta).length⟩
    (Sumcheck.hypercubeSum (safeLoglike shape.numConstraints) (cssProducts shape gamma Q eq_beta))
    msgs st₁ = .ok (⟨r_x, Sumcheck.combine (cssProducts shape gamma Q eq_beta) fun m =>
      M.evaluate m r_x⟩, st₂)

/-- In a prime field every run is honest. -/
theorem exists_honest {p : ℕ} [Fact p.Prime] {C B : Type} (M : MultilinearExtensions (ZMod p))
    (O : RandomOracle (ZMod p) C B) {shape : CCSShape (ZMod p)} (h : Constructible shape)
    {z : List (ZMod p)} (hz : z.length = shape.numIo + shape.numVars) (st : O.State)
    {gamma : ZMod p} {beta : List (ZMod p)} {st₁ : O.State}
    (hchallenges : challenges O shape st = (gamma, beta, st₁)) :
    ∃ degree Q eq_beta msgs r_x st₂,
      Honest M O shape z st gamma beta degree Q eq_beta msgs r_x st₁ st₂ := by
  have hbeta : beta.length = safeLoglike shape.numConstraints := by
    have hlen := O.length_squeeze (O.squeezeOne st).2 (safeLoglike shape.numConstraints)
    have heq : (O.squeeze (O.squeezeOne st).2 (safeLoglike shape.numConstraints)).1 = beta :=
      congrArg (fun x => x.2.1) hchallenges
    rw [← heq, hlen]
  have hs : 0 < safeLoglike shape.numConstraints := safeLoglike_pos h.rows
  obtain ⟨degree, Q, eq_beta, hc⟩ := exists_constructed M h hz hbeta gamma
  obtain ⟨msgs, r_x, st₂, hprove, hlen, hverify⟩ := Sumcheck.sumcheck_complete O (E := Error)
    (g := ⟨degree, safeLoglike shape.numConstraints, cssProducts shape gamma Q eq_beta⟩)
    hc.sized hc.degree_pos hs (fun _ => Sumcheck.factorial_ne_zero_of_point) st₁
  have hmsgs : msgs.length = safeLoglike shape.numConstraints := by
    obtain ⟨-, -, heq⟩ := bind_eq_ok.mp hprove
    have hfst := congrArg Prod.fst (Except.ok.inj heq)
    rw [← show _ = msgs from hfst]
    exact length_messages O _ _ _ _
  exact ⟨degree, Q, eq_beta, msgs, r_x, st₂, hchallenges, hc, hbeta, hmsgs, hlen, hprove, hverify⟩

end Polynomial

section Complete

variable {F C B CK : Type} [Field F] [AddCommGroup C] [Module F C] [DecidableEq F] [DecidableEq C]
  {M : MultilinearExtensions F} {O : RandomOracle F C B} {S : PolyCommitmentScheme F C CK}
  {shape : CCSShape F} {U : CCSInstance F C} {W : CCSWitness F} {ck : CK} {st : O.State}

variable {out : LCCSLinearization M C × O.State}

/-- Only shapes that the polynomial can be built for are linearized. -/
theorem constructible_of_linearized (h : linearizeCcs M O S shape U W ck st = .ok out) :
    Constructible shape := by
  simp only [linearizeCcs, bind_eq_ok, assert_eq_ok, exists_const] at h
  obtain ⟨_, -, polynomial, hpoly, ⟨msgs, r_x, st₂⟩, hprove, sum, hsum, -, thetas, -, lccs,
    hlccs, _, hsat, -⟩ := h
  obtain ⟨eq_beta, heq, hrun⟩ := bind_eq_ok.mp hpoly
  have hbeta : 0 < (challenges O shape st).2.1.length := exists_eqMle.mp ⟨eq_beta, heq⟩
  have hs : 0 < safeLoglike shape.numConstraints := by
    rwa [show (challenges O shape st).2.1.length = _ from O.length_squeeze _ _] at hbeta
  have hrows : 0 < shape.numConstraints := by
    by_contra hzero
    rw [Nat.eq_zero_of_not_pos hzero] at hs
    exact absurd hs (by decide)
  obtain ⟨-, hr, -, rfl⟩ := linearizedNew_eq_ok.mp hlccs
  constructor
  · by_contra hzero
    have hnil : shape.cSs = [] :=
      List.eq_nil_of_length_eq_zero (by rw [shape.multisets]; omega)
    rw [hnil] at hrun
    obtain rfl := Except.ok.inj hrun
    -- messages of one evaluation
    obtain ⟨-, -, heq⟩ := bind_eq_ok.mp hprove
    obtain ⟨n, hn⟩ := Nat.exists_eq_succ_of_ne_zero hs.ne'
    have hmsgs : (Sumcheck.proveRounds O 0 (safeLoglike shape.numConstraints)
        ([] : List (F × List M.Mle)) _).1 = msgs := congrArg Prod.fst (Except.ok.inj heq)
    rw [hn] at hmsgs
    rw [← hmsgs] at hsum
    obtain ⟨_, hassert, -⟩ := bind_eq_ok.mp hsum
    rw [assert_eq_ok, Sumcheck.proveRound, List.length_map, List.length_range] at hassert
    omega
  · exact hrows
  · intro ht
    by_contra hlt
    have hone : shape.numConstraints = 1 := by omega
    rw [← shape.matrices] at ht
    obtain ⟨-, hvars⟩ :=
      (isSatisfiedLinearized_iff.mp hsat).evaluate (List.ne_nil_of_length_pos ht)
    have hvars' : r_x.length = mleVars shape.numConstraints := hvars
    have hr' : safeLoglike shape.numConstraints = r_x.length := hr
    rw [← hr', hone] at hvars'
    exact absurd hvars' (by decide)

variable {st₁ st₂ : O.State}

/-- **When the prover succeeds**: the sum over the hypercube is `0`, and the first input can
be replaced by `1`. -/
theorem linearizeCcs_eq_ok (hsat : shape.isSatisfied S U W ck = .ok ())
    (hshape : Constructible shape) {gamma : F} {beta r_x : List F} {degree : ℕ} {Q : ℕ → M.Mle}
    {eq_beta : M.Mle} {msgs : List (List F)}
    (h : Honest M O shape (U.X ++ W.W) st gamma beta degree Q eq_beta msgs r_x st₁ st₂) :
    linearizeCcs M O S shape U W ck st = .ok out ↔
      Sumcheck.hypercubeSum (safeLoglike shape.numConstraints)
        (cssProducts shape gamma Q eq_beta) = 0 ∧
      matrixEvals shape (U.X.set 0 1 ++ W.W) r_x = matrixEvals shape (U.X ++ W.W) r_x ∧
      out = (⟨⟨U.commitment_W, U.X.set 0 1, r_x, matrixEvals shape (U.X ++ W.W) r_x⟩,
        ⟨degree, safeLoglike shape.numConstraints, cssProducts shape gamma Q eq_beta⟩, W, msgs,
        gamma, beta, safeLoglike shape.numConstraints⟩, st₂) := by
  obtain ⟨hW, hX, hcommit⟩ := of_isSatisfied hsat
  have hz : (U.X ++ W.W).length = shape.numIo + shape.numVars := by
    rw [List.length_append, hX, hW]
  have hsum := extractSum_of_accepted (E := Error) h.verify
  have heval : CanEvaluate shape r_x.length := by
    intro hMs
    have ht : 0 < shape.numMatrices := by
      rw [← shape.matrices]
      exact List.length_pos_of_ne_nil hMs
    exact ⟨hshape.rows, by rw [h.length_r_x, mleVars_eq_safeLoglike (hshape.two_rows ht)]⟩
  have hthetas : computeThetaValues shape (U.X ++ W.W) r_x = .ok _ :=
    (evaluations_eq_ok hz).mpr ⟨heval, rfl⟩
  have hlen : beta.length = r_x.length := h.length_beta.trans h.length_r_x.symm
  have he2 : computeEqualityPolynomialNative beta r_x = .ok _ :=
    bind_eq_ok.mpr ⟨(), failIf_eq_ok.mpr (not_not.mpr hlen), rfl⟩
  constructor
  · intro hlin
    simp only [linearizeCcs, h.challenges, bind_eq_ok, assert_eq_ok, exists_const,
      h.constructed.polynomial, Except.ok.injEq, exists_eq_left', h.prove, hsum, hthetas] at hlin
    obtain ⟨_, -, hzero, lccs, hlccs, _, hlinsat, _, -, rfl⟩ := hlin
    obtain ⟨-, -, -, rfl⟩ := linearizedNew_eq_ok.mp hlccs
    have htargets := (isSatisfiedLinearized_iff.mp hlinsat).targets
    refine ⟨hzero, ?_, rfl⟩
    apply ext_getD (by rw [length_matrixEvals, length_matrixEvals])
    intro i hi
    rw [length_matrixEvals] at hi
    exact (htargets i hi).2
  · rintro ⟨hzero, hinputs, rfl⟩
    rw [hzero] at hsum
    have hXlen : shape.numIo = (U.X.set 0 1).length := by rw [List.length_set, hX]
    have hvslen : shape.numMatrices = (matrixEvals shape (U.X ++ W.W) r_x).length :=
      (length_matrixEvals _ _).symm
    have hlccs : LCCSInstance.new shape U.commitment_W (U.X.set 0 1) r_x
        (matrixEvals shape (U.X ++ W.W) r_x) = .ok _ :=
      linearizedNew_eq_ok.mpr ⟨hXlen, h.length_r_x.symm, hvslen, rfl⟩
    have hlinsat : shape.isSatisfiedLinearized S
        ⟨U.commitment_W, U.X.set 0 1, r_x, matrixEvals shape (U.X ++ W.W) r_x⟩ W ck = .ok () := by
      apply isSatisfiedLinearized_iff.mpr
      constructor
      · exact hW
      · exact hXlen.symm
      · exact heval
      · intro i hi
        constructor
        · rw [← hvslen]
          exact hi
        · rw [hinputs]
      · exact hcommit
    have hassert : (Run.assert ((0 : F) = 0) : Run Error Unit) = .ok () := assert_eq_ok.mpr rfl
    rw [linearizeCcs, h.challenges]
    exact bind_eq_ok.mpr ⟨_, hsat, bind_eq_ok.mpr ⟨_, h.constructed.polynomial,
      bind_eq_ok.mpr ⟨_, h.prove, bind_eq_ok.mpr ⟨_, hsum, bind_eq_ok.mpr ⟨_, hassert,
        bind_eq_ok.mpr ⟨_, hthetas, bind_eq_ok.mpr ⟨_, hlccs, bind_eq_ok.mpr ⟨_, hlinsat,
          bind_eq_ok.mpr ⟨_, he2, rfl⟩⟩⟩⟩⟩⟩⟩⟩⟩

/-- The linearized instance is satisfied with the original witness. -/
theorem isSatisfied_of_linearized (h : linearizeCcs M O S shape U W ck st = .ok out) :
    shape.isSatisfiedLinearized S out.1.lccsInstance W ck = .ok () := by
  simp only [linearizeCcs, bind_eq_ok, Except.ok.injEq] at h
  obtain ⟨_, -, polynomial, -, ⟨msgs, r_x, st₂⟩, -, sum, -, _, -, thetas, -, lccs, -, _, hsat, _,
    -, rfl⟩ := h
  exact hsat

/-- **When a run completes**: the sum over the hypercube is `0`, the first input can
be replaced by `1`, and the value at `r_x` is `0`. -/
theorem completes_iff (hsat : shape.isSatisfied S U W ck = .ok ()) (hshape : Constructible shape)
    {gamma : F} {beta r_x : List F} {degree : ℕ} {Q : ℕ → M.Mle} {eq_beta : M.Mle}
    {msgs : List (List F)}
    (h : Honest M O shape (U.X ++ W.W) st gamma beta degree Q eq_beta msgs r_x st₁ st₂) :
    Completes M O S shape U W ck st ↔
      Sumcheck.hypercubeSum (safeLoglike shape.numConstraints)
        (cssProducts shape gamma Q eq_beta) = 0 ∧
      matrixEvals shape (U.X.set 0 1 ++ W.W) r_x = matrixEvals shape (U.X ++ W.W) r_x ∧
      (Sumcheck.combine (cssProducts shape gamma Q eq_beta) fun m => M.evaluate m r_x) = 0 := by
  constructor
  · rintro ⟨lin, st', st'', hlin, hver, -⟩
    obtain ⟨hzero, hinputs, heq⟩ := (linearizeCcs_eq_ok hsat hshape h).mp hlin
    obtain ⟨rfl, -⟩ := Prod.mk.inj heq
    have hverify := h.verify
    rw [hzero] at hverify
    simp only [verifyLinearization, h.challenges, bind_eq_ok, failIf_eq_ok, exists_const,
      h.constructed.polynomial, Except.ok.injEq, exists_eq_left', mapError_eq_ok, not_not,
      Sumcheck.ListOfProductsOfPolynomials.info, hverify] at hver
    obtain ⟨-, -, -, -, -, hvalue, -⟩ := hver
    exact ⟨hzero, hinputs, hvalue⟩
  · rintro ⟨hzero, hinputs, hvalue⟩
    have hlin := (linearizeCcs_eq_ok hsat hshape h).mpr ⟨hzero, hinputs, rfl⟩
    have hlinsat := isSatisfied_of_linearized hlin
    refine ⟨_, _, st₂, hlin, ?_, hlinsat⟩
    obtain ⟨hW, hX, -⟩ := of_isSatisfied hsat
    have hz : (U.X ++ W.W).length = shape.numIo + shape.numVars := by
      rw [List.length_append, hX, hW]
    have heval := (isSatisfiedLinearized_iff.mp hlinsat).evaluate
    have hthetas : computeThetaValues shape (U.X ++ W.W) r_x = .ok _ :=
      (evaluations_eq_ok hz).mpr ⟨heval, rfl⟩
    have hlen : beta.length = r_x.length := h.length_beta.trans h.length_r_x.symm
    have he2 : computeEqualityPolynomialNative beta r_x = .ok _ :=
      bind_eq_ok.mpr ⟨(), failIf_eq_ok.mpr (not_not.mpr hlen), rfl⟩
    have hverify := h.verify
    rw [hzero] at hverify
    have hcheck : ∀ {c : Prop} [Decidable c], ¬ c →
        (Run.failIf c Error.notSatisfied) = .ok () := fun hc => failIf_eq_ok.mpr hc
    rw [verifyLinearization, h.challenges]
    exact bind_eq_ok.mpr ⟨_, hcheck (not_not.mpr h.length_msgs), bind_eq_ok.mpr ⟨_,
      hcheck (not_not.mpr rfl), bind_eq_ok.mpr ⟨_, hcheck (not_not.mpr rfl), bind_eq_ok.mpr ⟨_,
        hcheck (not_not.mpr rfl), bind_eq_ok.mpr ⟨_, h.constructed.polynomial, bind_eq_ok.mpr ⟨_,
          mapError_eq_ok.mpr hverify, bind_eq_ok.mpr ⟨_, hcheck (not_not.mpr rfl),
            bind_eq_ok.mpr ⟨_, hcheck (not_not.mpr hvalue), bind_eq_ok.mpr ⟨_, he2,
              bind_eq_ok.mpr ⟨_, hthetas, bind_eq_ok.mpr ⟨_, hcheck (not_not.mpr rfl),
                rfl⟩⟩⟩⟩⟩⟩⟩⟩⟩⟩⟩

end Complete

/-! ## When linearization is complete -/

section Scripted

variable (F C B : Type) [Field F] [Zero B]

/-- The oracle that answers with the entries of a list. -/
def scripted : RandomOracle F C B where
  State := List F
  absorb st _ := st
  squeeze st n := ((List.range n).map fun i => st.getD i 0, st.drop n)
  squeezeTruncated st := (0, st)
  length_squeeze st n := by rw [List.length_map, List.length_range]

variable {F C B} {M : MultilinearExtensions F}

theorem challenges_scripted {shape : CCSShape F} (gamma : F) {beta : List F} (r : List F)
    (hbeta : beta.length = safeLoglike shape.numConstraints) :
    challenges (scripted F C B) shape (gamma :: (beta ++ r)) = (gamma, beta, r) := by
  have hsqueeze : (scripted F C B).squeeze (beta ++ r) (safeLoglike shape.numConstraints) =
      (beta, r) := by
    refine Prod.ext ?_ ?_
    · apply List.ext_getElem
      · show ((List.range _).map _).length = _
        rw [List.length_map, List.length_range, hbeta]
      · intro i h₁ h₂
        have hi : i < beta.length := h₂
        simp [scripted, List.getElem?_append_left hi, List.getElem?_eq_getElem hi]
    · show (beta ++ r).drop _ = r
      rw [← hbeta, List.drop_left]
  exact congrArg (Prod.mk gamma) hsqueeze

/-- The randomness of the prover is what the oracle answers. -/
theorem proveRounds_scripted (degree : ℕ) (products : List (F × List M.Mle)) (r : List F) :
    (Sumcheck.proveRounds (scripted F C B) degree r.length products r).2.1 = r := by
  induction r generalizing products with
  | nil => rfl
  | cons x r ih => exact congrArg (x :: ·) (ih _)

/-- A point has another one where `eq` does not vanish. -/
theorem exists_eq_ne_zero [DecidableEq F] (r : List F) : ∃ beta : List F, beta.length = r.length ∧
    (List.zipWith (fun x y => x * y + (1 - x) * (1 - y)) beta r).prod ≠ 0 := by
  induction r with
  | nil => exact ⟨[], rfl, by simp⟩
  | cons y r ih =>
      obtain ⟨beta, hlen, hne⟩ := ih
      by_cases hy : y = 0
      · refine ⟨0 :: beta, congrArg Nat.succ hlen, ?_⟩
        rw [List.zipWith_cons_cons, List.prod_cons, hy]
        simpa using hne
      · refine ⟨1 :: beta, congrArg Nat.succ hlen, ?_⟩
        rw [List.zipWith_cons_cons, List.prod_cons, one_mul, sub_self, zero_mul, add_zero]
        exact mul_ne_zero hy hne

end Scripted

/-- What makes every run of the linearization of a pair complete: the first input can
be replaced by `1`, and what the multisets select vanishes at every point. -/
structure Linearizable {F C : Type} [Field F] (shape : CCSShape F) (U : CCSInstance F C)
    (W : CCSWitness F) : Prop extends Constructible shape where
  inputs : ∀ j < shape.numMatrices,
    matrixProduct shape (U.X.set 0 1 ++ W.W) j = matrixProduct shape (U.X ++ W.W) j
  vanishes : ∀ r, r.length = safeLoglike shape.numConstraints → valueAt shape (U.X ++ W.W) r = 0

section Iff

variable {p : ℕ} [Fact p.Prime] {C B CK : Type} [AddCommGroup C] [Module (ZMod p) C]
  [DecidableEq C] [Zero B]

/-- **When linearization is complete.**  A satisfied pair is linearized and accepted with
every oracle exactly if its polynomial vanishes everywhere, not only on the hypercube. -/
theorem linearization_complete_iff (S : PolyCommitmentScheme (ZMod p) C CK)
    (M : MultilinearExtensions (ZMod p)) (shape : CCSShape (ZMod p)) (ck : CK)
    (U : CCSInstance (ZMod p) C) (W : CCSWitness (ZMod p))
    (h : shape.isSatisfied S U W ck = .ok ()) :
    (∀ (O : RandomOracle (ZMod p) C B) (st : O.State), Completes M O S shape U W ck st) ↔
      Linearizable shape U W := by
  obtain ⟨hW, hX, -⟩ := of_isSatisfied h
  have hz : (U.X ++ W.W).length = shape.numIo + shape.numVars := by
    rw [List.length_append, hX, hW]
  constructor
  · intro hall
    have hshape : Constructible shape := by
      obtain ⟨lin, st', -, hlin, -⟩ := hall (scripted (ZMod p) C B) []
      exact constructible_of_linearized hlin
    -- the oracle chooses the point, and challenges that do not vanish there
    have hpoint : ∀ r, r.length = safeLoglike shape.numConstraints →
        matrixEvals shape (U.X.set 0 1 ++ W.W) r = matrixEvals shape (U.X ++ W.W) r ∧
          valueAt shape (U.X ++ W.W) r = 0 := by
      intro r hr
      obtain ⟨beta, hbeta, hne⟩ := exists_eq_ne_zero r
      rw [hr] at hbeta
      obtain ⟨degree, Q, eq_beta, msgs, r_x, st₂, hrun⟩ := exists_honest M (scripted (ZMod p) C B)
        hshape hz _ (challenges_scripted 1 r hbeta)
      have hr_x : r_x = r := by
        obtain ⟨-, -, heq⟩ := bind_eq_ok.mp hrun.prove
        have hsnd := congrArg (fun out => out.2.1) (Except.ok.inj heq)
        rw [← show _ = r_x from hsnd, ← hr]
        exact proveRounds_scripted _ _ r
      rw [hr_x] at hrun
      obtain ⟨-, hinputs, hvalue⟩ := (completes_iff h hshape hrun).mp (hall _ _)
      rw [hrun.constructed.evaluate hshape.rows hr hbeta, one_mul] at hvalue
      exact ⟨hinputs, (mul_eq_zero.mp hvalue).resolve_right hne⟩
    refine { hshape with inputs := ?_, vanishes := fun r hr => (hpoint r hr).2 }
    intro j hj
    have hlen : ∀ z, (matrixProduct shape z j).length = shape.numConstraints := fun z =>
      length_matrixProduct z hj
    have htwo := hshape.two_rows (by omega)
    apply ext_getD (by rw [hlen, hlen])
    intro i hi
    rw [hlen] at hi
    have hi' : i < 2 ^ safeLoglike shape.numConstraints := by
      rw [two_pow_safeLoglike htwo]
      exact hi.trans_le (le_nextPowerOfTwo _)
    obtain ⟨r, hr, hentries⟩ := exists_mleAt_eq_getD (F := ZMod p) hi'
    have hevals := congrArg (List.getD · j 0) (hpoint r hr).1
    simp only [Nimfs.getD_matrixEvals _ _ hj] at hevals
    rwa [hentries _ (by rw [hlen]; exact htwo) (by rw [hlen]),
      hentries _ (by rw [hlen]; exact htwo) (by rw [hlen])] at hevals
  · intro hl O st
    have hshape := hl.toConstructible
    obtain ⟨degree, Q, eq_beta, msgs, r_x, st₂, hrun⟩ :=
      exists_honest M O hshape hz st (challenges O shape st).eta
    refine (completes_iff h hshape hrun).mpr ⟨?_, ?_, ?_⟩
    · exact hrun.constructed.hypercubeSum hshape hl.vanishes
    · apply ext_getD (by rw [length_matrixEvals, length_matrixEvals])
      intro j hj
      rw [length_matrixEvals] at hj
      rw [Nimfs.getD_matrixEvals _ _ hj, Nimfs.getD_matrixEvals _ _ hj, hl.inputs j hj]
    · rw [hrun.constructed.evaluate hshape.rows hrun.length_r_x hrun.length_beta,
        hl.vanishes r_x hrun.length_r_x, zero_mul]

/-- A matrix that reads the input in the first row and one that reads the witness in
the second; their product is `0` on both rows. -/
def diagonalShape : CCSShape (ZMod 3) where
  numConstraints := 2
  numVars := 1
  numIo := 1
  numMatrices := 2
  numMultisets := 1
  Ms := [⟨[1], [0], [0, 1, 1], 2⟩, ⟨[1], [1], [0, 0, 1], 2⟩]
  cSs := [(1, [0, 1])]
  numIo_pos := Nat.one_pos
  dims := by
    intro A hA
    rcases List.mem_pair.mp hA with rfl | rfl
    · constructor <;> decide
    · constructor <;> decide
  matrices := rfl
  multisets := rfl
  selectors := by decide

/-- The witness `0`, for which the second matrix vanishes. -/
theorem linearization_complete_iff_zero :
    (∀ (O : RandomOracle (ZMod 3) (ZMod 3) (ZMod 3)) (st : O.State),
      Completes (tables (ZMod 3)) O sumScheme diagonalShape ⟨0, [1]⟩ ⟨[0]⟩ () st) ↔
        Linearizable diagonalShape (⟨0, [1]⟩ : CCSInstance (ZMod 3) (ZMod 3)) ⟨[0]⟩ :=
  linearization_complete_iff sumScheme (tables (ZMod 3)) diagonalShape () ⟨0, [1]⟩ ⟨[0]⟩
    (by decide)

/-- **A satisfied pair whose linearization is rejected.**  The matrix products `(1, 0)`
and `(0, 1)` cancel on both rows; at the point `2` their value is `(1 - 2) * 2 = 1`. -/
theorem linearization_rejected :
    diagonalShape.isSatisfied sumScheme ⟨1, [1]⟩ ⟨[1]⟩ () = .ok () ∧
    ∃ linearization st',
      linearizeCcs (tables (ZMod 3)) (scripted (ZMod 3) (ZMod 3) (ZMod 3)) sumScheme diagonalShape
        ⟨1, [1]⟩ ⟨[1]⟩ () [1, 1, 2] = .ok (linearization, st') ∧
      diagonalShape.isSatisfiedLinearized sumScheme linearization.lccsInstance ⟨[1]⟩ () = .ok () ∧
      verifyLinearization (tables (ZMod 3)) (scripted (ZMod 3) (ZMod 3) (ZMod 3)) diagonalShape
        ⟨1, [1]⟩ ⟨[1]⟩ linearization [1, 1, 2] = .error (.error .notSatisfied) :=
  ⟨by decide, _, _, rfl, rfl, rfl⟩

end Iff

end NexusVm.Nova.Linearization
