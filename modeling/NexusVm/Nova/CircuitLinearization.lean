import NexusVm.Nova.CircuitSumcheck
import NexusVm.Nova.Linearization
import Mathlib.Tactic.NormNum.Prime

/-!
# The linearization verifier in a circuit

`nova/src/tree_folding/linearization_augmented_circuit.rs`.  The circuit recomputes the
last value of the sumcheck with its own power of `gamma`, from evaluations that are
allocated apart from the instance's targets.
-/

namespace NexusVm.Nova.Linearization

open Ccs Gadget

/-- `LCCSLinearizationVar`: the values of the allocated variables. -/
structure LCCSLinearizationVar (F : Type) where
  gamma : F
  beta : List F
  vs : List F
  sumcheckProof : List (List F)
  thetas : List F

/-- `LinearizationVerificationOutput`. -/
structure LinearizationVerificationOutput (F : Type) where
  rsP : List F
  cr : F
deriving DecidableEq

section Circuit

variable {F C B : Type} [Field F] (O : RandomOracle F C B)

/-- `new_variable` allocates the targets of the instance twice. -/
def LCCSLinearizationVar.newVariable {M : MultilinearExtensions F}
    (linearization : LCCSLinearization M C) : LCCSLinearizationVar F where
  gamma := linearization.gamma
  beta := linearization.beta
  vs := linearization.lccsInstance.vs
  sumcheckProof := linearization.sumcheckProof
  thetas := linearization.lccsInstance.vs

/-- `generate_sumcheck_challenges`. -/
def generateSumcheckChallenges (sumcheckRounds : ℕ) (st : O.State) : F × List F × O.State :=
  let (gamma, st) := O.squeezeOne st
  let (beta, st) := O.squeeze st sumcheckRounds
  (gamma, beta, st)

/-- The product of `compute_equality_polynomial`. -/
def equalityPolynomial (a b : List F) : F :=
  (List.zipWith (fun ai bi => ai * bi + (1 - ai) * (1 - bi)) a b).prod

def computeEqualityPolynomial (a b : List F) : Gadget F := do
  -- "Input vectors must be the same length"
  enforce (a.length = b.length)
  return equalityPolynomial a b

/-- The constants `cSs` of the circuit. -/
def circuitMultisets : List (F × List ℕ) := [(1, [0, 1]), (-1, [2])]

/-- `term_sum`: what the constants select of the evaluations. -/
def termSum (thetas : List F) : Gadget F :=
  circuitMultisets.foldlM
    (fun acc cS => do
      let product ← cS.2.foldlM
        (fun acc j => do
          let theta ← entry thetas j
          return acc * theta)
        cS.1
      return acc + product)
    0

/-- `gamma_exp`, with `NUM_MATRICES` steps. -/
def gammaExp (gamma : F) : F := (List.range 3).foldl (fun gammaExp _ => gammaExp * gamma) gamma

/-- `verify_linearization_in_circuit`. -/
def verifyLinearizationInCircuit (input : LCCSLinearizationVar F)
    (polynomialInfo : Sumcheck.PolynomialInfo) (st : O.State) :
    Gadget (LinearizationVerificationOutput F × O.State) := do
  let (gamma, beta, st) := generateSumcheckChallenges O polynomialInfo.numVariables st
  enforceEqual gamma input.gamma
  (beta.zip input.beta).forM fun b => enforceEqual b.1 b.2
  let (expected, sumcheckRandomChallenges, st) ←
    Sumcheck.verifyAllSumcheck O input.sumcheckProof 0 polynomialInfo st
  let e2 ← computeEqualityPolynomial beta sumcheckRandomChallenges
  let sum ← termSum input.thetas
  let cr := sum * gammaExp gamma * e2
  enforceEqual expected cr
  let first ← entry beta 0
  return (⟨sumcheckRandomChallenges, first⟩, st)

end Circuit

section Constraints

variable {F C B : Type} [Field F] {O : RandomOracle F C B}

theorem gammaExp_eq (gamma : F) : gammaExp gamma = gamma ^ 4 := by
  show gamma * gamma * gamma * gamma = gamma ^ 4
  ring

theorem termSum_iff {thetas : List F} {sum : F} : termSum thetas sum ↔
    2 < thetas.length ∧ sum = thetas.getD 0 0 * thetas.getD 1 0 - thetas.getD 2 0 := by
  have hentry : ∀ i x, thetas[i]? = some x ↔ i < thetas.length ∧ x = thetas.getD i 0 := by
    intro i x
    rw [List.getElem?_eq_some_iff]
    constructor
    · rintro ⟨hi, rfl⟩
      exact ⟨hi, (List.getD_eq_getElem _ _ hi).symm⟩
    · rintro ⟨hi, rfl⟩
      exact ⟨hi, (List.getD_eq_getElem _ _ hi).symm⟩
  simp only [termSum, circuitMultisets, List.foldlM_cons, List.foldlM_nil, bind_iff, entry_iff,
    hentry, pure_iff]
  constructor
  · rintro ⟨_, ⟨_, ⟨_, ⟨_, ⟨-, rfl⟩, rfl⟩, _, ⟨_, ⟨-, rfl⟩, rfl⟩, rfl⟩, rfl⟩, _,
      ⟨_, ⟨_, ⟨_, ⟨h2, rfl⟩, rfl⟩, rfl⟩, rfl⟩, rfl⟩
    exact ⟨h2, by ring⟩
  · rintro ⟨h2, rfl⟩
    refine ⟨_, ⟨_, ⟨_, ⟨_, ⟨by omega, rfl⟩, rfl⟩, _, ⟨_, ⟨by omega, rfl⟩, rfl⟩, rfl⟩, rfl⟩, _,
      ⟨_, ⟨_, ⟨_, ⟨h2, rfl⟩, rfl⟩, rfl⟩, rfl⟩, by ring⟩

/-- The value that is checked against the sumcheck, for any evaluations. -/
def rightSide (thetas : List F) (gamma : F) (beta point : List F) : F :=
  (thetas.getD 0 0 * thetas.getD 1 0 - thetas.getD 2 0) * gamma ^ 4 * equalityPolynomial beta point

/-- What a satisfying assignment fulfills. -/
structure Verified (O : RandomOracle F C B) (input : LCCSLinearizationVar F)
    (info : Sumcheck.PolynomialInfo) (st : O.State) (output : LinearizationVerificationOutput F)
    (st' : O.State) (gamma : F) (beta : List F) (st₁ : O.State) : Prop where
  gamma_eq : gamma = input.gamma
  beta_eq : ∀ b ∈ beta.zip input.beta, b.1 = b.2
  length_point : beta.length = output.rsP.length
  length_thetas : 2 < input.thetas.length
  sumcheck : Sumcheck.verifyAllSumcheck O input.sumcheckProof 0 info st₁
    (rightSide input.thetas gamma beta output.rsP, output.rsP, st')
  cr : beta[0]? = some output.cr

/-- **The constraints of the circuit.** -/
theorem verifyLinearizationInCircuit_iff {input : LCCSLinearizationVar F}
    {info : Sumcheck.PolynomialInfo} {st : O.State} {output : LinearizationVerificationOutput F}
    {st' : O.State} {gamma : F} {beta : List F} {st₁ : O.State}
    (h : generateSumcheckChallenges O info.numVariables st = (gamma, beta, st₁)) :
    verifyLinearizationInCircuit O input info st (output, st') ↔
      Verified O input info st output st' gamma beta st₁ := by
  obtain ⟨rsP, cr⟩ := output
  simp only [verifyLinearizationInCircuit, h, bind_iff, enforceEqual_iff, exists_const, forM_iff,
    Prod.exists, computeEqualityPolynomial, enforce_iff, pure_iff, termSum_iff, entry_iff,
    Prod.mk.injEq, LinearizationVerificationOutput.mk.injEq, gammaExp_eq]
  constructor
  · rintro ⟨hgamma, hbeta, _, _, _, hsumcheck, _, ⟨hlen, rfl⟩, _, ⟨hthetas, rfl⟩, rfl, _, hcr,
      ⟨rfl, rfl⟩, rfl⟩
    exact ⟨hgamma, hbeta, hlen, hthetas, hsumcheck, hcr⟩
  · rintro ⟨hgamma, hbeta, hlen, hthetas, hsumcheck, hcr⟩
    exact ⟨hgamma, hbeta, _, _, _, hsumcheck, _, ⟨hlen, rfl⟩, _, ⟨hthetas, rfl⟩, rfl, _, hcr,
      ⟨rfl, rfl⟩, rfl⟩

/-! ## Soundness and completeness -/

/-- In every satisfying assignment the evaluations are the targets, what is checked against
the last claim of the sumcheck is made of the targets, and the output has this value and
the sumcheck's point. -/
def CircuitSound (O : RandomOracle F C B) (info : Sumcheck.PolynomialInfo) (st : O.State) : Prop :=
  ∀ (input : LCCSLinearizationVar F) (output : LinearizationVerificationOutput F) (st' : O.State),
    input.thetas.length = input.vs.length →
    verifyLinearizationInCircuit O input info st (output, st') →
    ∀ gamma beta st₁, generateSumcheckChallenges O info.numVariables st = (gamma, beta, st₁) →
      input.thetas = input.vs ∧
      Sumcheck.verifyAllSumcheck O input.sumcheckProof 0 info st₁
        (rightSide input.vs gamma beta output.rsP, output.rsP, st') ∧
      output.cr = rightSide input.vs gamma beta output.rsP

/-- Messages of zeros leave the claim `0` in every round. -/
theorem exists_zero_rounds {n k m : ℕ} (hm : k + n ≤ m) (st : O.State) :
    ∃ point st', point.length = n ∧
      Sumcheck.verifySumcheckRounds O (List.replicate m [0, 0]) (List.range' k n) 0 st
        (0, point, st') := by
  induction n generalizing k st with
  | zero => exact ⟨[], st, rfl, rfl⟩
  | succ n ih =>
      obtain ⟨point, st', hlen, hrest⟩ := ih (k := k + 1) (by omega)
        (O.absorb (O.squeezeOne (O.absorb st ([(0 : F), 0].map .scalar))).2
          [.scalar (O.squeezeOne (O.absorb st ([(0 : F), 0].map .scalar))).1])
      have hone : ((1 : ℕ).factorial : F) ≠ 0 := by
        rw [Nat.factorial_one, Nat.cast_one]
        exact one_ne_zero
      have hround : ∀ r : F, Sumcheck.verifySumcheckRound 0 [(0 : F), 0] r 0 := by
        intro r
        rw [Sumcheck.verifySumcheckRound_iff rfl Nat.one_pos hone, Sumcheck.eval_interpolated]
        refine ⟨add_zero 0, (Finset.sum_eq_zero fun i hi => ?_).symm⟩
        have hzero : [(0 : F), 0].getD i 0 = 0 := by
          rcases i with - | - | i
          · rfl
          · rfl
          · rfl
        rw [hzero, zero_mul]
      have hentry : (List.replicate m [(0 : F), 0])[k]? = some [0, 0] := by
        rw [List.getElem?_replicate, if_pos (by omega)]
      rw [List.range'_succ, Sumcheck.verifySumcheckRounds]
      exact ⟨(O.squeezeOne (O.absorb st ([(0 : F), 0].map .scalar))).1 :: point, st',
        congrArg Nat.succ hlen, _, hentry, 0, hround _, _, hrest, rfl⟩

/-- Evaluations of zeros are accepted whatever the targets are. -/
theorem exists_verified_zero {info : Sumcheck.PolynomialInfo} (hvars : 0 < info.numVariables)
    (st : O.State) (vs : List F) : ∃ (gamma : F) (beta : List F) (sumcheckProof : List (List F))
      (output : LinearizationVerificationOutput F) (st' : O.State),
      verifyLinearizationInCircuit O ⟨gamma, beta, vs, sumcheckProof, [0, 0, 0]⟩ info st
        (output, st') := by
  obtain ⟨gamma, beta, st₁, hchallenges⟩ : ∃ gamma beta st₁,
      generateSumcheckChallenges O info.numVariables st = (gamma, beta, st₁) := ⟨_, _, _, rfl⟩
  have hbeta : beta.length = info.numVariables := by
    rw [← show _ = beta from congrArg (fun x => x.2.1) hchallenges]
    exact O.length_squeeze _ _
  obtain ⟨point, st', hlen, hrounds⟩ := exists_zero_rounds (O := O) (k := 0)
    (n := info.numVariables) (m := info.numVariables) (by omega)
    (O.absorb st₁ [.scalar (info.maxMultiplicands : F), .scalar (info.numVariables : F),
      .scalar (info.numTerms : F)])
  have hright : rightSide [0, 0, 0] gamma beta point = 0 := by
    simp [rightSide]
  have hcr : beta[0]? = some (beta.getD 0 0) := by
    rw [List.getElem?_eq_getElem (by omega), List.getD_eq_getElem _ _ (by omega)]
  refine ⟨gamma, beta, List.replicate info.numVariables [0, 0], ⟨point, beta.getD 0 0⟩, st', ?_⟩
  rw [verifyLinearizationInCircuit_iff hchallenges]
  constructor
  · rfl
  · intro b hb
    rw [List.zip, List.zipWith_self] at hb
    obtain ⟨x, -, rfl⟩ := List.mem_map.mp hb
    rfl
  · exact hbeta.trans hlen.symm
  · exact Nat.lt_succ_self 2
  · rw [hright, Sumcheck.verifyAllSumcheck, List.range_eq_range']
    exact hrounds
  · exact hcr

/-- **The circuit is sound only where there is none**: without variables it has no challenge
to return, and otherwise the evaluations are free of the targets.  What it returns is the
sumcheck's point, but the first challenge instead of the checked value. -/
theorem circuitSound_iff (O : RandomOracle F C B) (info : Sumcheck.PolynomialInfo)
    (st : O.State) :
    (CircuitSound O info st ↔ info.numVariables = 0) ∧
      ∀ input output st' gamma beta st₁,
        generateSumcheckChallenges O info.numVariables st = (gamma, beta, st₁) →
        verifyLinearizationInCircuit O input info st (output, st') →
        Sumcheck.verifyAllSumcheck O input.sumcheckProof 0 info st₁
            (rightSide input.thetas gamma beta output.rsP, output.rsP, st') ∧
          beta[0]? = some output.cr := by
  constructor
  · constructor
    · intro hsound
      by_contra hvars
      obtain ⟨gamma, beta, proof, output, st', hverified⟩ :=
        exists_verified_zero (O := O) (Nat.pos_of_ne_zero hvars) st [1, 1, 1]
      obtain ⟨heq, -⟩ := hsound _ output st' rfl hverified _ _ _ rfl
      exact zero_ne_one (List.cons_eq_cons.mp heq).1
    · intro hvars input output st' _ hverified gamma beta st₁ hchallenges
      have hcr := ((verifyLinearizationInCircuit_iff hchallenges).mp hverified).cr
      have hbeta : beta.length = 0 := by
        rw [← hvars, ← show _ = beta from congrArg (fun x => x.2.1) hchallenges]
        exact O.length_squeeze _ _
      obtain ⟨hlt, -⟩ := List.getElem?_eq_some_iff.mp hcr
      omega
  · intro input output st' gamma beta st₁ hchallenges hverified
    have h := (verifyLinearizationInCircuit_iff hchallenges).mp hverified
    exact ⟨h.sumcheck, h.cr⟩

/-- Targets `1, 1, 1` with evaluations `0, 0, 0`. -/
theorem targets_unchecked :
    ¬CircuitSound (zeroOracle (ZMod 3) (ZMod 3) (ZMod 3)) ⟨3, 1, 2⟩ () := by
  intro h
  have hinfo : 0 < (⟨3, 1, 2⟩ : Sumcheck.PolynomialInfo).numVariables := Nat.one_pos
  obtain ⟨gamma, beta, proof, output, st', hverified⟩ :=
    exists_verified_zero (O := zeroOracle (ZMod 3) (ZMod 3) (ZMod 3)) hinfo () [1, 1, 1]
  obtain ⟨heq, -⟩ := h _ output st' rfl hverified _ _ _ rfl
  have hne : [(0 : ZMod 3), 0, 0] ≠ [1, 1, 1] := by decide
  exact hne heq

end Constraints

/-- The shape that `from` gives an R1CS: three matrices, and the product of the first two
against the third. -/
structure R1csForm {F : Type} [Field F] (shape : CCSShape F) : Prop where
  numMatrices : shape.numMatrices = 3
  cSs : shape.cSs = [(1, [0, 1]), (-1, [2])]

section Complete

variable {F C B CK : Type} [Field F] [AddCommGroup C] [Module F C] [DecidableEq F] [DecidableEq C]

/-- What `linearize_ccs` returns from a state of the sponge satisfies the circuit from this
state. -/
def CircuitCompletes (M : MultilinearExtensions F) (O : RandomOracle F C B)
    (S : PolyCommitmentScheme F C CK) (shape : CCSShape F) (U : CCSInstance F C)
    (W : CCSWitness F) (ck : CK) (st : O.State) : Prop :=
  ∀ linearization st', linearizeCcs M O S shape U W ck st = .ok (linearization, st') →
    (verifyLinearizationInCircuit O (.newVariable linearization) linearization.polynomial.info
      st).Satisfiable

variable {M : MultilinearExtensions F} {O : RandomOracle F C B} {S : PolyCommitmentScheme F C CK}
  {shape : CCSShape F} {U : CCSInstance F C} {W : CCSWitness F} {ck : CK} {st : O.State}

omit [AddCommGroup C] [Module F C] [DecidableEq F] [DecidableEq C] in
/-- The polynomial of an R1CS has degree three. -/
theorem Constructed.degree_eq (hform : R1csForm shape) {z beta : List F} {gamma : F} {degree : ℕ}
    {Q : ℕ → M.Mle} {eq_beta : M.Mle} (h : Constructed M shape z beta gamma degree Q eq_beta) :
    degree = 3 := by
  obtain ⟨m, hm, hrun⟩ := bind_eq_ok.mp h.polynomial
  rw [hform.cSs] at hrun
  simp only [List.foldlM_cons, List.foldlM_nil, bind_eq_ok] at hrun
  obtain ⟨g₁, h₁, g₂, h₂, heq⟩ := hrun
  have hmap : ∀ {S : List ℕ} {Qs : List M.Mle}, S.mapM (matrixMle M shape z) = .ok Qs →
      Qs.length = S.length := by
    intro S Qs hQs
    rw [mapM_eq_ok_iff] at hQs
    exact hQs.length_eq.symm
  obtain ⟨Qs₁, hQs₁, hadd₁⟩ := bind_eq_ok.mp h₁
  obtain ⟨Qs₂, hQs₂, hadd₂⟩ := bind_eq_ok.mp h₂
  obtain ⟨-, -, rfl⟩ := Sumcheck.addProduct_eq_ok.mp hadd₁
  obtain ⟨-, -, rfl⟩ := Sumcheck.addProduct_eq_ok.mp hadd₂
  have hdegree := congrArg Sumcheck.ListOfProductsOfPolynomials.maxMultiplicands
    (Except.ok.inj heq)
  simp only [Sumcheck.ListOfProductsOfPolynomials.new, List.length_append, hmap hQs₁, hmap hQs₂,
    List.length_cons, List.length_nil] at hdegree
  omega

omit [AddCommGroup C] [Module F C] [DecidableEq F] [DecidableEq C] in
/-- The prover's messages have one evaluation more than the degree. -/
theorem length_of_mem_messages (degree n : ℕ) (products : List (F × List M.Mle)) (st : O.State) :
    ∀ evals ∈ (Sumcheck.proveRounds O degree n products st).1, evals.length = degree + 1 := by
  induction n generalizing products st with
  | zero => exact fun evals h => absurd h List.not_mem_nil
  | succ n ih =>
      intro evals h
      rcases List.mem_cons.mp h with rfl | h
      · rw [Sumcheck.proveRound, List.length_map, List.length_range]
      · exact ih _ _ evals h

/-- What the multisets of an R1CS select. -/
theorem R1csForm.residual_eq {F : Type} [Field F] {shape : CCSShape F} (hform : R1csForm shape)
    (theta : ℕ → F) : Nimfs.residual shape theta = theta 0 * theta 1 - theta 2 := by
  rw [Nimfs.residual, hform.cSs]
  simp only [List.map_cons, List.map_nil, List.prod_cons, List.prod_nil, List.sum_cons,
    List.sum_nil]
  ring

/-- A satisfied pair sums to `0` over the hypercube. -/
theorem Constructed.hypercubeSum_of_satisfied (hform : R1csForm shape)
    (hsat : shape.isSatisfied S U W ck = .ok ()) {beta : List F} {gamma : F} {degree : ℕ}
    {Q : ℕ → M.Mle} {eq_beta : M.Mle}
    (h : Constructed M shape (U.X ++ W.W) beta gamma degree Q eq_beta) :
    Sumcheck.hypercubeSum (safeLoglike shape.numConstraints)
      (cssProducts shape gamma Q eq_beta) = 0 := by
  have hconst : Nimfs.constantTerm shape = 0 := by
    rw [Nimfs.constantTerm, hform.cSs]
    simp
  apply Finset.sum_eq_zero
  intro b hb
  rw [Finset.mem_range] at hb
  have hindex : ∀ j < shape.numMatrices, M.index (Q j) b =
      (matrixProduct shape (U.X ++ W.W) j).getD
        (reverseBits (safeLoglike shape.numConstraints) b) 0 := by
    intro j hj
    have hidx := index_vecToArkMle ((matrixMle_eq_ok hj).mp (h.products j hj)).2 (b := b)
    rw [length_matrixProduct _ hj] at hidx
    exact hidx hb
  rw [combine_cssProducts _ hindex, Nimfs.residual_eq_zero hsat (Or.inr hconst)
    (reverseBits_lt (safeLoglike shape.numConstraints) b), zero_mul]

end Complete

/-! ## When the circuit is complete and two rows that cancel out -/

section Iff

variable {p : ℕ} [Fact p.Prime] {C B CK : Type} [AddCommGroup C] [Module (ZMod p) C]
  [DecidableEq C]

/-- The residual of a pair vanishes at every point where it is linearized, also outside of the
hypercube: the verifier expects zero there. -/
def VanishesWhereLinearized (shape : CCSShape (ZMod p)) (U : CCSInstance (ZMod p) C)
    (W : CCSWitness (ZMod p)) : Prop :=
  2 ≤ shape.numConstraints → ∀ r, r.length = safeLoglike shape.numConstraints →
    matrixEvals shape (U.X.set 0 1 ++ W.W) r = matrixEvals shape (U.X ++ W.W) r →
    valueAt shape (U.X ++ W.W) r = 0

variable {M : MultilinearExtensions (ZMod p)} {O : RandomOracle (ZMod p) C B}
  {S : PolyCommitmentScheme (ZMod p) C CK} {shape : CCSShape (ZMod p)}
  {U : CCSInstance (ZMod p) C} {W : CCSWitness (ZMod p)} {ck : CK} {st : O.State}

/-- For one run: the prover's last value has the factor `gamma`, the circuit's `gamma ^ 4`. -/
theorem circuitCompletes_iff (hO : O.AbsorbsSizes) (hp : 3 < p) (hform : R1csForm shape)
    (hsat : shape.isSatisfied S U W ck = .ok ()) (hshape : Constructible shape)
    {gamma : ZMod p} {beta r_x : List (ZMod p)} {degree : ℕ} {Q : ℕ → M.Mle} {eq_beta : M.Mle}
    {msgs : List (List (ZMod p))} {st₁ st₂ : O.State}
    (h : Honest M O shape (U.X ++ W.W) st gamma beta degree Q eq_beta msgs r_x st₁ st₂) :
    CircuitCompletes M O S shape U W ck st ↔
      (matrixEvals shape (U.X.set 0 1 ++ W.W) r_x = matrixEvals shape (U.X ++ W.W) r_x →
        valueAt shape (U.X ++ W.W) r_x * (gamma * equalityPolynomial beta r_x) =
          valueAt shape (U.X ++ W.W) r_x * gamma ^ 4 * equalityPolynomial beta r_x) := by
  have hdegree := h.constructed.degree_eq hform
  have hzero := h.constructed.hypercubeSum_of_satisfied hform hsat
  have hvars : 0 < safeLoglike shape.numConstraints := safeLoglike_pos hshape.rows
  have hchallenges : generateSumcheckChallenges O (safeLoglike shape.numConstraints) st =
      (gamma, beta, st₁) := h.challenges
  have hevals : ∀ evals ∈ msgs, evals.length = degree + 1 := by
    obtain ⟨-, -, heq⟩ := bind_eq_ok.mp h.prove
    rw [← show _ = msgs from congrArg Prod.fst (Except.ok.inj heq)]
    exact length_of_mem_messages degree _ _ _
  have hsumcheck := fun expected point st' =>
    Sumcheck.verifyAllSumcheck_iff hO ⟨degree, safeLoglike shape.numConstraints,
      (cssProducts shape gamma Q eq_beta).length⟩ hvars (by rw [hdegree]; exact hp) 0
      h.length_msgs hevals st₁ st' expected point
  -- what the circuit computes from the targets
  have hright : rightSide (matrixEvals shape (U.X ++ W.W) r_x) gamma beta r_x =
      valueAt shape (U.X ++ W.W) r_x * gamma ^ 4 * equalityPolynomial beta r_x := by
    have htheta : ∀ j < 3, (matrixEvals shape (U.X ++ W.W) r_x).getD j 0 =
        mleAt (matrixProduct shape (U.X ++ W.W) j) r_x := by
      intro j hj
      exact Nimfs.getD_matrixEvals _ _ (by rw [hform.numMatrices]; exact hj)
    rw [rightSide, htheta 0 (by omega), htheta 1 (by omega), htheta 2 (by omega), valueAt,
      hform.residual_eq]
  have hvalue : (Sumcheck.combine (cssProducts shape gamma Q eq_beta) fun m => M.evaluate m r_x) =
      valueAt shape (U.X ++ W.W) r_x * (gamma * equalityPolynomial beta r_x) :=
    h.constructed.evaluate hshape.rows h.length_r_x h.length_beta
  have hverify := h.verify
  rw [hzero, hvalue] at hverify
  constructor
  · intro hcomplete hinputs
    obtain ⟨⟨output, st'⟩, hout⟩ := hcomplete _ _
      ((linearizeCcs_eq_ok hsat hshape h).mpr ⟨hzero, hinputs, rfl⟩)
    have hverified := (verifyLinearizationInCircuit_iff hchallenges).mp hout
    have hnative := (hsumcheck _ _ _).mp hverified.sumcheck
    rw [hverify] at hnative
    obtain ⟨hsub, -⟩ := Prod.mk.inj (Except.ok.inj hnative)
    obtain ⟨hpoint, hexpected⟩ := Sumcheck.SubClaim.mk.inj hsub
    rw [hexpected, ← hpoint]
    exact hright
  · intro hequal linearization st' hlin
    obtain ⟨-, hinputs, heq⟩ := (linearizeCcs_eq_ok hsat hshape h).mp hlin
    obtain ⟨rfl, rfl⟩ := Prod.mk.inj heq
    refine ⟨(⟨r_x, beta.getD 0 0⟩, st'), (verifyLinearizationInCircuit_iff hchallenges).mpr ?_⟩
    constructor
    · rfl
    · intro b hb
      simp only [LCCSLinearizationVar.newVariable, List.zip, List.zipWith_self] at hb
      obtain ⟨x, -, rfl⟩ := List.mem_map.mp hb
      rfl
    · exact h.length_beta.trans h.length_r_x.symm
    · show 2 < (matrixEvals shape (U.X ++ W.W) r_x).length
      rw [length_matrixEvals, hform.numMatrices]
      exact Nat.lt_succ_self 2
    · apply (hsumcheck _ _ _).mpr
      show _ = Except.ok (Sumcheck.SubClaim.mk r_x
        (rightSide (matrixEvals shape (U.X ++ W.W) r_x) gamma beta r_x), st')
      rw [hright, ← hequal hinputs]
      exact hverify
    · have hbeta := h.length_beta
      rw [List.getElem?_eq_getElem (by omega), List.getD_eq_getElem _ _ (by omega)]

/-- **When the circuit is complete.**  For a satisfied pair of R1CS form every output of the
prover satisfies the circuit, for every oracle, exactly if the residual vanishes at every
point where the pair is linearized, not only on the rows. -/
theorem circuit_complete_iff [Zero B] (S : PolyCommitmentScheme (ZMod p) C CK)
    (M : MultilinearExtensions (ZMod p)) (shape : CCSShape (ZMod p)) (hform : R1csForm shape)
    (hp : 3 < p) (ck : CK) (U : CCSInstance (ZMod p) C) (W : CCSWitness (ZMod p))
    (hsat : shape.isSatisfied S U W ck = .ok ()) :
    (∀ O : RandomOracle (ZMod p) C B, O.AbsorbsSizes → ∀ st : O.State,
        CircuitCompletes M O S shape U W ck st) ↔
      VanishesWhereLinearized shape U W := by
  obtain ⟨hW, hX, -⟩ := of_isSatisfied hsat
  have hz : (U.X ++ W.W).length = shape.numIo + shape.numVars := by
    rw [List.length_append, hX, hW]
  have hmultisets : 0 < shape.numMultisets := by
    rw [← shape.multisets, hform.cSs]
    exact Nat.succ_pos 1
  have hmatrices : 0 < shape.numMatrices := by
    rw [hform.numMatrices]
    exact Nat.succ_pos 2
  constructor
  · intro hall hrows r hr hinputs
    have hshape : Constructible shape := ⟨hmultisets, by omega, fun _ => hrows⟩
    -- the oracle chooses the point, `gamma = -1`, and `beta` so that `eq` does not vanish
    obtain ⟨beta, hbeta, hne⟩ := exists_eq_ne_zero r
    rw [hr] at hbeta
    obtain ⟨degree, Q, eq_beta, msgs, r_x, st₂, hrun⟩ := exists_honest M (scripted (ZMod p) C B)
      hshape hz _ (challenges_scripted (-1) r hbeta)
    have hr_x : r_x = r := by
      obtain ⟨-, -, heq⟩ := bind_eq_ok.mp hrun.prove
      have hsnd := congrArg (fun out => out.2.1) (Except.ok.inj heq)
      rw [← show _ = r_x from hsnd, ← hr]
      exact proveRounds_scripted _ _ r
    rw [hr_x] at hrun
    have hequal := (circuitCompletes_iff (fun _ _ => rfl) hp hform hsat hshape hrun).mp
      (hall (scripted (ZMod p) C B) (fun _ _ => rfl) _) hinputs
    have htwo : (2 : ZMod p) ≠ 0 := by
      intro h2
      have hdvd : p ∣ 2 := (ZMod.natCast_eq_zero_iff 2 p).mp (by exact_mod_cast h2)
      have := Nat.le_of_dvd Nat.two_pos hdvd
      omega
    have hprod : valueAt shape (U.X ++ W.W) r * (2 * equalityPolynomial beta r) = 0 := by
      linear_combination -hequal
    exact (mul_eq_zero.mp hprod).resolve_right (mul_ne_zero htwo hne)
  · intro hvanishes O hO st linearization st' hlin
    have hshape := constructible_of_linearized hlin
    obtain ⟨degree, Q, eq_beta, msgs, r_x, st₂, hrun⟩ :=
      exists_honest M O hshape hz st (challenges O shape st).eta
    refine (circuitCompletes_iff hO hp hform hsat hshape hrun).mpr ?_ linearization st' hlin
    intro hinputs
    rw [hvanishes (hshape.two_rows hmatrices) r_x hrun.length_r_x hinputs, zero_mul, zero_mul,
      zero_mul]

end Iff

scoped instance fact_prime_five : Fact (Nat.Prime 5) := ⟨by norm_num⟩

/-- A polynomial is committed to by the sum of its entries. -/
def crossScheme : PolyCommitmentScheme (ZMod 5) (ZMod 5) Unit where
  commit p _ := p.Z.sum
  linear _ _ _ _ _ _ h := sum_comb h _ _

/-- The product of a row that reads the input and one that reads the witness. -/
def crossShape : CCSShape (ZMod 5) where
  numConstraints := 2
  numVars := 1
  numIo := 1
  numMatrices := 3
  numMultisets := 2
  Ms := [⟨[1], [0], [0, 1, 1], 2⟩, ⟨[1], [1], [0, 0, 1], 2⟩, ⟨[], [], [0, 0, 0], 2⟩]
  cSs := [(1, [0, 1]), (-1, [2])]
  numIo_pos := Nat.one_pos
  dims := by
    intro A hA
    simp only [List.mem_cons, List.not_mem_nil, or_false] at hA
    rcases hA with rfl | rfl | rfl
    · constructor <;> decide
    · constructor <;> decide
    · constructor <;> decide
  matrices := rfl
  multisets := rfl
  selectors := by decide

theorem circuit_complete_iff_cross :
    (∀ O : RandomOracle (ZMod 5) (ZMod 5) (ZMod 5), O.AbsorbsSizes → ∀ st : O.State,
        CircuitCompletes (tables (ZMod 5)) O crossScheme crossShape ⟨1, [1]⟩ ⟨[1]⟩ () st) ↔
      VanishesWhereLinearized crossShape (⟨1, [1]⟩ : CCSInstance (ZMod 5) (ZMod 5)) ⟨[1]⟩ :=
  circuit_complete_iff crossScheme (tables (ZMod 5)) crossShape ⟨rfl, rfl⟩ (by decide) () ⟨1, [1]⟩
    ⟨[1]⟩ (by decide)

/-- **A satisfied pair whose linearization violates the circuit.**  The rows `(1, 0)` and
`(0, 1)` cancel out; at the point `2` the prover's value is `-2 * gamma * eq`. -/
theorem circuit_rejects_linearization :
    crossShape.isSatisfied crossScheme ⟨1, [1]⟩ ⟨[1]⟩ () = .ok () ∧
      ∃ linearization st',
        linearizeCcs (tables (ZMod 5)) (scripted (ZMod 5) (ZMod 5) (ZMod 5)) crossScheme crossShape
          ⟨1, [1]⟩ ⟨[1]⟩ () [4, 1, 2] = .ok (linearization, st') ∧
        ¬(verifyLinearizationInCircuit (scripted (ZMod 5) (ZMod 5) (ZMod 5))
          (.newVariable linearization) linearization.polynomial.info [4, 1, 2]).Satisfiable := by
  refine ⟨by decide, _, _, rfl, ?_⟩
  rintro ⟨⟨output, st'⟩, hout⟩
  have hverified := (verifyLinearizationInCircuit_iff rfl).mp hout
  have hO : (scripted (ZMod 5) (ZMod 5) (ZMod 5)).AbsorbsSizes := fun _ _ => rfl
  have hnative := (Sumcheck.verifyAllSumcheck_iff hO _ (by decide) (by decide) 0 (by decide)
    (by decide) _ _ _ _).mp hverified.sumcheck
  have hlast : Sumcheck.verifyAsSubprotocol (scripted (ZMod 5) (ZMod 5) (ZMod 5)) ⟨3, 1, 2⟩ 0
      [[0, 0, 4, 3]] [2] = .ok (⟨[2], 4⟩, []) := rfl
  obtain ⟨hsub, -⟩ := Prod.mk.inj (Except.ok.inj (hlast.symm.trans hnative))
  obtain ⟨hpoint, hexpected⟩ := Sumcheck.SubClaim.mk.inj hsub
  rw [← hpoint] at hexpected
  have hvalue : rightSide [4, 2, 0] (4 : ZMod 5) [1] [2] = 1 := by decide
  exact absurd (hexpected.trans hvalue) (by decide)

end NexusVm.Nova.Linearization
