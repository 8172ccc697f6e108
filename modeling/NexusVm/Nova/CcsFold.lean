import NexusVm.Nova.ArkMle
import NexusVm.Nova.LccsFold

/-!
# The verifier of a fold of two CCS instances

`nova/src/ccs/ccs_fold.rs`.  The verifier takes the number of variables and the
degree of the sumcheck from the shape; the subclaim's evaluation is not looked at.
-/

namespace NexusVm.Nova.Ccs

/-- A proof of a fold of two CCS instances. -/
structure MultiCCSProof (F : Type) where
  sumcheckProof : List (List F)
  gamma : F
  beta : List F
  rX : List F
  thetas1 : List F
  thetas2 : List F
deriving DecidableEq

section Model

variable {F C B : Type} [Field F] [DecidableEq F] [AddCommGroup C] [Module F C] [DecidableEq C]
  (M : MultilinearExtensions F) (O : RandomOracle F C B)

/-- One product of the combined polynomial: a multiset of one instance. -/
def addSummand (shape : CCSShape F) (eqBeta : M.Mle) (cS : F × List ℕ)
    (polynomial : Sumcheck.ListOfProductsOfPolynomials M) (instance_ : List F × F) :
    Run Error (Sumcheck.ListOfProductsOfPolynomials M) := do
  let summand ← cS.2.mapM (matrixMle M shape instance_.1)
  polynomial.addProduct (summand ++ [eqBeta]) (cS.1 * instance_.2)

/-- `construct_combined_ccs_polynomial`. -/
def constructCombinedCcsPolynomial (shape : CCSShape F) (z1 z2 beta : List F) (gamma : F) :
    Run Error (Sumcheck.ListOfProductsOfPolynomials M) := do
  Run.failIf (z1.length ≠ z2.length) .invalidWitnessLength
  let numVars := safeLoglike shape.numConstraints
  let eqBeta ← vecToArkMle M (eqEvals beta)
  shape.cSs.foldlM (fun polynomial cS =>
    [(z1, gamma), (z2, gamma * gamma)].foldlM (addSummand M shape eqBeta cS) polynomial)
    (.new numVars)

/-- `verify_ccs_folding_consistency`. -/
def verifyCcsFoldingConsistency (shape : CCSShape F) (u1 u2 : CCSInstance F C)
    (uFolded : LCCSInstance F C) (thetas1 thetas2 rX : List F) (st : O.State) :
    Run Error O.State := do
  Run.failIf (u1.X.length ≠ u2.X.length) .invalidInputLength
  Run.failIf (thetas1.length ≠ thetas2.length) .invalidTargets
  Run.failIf (thetas1.length ≠ shape.numMatrices) .invalidTargets
  let st := O.absorb st (thetas1.map .scalar)
  let st := O.absorb st (thetas2.map .scalar)
  let (rho, st) := O.squeezeOne st
  Run.failIf (uFolded.commitment_W ≠ u1.commitment_W + rho • u2.commitment_W) .notSatisfied
  -- `[0]` and `[1..]` of the inputs
  Run.assert (0 < u1.X.length)
  Run.assert (0 < u2.X.length)
  Run.assert (0 < uFolded.X.length)
  Run.failIf (uFolded.X.getD 0 0 ≠ u1.X.getD 0 0 + rho * u2.X.getD 0 0) .notSatisfied
  Run.failIf (uFolded.X.tail ≠ List.zipWith (fun a b => a + rho * b) u1.X.tail u2.X.tail)
    .notSatisfied
  Run.failIf (uFolded.vs ≠ List.zipWith (fun a b => a + rho * b) thetas1 thetas2) .notSatisfied
  Run.failIf (uFolded.rs ≠ rX) .notSatisfied
  .ok st

/-- The challenges of the verifier and the oracle's next state. -/
def regenerateChallenges (shape : CCSShape F) (st : O.State) : F × List F × O.State :=
  let (gamma, st) := O.squeezeOne st
  let (beta, st) := O.squeeze st (safeLoglike shape.numConstraints)
  (gamma, beta, st)

/-- `MultiCCSProof::verify_as_subprotocol`: the oracle's last state. -/
def MultiCCSProof.verifyAsSubprotocol (proof : MultiCCSProof F) (shape : CCSShape F)
    (U1 U2 : CCSInstance F C) (uFolded : LCCSInstance F C) (st : O.State) :
    Run Error O.State := do
  let (gamma, beta, st) := regenerateChallenges O shape st
  Run.failIf (gamma ≠ proof.gamma) .notSatisfied
  Run.failIf (beta ≠ proof.beta) .notSatisfied
  let z1 := List.replicate (U1.X.length + shape.numVars) 0
  let z2 := List.replicate (U2.X.length + shape.numVars) 0
  let polynomial ← constructCombinedCcsPolynomial M shape z1 z2 beta gamma
  -- the reason of a rejected sumcheck is dropped
  let (subclaim, st) ← (Sumcheck.verifyAsSubprotocol O polynomial.info 0 proof.sumcheckProof
    st).mapError fun _ => .notSatisfied
  Run.failIf (subclaim.point ≠ proof.rX) .notSatisfied
  verifyCcsFoldingConsistency O shape U1 U2 uFolded proof.thetas1 proof.thetas2 proof.rX st

end Model

section Soundness

variable {F C : Type} (B : Type) [Field F] [DecidableEq F] [AddCommGroup C] [Module F C]
  [DecidableEq C]

/-- `sum_i c_i * prod_{j in S_i} theta_j`. -/
def thetaSum (shape : CCSShape F) (thetas : List F) : F :=
  (shape.cSs.map fun cS => cS.1 * (cS.2.map (thetas.getD · 0)).prod).sum

/-- The evaluation that the claimed matrix evaluations stand for. -/
def combinedEvaluation (shape : CCSShape F) (proof : MultiCCSProof F) : F :=
  eqExtension proof.beta proof.rX *
    (proof.gamma * thetaSum shape proof.thetas1 + proof.gamma ^ 2 * thetaSum shape proof.thetas2)

/-- With every oracle, the subclaim of an accepted proof is the claimed evaluation. -/
def CombinedSound (M : MultilinearExtensions F) (shape : CCSShape F) (U1 U2 : CCSInstance F C) :
    Prop :=
  ∀ (O : RandomOracle F C B) (st st' : O.State) (proof : MultiCCSProof F)
    (uFolded : LCCSInstance F C), proof.verifyAsSubprotocol M O shape U1 U2 uFolded st = .ok st' →
    ∀ polynomial subclaim st₂,
      constructCombinedCcsPolynomial M shape (List.replicate (U1.X.length + shape.numVars) 0)
        (List.replicate (U2.X.length + shape.numVars) 0) proof.beta proof.gamma =
          .ok polynomial →
      Sumcheck.verifyAsSubprotocol O polynomial.info 0 proof.sumcheckProof
        (regenerateChallenges O shape st).2.2 = .ok (subclaim, st₂) →
      subclaim.expectedEvaluation = combinedEvaluation shape proof

/-- A shape and inputs for which the verifier's polynomial can be built and has a
product. -/
structure Combinable (shape : CCSShape F) (U1 U2 : CCSInstance F C) : Prop where
  constraints : 0 < shape.numConstraints
  multisets : shape.cSs ≠ []
  X : 0 < U1.X.length ∧ U1.X.length = U2.X.length
  selected : (∃ cS ∈ shape.cSs, cS.2 ≠ []) →
    2 ≤ shape.numConstraints ∧ U1.X.length = shape.numIo

end Soundness

section Combined

variable {F : Type} [Field F] {M : MultilinearExtensions F} {shape : CCSShape F}
  {eqBeta : M.Mle}

variable {cS : F × List ℕ}

theorem addSummand_eq_ok {zg : List F × F} {g g' : Sumcheck.ListOfProductsOfPolynomials M} :
    addSummand M shape eqBeta cS g zg = .ok g' ↔
      ∃ summand, cS.2.mapM (matrixMle M shape zg.1) = .ok summand ∧
        (∀ m ∈ summand ++ [eqBeta], M.numVars m = g.numVariables) ∧
        g' = ⟨max g.maxMultiplicands (summand ++ [eqBeta]).length, g.numVariables,
          g.products ++ [(cS.1 * zg.2, summand ++ [eqBeta])]⟩ := by
  have hne : ∀ summand : List M.Mle, summand ++ [eqBeta] ≠ [] := fun summand => by simp
  rw [addSummand, bind_eq_ok]
  simp only [Sumcheck.addProduct_eq_ok, hne, ne_eq, not_false_eq_true, true_and]

variable {g : Sumcheck.ListOfProductsOfPolynomials M}

/-- A summand can be added if its matrix products have extensions. -/
theorem exists_addSummand (hcS : cS ∈ shape.cSs) (zg : List F × F)
    (hsel : cS.2 ≠ [] → 2 ≤ shape.numConstraints ∧ zg.1.length = shape.numIo + shape.numVars)
    (heq : M.numVars eqBeta = safeLoglike shape.numConstraints)
    (hg : g.numVariables = safeLoglike shape.numConstraints) :
    ∃ g', addSummand M shape eqBeta cS g zg = .ok g' ∧
      g'.numVariables = safeLoglike shape.numConstraints ∧ 0 < g'.maxMultiplicands := by
  have hall : ∀ j ∈ cS.2, ∃ m, matrixMle M shape zg.1 j = .ok m := by
    intro j hj
    obtain ⟨htwo, hlen⟩ := hsel (List.ne_nil_of_mem hj)
    exact (exists_matrixMle (shape.selectors cS hcS j hj)).mpr ⟨hlen, htwo⟩
  obtain ⟨summand, hsummand⟩ := exists_mapM.mpr hall
  refine ⟨_, addSummand_eq_ok.mpr ⟨summand, hsummand, ?_, rfl⟩, hg, ?_⟩
  · intro m hm
    rw [hg]
    rcases List.mem_append.mp hm with hm | hm
    · obtain ⟨j, hj, hmj⟩ := exists_of_mem_mapM hsummand hm
      exact numVars_matrixMle (shape.selectors cS hcS j hj) hmj
    · rw [List.mem_singleton.mp hm]
      exact heq
  · rw [List.length_append]
    exact lt_of_lt_of_le (Nat.succ_pos _) (le_max_right _ _)

/-- Both instances' summands of one multiset. -/
theorem exists_addSummands (hcS : cS ∈ shape.cSs) {z1 z2 : List F} (hz : z1.length = z2.length)
    (hsel : cS.2 ≠ [] → 2 ≤ shape.numConstraints ∧ z1.length = shape.numIo + shape.numVars)
    (heq : M.numVars eqBeta = safeLoglike shape.numConstraints) (gamma : F)
    (hg : g.numVariables = safeLoglike shape.numConstraints) :
    ∃ g', [(z1, gamma), (z2, gamma * gamma)].foldlM (addSummand M shape eqBeta cS) g = .ok g' ∧
      g'.numVariables = safeLoglike shape.numConstraints ∧ 0 < g'.maxMultiplicands := by
  obtain ⟨g₁, hg₁, hnum₁, -⟩ := exists_addSummand hcS (z1, gamma) hsel heq hg
  obtain ⟨g₂, hg₂, hnum₂, hmax₂⟩ := exists_addSummand hcS (z2, gamma * gamma)
    (fun hne => hz ▸ hsel hne) heq hnum₁
  refine ⟨g₂, ?_, hnum₂, hmax₂⟩
  rw [List.foldlM_cons]
  exact bind_eq_ok.mpr ⟨g₁, hg₁, bind_eq_ok.mpr ⟨g₂, hg₂, rfl⟩⟩

/-- The combined polynomial can be built. -/
theorem exists_construct {z1 z2 beta : List F} (hz : z1.length = z2.length)
    (hbeta : beta.length = safeLoglike shape.numConstraints) (hm : 0 < shape.numConstraints)
    (hne : shape.cSs ≠ [])
    (hsel : (∃ cS ∈ shape.cSs, cS.2 ≠ []) →
      2 ≤ shape.numConstraints ∧ z1.length = shape.numIo + shape.numVars) (gamma : F) :
    ∃ g, constructCombinedCcsPolynomial M shape z1 z2 beta gamma = .ok g ∧
      g.numVariables = safeLoglike shape.numConstraints ∧ 0 < g.maxMultiplicands := by
  obtain ⟨eqBeta, heqBeta⟩ := exists_eqMle (M := M) (E := Error).mpr
    (hbeta ▸ safeLoglike_pos hm)
  have hnum : M.numVars eqBeta = safeLoglike shape.numConstraints :=
    (numVars_eqMle heqBeta).trans hbeta
  have hstep : ∀ cS ∈ shape.cSs, ∀ g : Sumcheck.ListOfProductsOfPolynomials M,
      g.numVariables = safeLoglike shape.numConstraints →
      ∃ g', [(z1, gamma), (z2, gamma * gamma)].foldlM (addSummand M shape eqBeta cS) g = .ok g' ∧
        g'.numVariables = safeLoglike shape.numConstraints ∧ 0 < g'.maxMultiplicands :=
    fun cS hcS g hg =>
      exists_addSummands hcS hz (fun h => hsel ⟨cS, hcS, h⟩) hnum gamma hg
  obtain ⟨cS, cSs, hcSs⟩ := List.exists_cons_of_ne_nil hne
  rw [hcSs, List.forall_mem_cons] at hstep
  obtain ⟨g₁, hg₁, hP₁⟩ := hstep.1 (.new (safeLoglike shape.numConstraints)) rfl
  obtain ⟨g₂, hg₂, hP₂⟩ := exists_foldlM
    (P := fun g : Sumcheck.ListOfProductsOfPolynomials M =>
      g.numVariables = safeLoglike shape.numConstraints ∧ 0 < g.maxMultiplicands)
    hP₁ fun cS hcS g hg => hstep.2 cS hcS g hg.1
  refine ⟨g₂, ?_, hP₂⟩
  have hrun : shape.cSs.foldlM (fun polynomial cS =>
      [(z1, gamma), (z2, gamma * gamma)].foldlM (addSummand M shape eqBeta cS) polynomial)
      (.new (safeLoglike shape.numConstraints)) = .ok g₂ := by
    rw [hcSs, List.foldlM_cons]
    exact bind_eq_ok.mpr ⟨g₁, hg₁, hg₂⟩
  exact bind_eq_ok.mpr ⟨(), failIf_eq_ok.mpr (not_not.mpr hz),
    bind_eq_ok.mpr ⟨eqBeta, heqBeta, hrun⟩⟩

/-- What a combined polynomial that was built tells about the shape. -/
theorem of_construct {z1 z2 beta : List F} {gamma : F}
    (h : constructCombinedCcsPolynomial M shape z1 z2 beta gamma = .ok g) :
    z1.length = z2.length ∧ 0 < beta.length ∧
      g.numVariables = safeLoglike shape.numConstraints ∧
      (shape.cSs = [] → g.maxMultiplicands = 0) ∧
      ((∃ cS ∈ shape.cSs, cS.2 ≠ []) →
        2 ≤ shape.numConstraints ∧ z1.length = shape.numIo + shape.numVars) := by
  simp only [constructCombinedCcsPolynomial, bind_eq_ok, failIf_eq_ok, exists_const, not_not] at h
  obtain ⟨hz, eqBeta, heqBeta, hrun⟩ := h
  refine ⟨hz, exists_eqMle.mp ⟨eqBeta, heqBeta⟩, ?_, ?_, ?_⟩
  · let P := fun g : Sumcheck.ListOfProductsOfPolynomials M =>
      g.numVariables = safeLoglike shape.numConstraints
    apply foldlM_invariant (P := P) hrun rfl
    intro cS _ g₁ g₂ hg₁ hg₂
    apply foldlM_invariant (P := P) hg₂ hg₁
    intro zg _ g₃ g₄ hg₃ hg₄
    obtain ⟨summand, -, -, rfl⟩ := addSummand_eq_ok.mp hg₄
    exact hg₃
  · intro hnil
    rw [hnil] at hrun
    obtain rfl := Except.ok.inj hrun
    rfl
  · rintro ⟨cS, hcS, hne⟩
    obtain ⟨g₁, g₂, hg⟩ := exists_step_of_foldlM hrun cS hcS
    obtain ⟨g₃, g₄, hg'⟩ := exists_step_of_foldlM hg (z1, gamma) (by simp)
    obtain ⟨summand, hsummand, -, -⟩ := addSummand_eq_ok.mp hg'
    obtain ⟨j, hj⟩ := List.exists_mem_of_ne_nil _ hne
    obtain ⟨hlen, htwo⟩ := (exists_matrixMle (shape.selectors cS hcS j hj)).mp
      (exists_mapM.mp ⟨summand, hsummand⟩ j hj)
    exact ⟨htwo, hlen⟩

end Combined

/-! ## Which pairs can be combined and a forged combination -/

section Acceptance

variable {F C B : Type} [Field F] [DecidableEq F] [AddCommGroup C] [Module F C] [DecidableEq C]
  {M : MultilinearExtensions F} {shape : CCSShape F} {U1 U2 : CCSInstance F C}

variable {O : RandomOracle F C B} {uFolded : LCCSInstance F C}

variable {st st' : O.State}

/-- The public inputs of a consistent fold. -/
theorem of_consistency {thetas1 thetas2 rX : List F}
    (h : verifyCcsFoldingConsistency O shape U1 U2 uFolded thetas1 thetas2 rX st = .ok st') :
    0 < U1.X.length ∧ U1.X.length = U2.X.length := by
  simp only [verifyCcsFoldingConsistency, bind_eq_ok, failIf_eq_ok, assert_eq_ok, exists_const,
    not_not] at h
  obtain ⟨hX, -, -, -, hpos, -⟩ := h
  exact ⟨hpos, hX⟩

/-- A folded instance for every pair. -/
theorem exists_consistent (hX : 0 < U1.X.length ∧ U1.X.length = U2.X.length)
    (O : RandomOracle F C B) {thetas1 thetas2 : List F}
    (h₁ : thetas1.length = shape.numMatrices) (h₂ : thetas2.length = shape.numMatrices)
    (rX : List F) (st : O.State) :
    ∃ uFolded st',
      verifyCcsFoldingConsistency O shape U1 U2 uFolded thetas1 thetas2 rX st = .ok st' := by
  let out := O.squeezeOne (O.absorb (O.absorb st (thetas1.map .scalar)) (thetas2.map .scalar))
  refine ⟨⟨U1.commitment_W + out.1 • U2.commitment_W,
    (U1.X.getD 0 0 + out.1 * U2.X.getD 0 0) ::
      List.zipWith (fun a b => a + out.1 * b) U1.X.tail U2.X.tail, rX,
    List.zipWith (fun a b => a + out.1 * b) thetas1 thetas2⟩, out.2, ?_⟩
  simp only [verifyCcsFoldingConsistency, bind_eq_ok, failIf_eq_ok, assert_eq_ok, exists_const,
    not_not]
  exact ⟨hX.2, h₁.trans h₂.symm, h₁, rfl, hX.1, hX.2 ▸ hX.1, Nat.succ_pos _, rfl, rfl, rfl,
    trivial, rfl⟩

variable {proof : MultiCCSProof F}

/-- What an accepted proof fulfills. -/
theorem verifyCombined_eq_ok :
    proof.verifyAsSubprotocol M O shape U1 U2 uFolded st = .ok st' ↔
      (regenerateChallenges O shape st).1 = proof.gamma ∧
      (regenerateChallenges O shape st).2.1 = proof.beta ∧
      ∃ polynomial, constructCombinedCcsPolynomial M shape
          (List.replicate (U1.X.length + shape.numVars) 0)
          (List.replicate (U2.X.length + shape.numVars) 0) proof.beta proof.gamma =
            .ok polynomial ∧
        ∃ subclaim st₂, Sumcheck.verifyAsSubprotocol O polynomial.info 0 proof.sumcheckProof
            (regenerateChallenges O shape st).2.2 = .ok (subclaim, st₂) ∧
          subclaim.point = proof.rX ∧
          verifyCcsFoldingConsistency O shape U1 U2 uFolded proof.thetas1 proof.thetas2 proof.rX
            st₂ = .ok st' := by
  simp only [MultiCCSProof.verifyAsSubprotocol, bind_eq_ok, failIf_eq_ok, exists_const, not_not,
    mapError_eq_ok, Prod.exists]
  constructor
  · rintro ⟨hgamma, hbeta, hrest⟩
    rw [hgamma, hbeta] at hrest
    exact ⟨hgamma, hbeta, hrest⟩
  · rintro ⟨hgamma, hbeta, hrest⟩
    rw [← hgamma, ← hbeta] at hrest
    exact ⟨hgamma, hbeta, hrest⟩

/-- Only pairs that can be combined are accepted. -/
theorem combinable_of_accepted (h : proof.verifyAsSubprotocol M O shape U1 U2 uFolded st = .ok st') :
    Combinable shape U1 U2 := by
  obtain ⟨-, hbeta, polynomial, hpoly, subclaim, st₂, hsub, -, hconsistent⟩ :=
    verifyCombined_eq_ok.mp h
  obtain ⟨-, hpos, -, hmax, hsel⟩ := of_construct hpoly
  have hlen : proof.beta.length = safeLoglike shape.numConstraints := by
    rw [← hbeta]
    exact O.length_squeeze _ _
  constructor
  · by_contra hzero
    rw [hlen, Nat.eq_zero_of_not_pos hzero] at hpos
    exact absurd hpos (by decide)
  · intro hnil
    have hmax' : 0 < polynomial.info.maxMultiplicands := Sumcheck.maxMultiplicands_pos hsub
    exact absurd (hmax hnil) hmax'.ne'
  · exact of_consistency hconsistent
  · intro hex
    obtain ⟨htwo, hlen⟩ := hsel hex
    rw [List.length_replicate] at hlen
    exact ⟨htwo, Nat.add_right_cancel hlen⟩

/-- **A forged proof for every pair.**  With the challenges `0` the subclaim `1`
is accepted, whatever the claimed matrix evaluations are. -/
theorem exists_forged_proof [Zero B] (h : Combinable shape U1 U2) (thetas1 thetas2 : List F)
    (h₁ : thetas1.length = shape.numMatrices) (h₂ : thetas2.length = shape.numMatrices) :
    ∃ (proof : MultiCCSProof F) (uFolded : LCCSInstance F C)
      (polynomial : Sumcheck.ListOfProductsOfPolynomials M) (point : List F),
      proof.gamma = 0 ∧ proof.thetas1 = thetas1 ∧ proof.thetas2 = thetas2 ∧
      proof.verifyAsSubprotocol M (zeroOracle F C B) shape U1 U2 uFolded () = .ok () ∧
      constructCombinedCcsPolynomial M shape (List.replicate (U1.X.length + shape.numVars) 0)
        (List.replicate (U2.X.length + shape.numVars) 0) proof.beta proof.gamma =
          .ok polynomial ∧
      Sumcheck.verifyAsSubprotocol (zeroOracle F C B) polynomial.info 0 proof.sumcheckProof () =
        .ok (⟨point, 1⟩, ()) := by
  have hbeta : (List.replicate (safeLoglike shape.numConstraints) (0 : F)).length =
      safeLoglike shape.numConstraints := List.length_replicate
  have hz : (List.replicate (U1.X.length + shape.numVars) (0 : F)).length =
      (List.replicate (U2.X.length + shape.numVars) (0 : F)).length := by
    rw [List.length_replicate, List.length_replicate, h.X.2]
  have hsel : (∃ cS ∈ shape.cSs, cS.2 ≠ []) → 2 ≤ shape.numConstraints ∧
      (List.replicate (U1.X.length + shape.numVars) (0 : F)).length =
        shape.numIo + shape.numVars := by
    intro hex
    obtain ⟨htwo, hX⟩ := h.selected hex
    rw [List.length_replicate, hX]
    exact ⟨htwo, rfl⟩
  obtain ⟨polynomial, hpoly, hnum, hmax⟩ :=
    exists_construct (M := M) hz hbeta h.constraints h.multisets hsel 0
  have hvars : 0 < polynomial.numVariables := hnum ▸ safeLoglike_pos h.constraints
  obtain ⟨msgs, point, hsub⟩ := Sumcheck.exists_forged (F := F) (C := C) (B := B)
    polynomial.info hmax hvars 0
  obtain ⟨uFolded, st', hconsistent⟩ := exists_consistent (B := B) h.X (zeroOracle F C B) h₁ h₂
    point ()
  exact ⟨⟨msgs, 0, List.replicate (safeLoglike shape.numConstraints) 0, point, thetas1, thetas2⟩,
    uFolded, polynomial, point, rfl, rfl, rfl,
    verifyCombined_eq_ok.mpr ⟨rfl, rfl, polynomial, hpoly, _, _, hsub, rfl, hconsistent⟩, hpoly,
    hsub⟩

/-- **Accepted combined folds are sound only if there are none.** -/
theorem combined_sound_iff (B : Type) [Zero B] (M : MultilinearExtensions F) (shape : CCSShape F)
    (U1 U2 : CCSInstance F C) : CombinedSound B M shape U1 U2 ↔ ¬ Combinable shape U1 U2 := by
  constructor
  · intro hsound hcombinable
    obtain ⟨proof, uFolded, polynomial, point, hgamma, -, -, haccept, hpoly, hsub⟩ :=
      exists_forged_proof (B := B) (M := M) hcombinable
        (List.replicate shape.numMatrices 0) (List.replicate shape.numMatrices 0)
        List.length_replicate List.length_replicate
    have heval := hsound _ _ _ proof uFolded haccept polynomial _ _ hpoly hsub
    rw [combinedEvaluation, hgamma] at heval
    simp at heval
  · intro hcombinable O st st' proof uFolded haccept
    exact absurd (combinable_of_accepted haccept) hcombinable

end Acceptance

section Forged

/-- The subclaim `1` for the challenges `0`, whose claimed evaluation is `0`. -/
def forgedCombination : MultiCCSProof (ZMod 3) where
  sumcheckProof := [[1, 2, 0]]
  gamma := 0
  beta := [0]
  rX := [0]
  thetas1 := [0]
  thetas2 := [0]

theorem forged_combination_accepted :
    ¬ CombinedSound (ZMod 3) (tables (ZMod 3)) rowShape ⟨(0 : ZMod 3), [0]⟩ ⟨0, [0]⟩ := by
  intro hsound
  have haccept : forgedCombination.verifyAsSubprotocol (tables (ZMod 3))
      (zeroOracle (ZMod 3) (ZMod 3) (ZMod 3)) rowShape ⟨(0 : ZMod 3), [0]⟩ ⟨0, [0]⟩
      ⟨0, [0], [0], [0]⟩ () = .ok () := by rfl
  have hval : (1 : ZMod 3) = combinedEvaluation rowShape forgedCombination :=
    hsound (zeroOracle (ZMod 3) (ZMod 3) (ZMod 3)) () () forgedCombination _ haccept _ ⟨[0], 1⟩ ()
      rfl rfl
  exact absurd hval (by decide)

end Forged

end NexusVm.Nova.Ccs
