import NexusVm.Nova.Nimfs

/-!
# Folding of atomic CCS instances

`nova/src/folding/hypernova/accs_folding.rs` with `ACCSInstance` of
`nova/src/ccs/mod.rs`.  An accumulator keeps its evaluation points; the incoming CCS
instance is turned into an atomic one with the prover's claims as targets.
-/

namespace NexusVm.Nova.Accs

open Ccs

/-- The errors have the names of those of `nimfs.rs`. -/
abbrev Error := Nimfs.Error

section Instances

/-- An atomic CCS instance: `v_0` and the inputs, two evaluation points and the
targets there. -/
structure ACCSInstance (F C : Type) where
  commitment_W : C
  v0 : F
  io : List F
  r_x : List F
  r_y : List F
  vs : List F
  v_z : F
deriving DecidableEq

variable {F C : Type} [Field F] [AddCommGroup C] [Module F C]

def ACCSInstance.new (commitment_W : C) (v0 : F) (io r_x r_y vs : List F) (v_z : F) :
    Run Ccs.Error (ACCSInstance F C) := do
  Run.failIf (io.length = 0) .invalidInputLength
  .ok ⟨commitment_W, v0, io, r_x, r_y, vs, v_z⟩

/-- Folds two atomic instances: the points stay those of the first. -/
def ACCSInstance.fold (U₁ other : ACCSInstance F C) (rho : F) :
    Run Ccs.Error (ACCSInstance F C) := do
  Run.failIf (U₁.io.length ≠ other.io.length ∨ U₁.r_x.length ≠ other.r_x.length ∨
    U₁.r_y.length ≠ other.r_y.length ∨ U₁.vs.length ≠ other.vs.length) .invalidInputLength
  .ok
    { commitment_W := U₁.commitment_W + rho • other.commitment_W
      v0 := U₁.v0 + rho * other.v0
      io := List.zipWith (fun a b => a + rho * b) U₁.io other.io
      r_x := U₁.r_x
      r_y := U₁.r_y
      vs := List.zipWith (fun a b => a + rho * b) U₁.vs other.vs
      v_z := U₁.v_z + rho * other.v_z }

omit [AddCommGroup C] [Module F C] in
/-- `Absorb for ACCSInstance`. -/
def ACCSInstance.elements (U : ACCSInstance F C) : List (Element F C) :=
  .point U.commitment_W :: (U.v0 :: U.io ++ U.r_x ++ U.r_y ++ U.vs ++ [U.v_z]).map .scalar

end Instances

structure ACCSFoldingProof (F : Type) where
  sumcheckFProof : List (List F)
  polyFInfo : Sumcheck.PolynomialInfo
  sumcheckGProof : List (List F)
  polyGInfo : Sumcheck.PolynomialInfo
  sigmas : List F
  thetas : List F
  r_x : List F
  r_y : List F
  epsilon : F
  epsilonPrime : F
deriving DecidableEq

section Model

variable {F C B : Type} [Field F] [AddCommGroup C] [Module F C]
  (M : MultilinearExtensions F) (O : RandomOracle F C B) (castFieldElement : B → F)

/-- `gamma`, the unused `alpha` and the point that prover and verifier start with. -/
def challenges (vk : F) (U_accs : ACCSInstance F C) (U_ccs : CCSInstance F C) (st : O.State) :
    Run Error (F × F × List F × O.State) := do
  let st := O.absorb st [.scalar vk]
  let st := O.absorb st U_accs.elements
  let elements ← Nimfs.instanceElements U_ccs
  let st := O.absorb st elements
  let (gamma, st) := O.squeezeOne st
  let (alpha, st) := O.squeezeOne st
  let (r_prime_x, st) := O.squeeze st U_accs.r_x.length
  .ok (gamma, alpha, r_prime_x, st)

/-- The summand of a matrix. -/
def addMatrix (shape : CCSShape F) (z : List F) (eq_r_x : M.Mle) (gamma : F)
    (f : Sumcheck.ListOfProductsOfPolynomials M) (j : ℕ) :
    Run Error (Sumcheck.ListOfProductsOfPolynomials M) := do
  let M_j_z ← (matrixMle M shape z j).mapError Nimfs.Error.ccs
  f.addProduct [M_j_z, eq_r_x] (gamma ^ (j + 1))

/-- The assignment of an accumulator: `v_0` in place of the first input. -/
def ACCSInstance.assignment (U : ACCSInstance F C) (W : CCSWitness F) : List F :=
  U.v0 :: (U.io.tail ++ W.W)

/-- The instance that stands for the incoming one, folded into the accumulator. -/
def foldInstances (U_accs : ACCSInstance F C) (U_ccs : CCSInstance F C) (eta : F)
    (sigmas : List F) (epsilonPrime : F) : Run Error (ACCSInstance F C) := do
  let temp_accs ← (ACCSInstance.new U_ccs.commitment_W 1 U_ccs.X U_accs.r_x U_accs.r_y sigmas
    epsilonPrime).mapError Nimfs.Error.ccs
  (U_accs.fold temp_accs eta).mapError Nimfs.Error.ccs

/-- `ACCSFoldingProof::prove_as_subprotocol`: the proof, the folded pair, the folding
challenge and the oracle's last state. -/
def proveAsSubprotocol (vk : F) (shape : CCSShape F) (U_accs : ACCSInstance F C)
    (W_accs : CCSWitness F) (U_ccs : CCSInstance F C) (W_ccs : CCSWitness F) (st : O.State) :
    Run Error (ACCSFoldingProof F × (ACCSInstance F C × CCSWitness F) × B × O.State) := do
  let (gamma, _, r_prime_x, st) ← challenges O vk U_accs U_ccs st
  let eq_r_x ← vecToArkMle M (eqEvals U_accs.r_x)
  -- `io[1..]`
  Run.assert (0 < U_accs.io.length)
  let z_accs := U_accs.assignment W_accs
  let f ← (List.range shape.numMatrices).foldlM (addMatrix M shape z_accs eq_r_x gamma)
    (.new U_accs.r_x.length)
  let (sumcheckFProof, r_prime_y, st) ← Sumcheck.proveAsSubprotocol O f st
  let sigmas ← Nimfs.evaluateMatrices M shape z_accs r_prime_x
  let z_ccs := U_ccs.X ++ W_ccs.W
  let thetas ← Nimfs.evaluateMatrices M shape z_ccs r_prime_y
  let (delta, st) := O.squeezeOne st
  let eq_r_y ← vecToArkMle M (eqEvals U_accs.r_y)
  let z_poly ← vecToArkMle M W_accs.W
  let g ← (Sumcheck.ListOfProductsOfPolynomials.new U_accs.r_y.length).addProduct
    [z_poly, eq_r_y] 1
  let z_prime_poly ← vecToArkMle M W_ccs.W
  let g ← g.addProduct [z_prime_poly, eq_r_y] delta
  let (sumcheckGProof, _, st) ← Sumcheck.proveAsSubprotocol O g st
  let epsilon ← evaluateArk M z_poly U_accs.r_y
  let epsilonPrime ← evaluateArk M z_prime_poly r_prime_y
  let (eta, st) := O.squeezeTruncated st
  let eta_scalar := castFieldElement eta
  let W_folded ← (W_accs.fold W_ccs eta_scalar).mapError Nimfs.Error.ccs
  let U_folded ← foldInstances U_accs U_ccs eta_scalar sigmas epsilonPrime
  .ok (⟨sumcheckFProof, f.info, sumcheckGProof, g.info, sigmas, thetas, r_prime_x, r_prime_y,
    epsilon, epsilonPrime⟩, (U_folded, W_folded), eta, st)

/-- The claimed sum of a sumcheck: what the first message adds up to. -/
def claimedSum (sumcheckProof : List (List F)) (fallback : F) : Run Error F :=
  match sumcheckProof with
  | [] => .ok fallback
  | msg :: _ => do
      -- `evaluations[0]` and `evaluations[1]`
      Run.assert (1 < msg.length)
      .ok (msg.getD 0 0 + msg.getD 1 0)

variable [DecidableEq F]

/-- `ACCSFoldingProof::verify_as_subprotocol`: the folded instance, the folding
challenge and the oracle's last state. -/
def ACCSFoldingProof.verifyAsSubprotocol (proof : ACCSFoldingProof F) (vk : F)
    (shape : CCSShape F) (U_accs : ACCSInstance F C) (U_ccs : CCSInstance F C) (st : O.State) :
    Run Error (ACCSInstance F C × B × O.State) := do
  let (gamma, _, _, st) ← challenges O vk U_accs U_ccs st
  let gamma_powers := (List.range' 1 shape.numMatrices).map fun j => gamma ^ j
  let claimed_sum_f ← claimedSum proof.sumcheckFProof
    (List.zipWith (· * ·) gamma_powers U_accs.vs).sum
  let (sumcheck_f_subclaim, st) ← (Sumcheck.verifyAsSubprotocol O proof.polyFInfo claimed_sum_f
    proof.sumcheckFProof st).mapError Nimfs.Error.sumcheck
  Run.failIf (sumcheck_f_subclaim.point ≠ proof.r_y) .inconsistentSubclaim
  let (delta, st) := O.squeezeOne st
  let claimed_sum_g ← claimedSum proof.sumcheckGProof
    (proof.epsilon + delta * proof.epsilonPrime)
  let (_, st) ← (Sumcheck.verifyAsSubprotocol O proof.polyGInfo claimed_sum_g
    proof.sumcheckGProof st).mapError Nimfs.Error.sumcheck
  let (eta, st) := O.squeezeTruncated st
  let eta_scalar := castFieldElement eta
  let U_folded ← foldInstances U_accs U_ccs eta_scalar proof.sigmas proof.epsilonPrime
  .ok (U_folded, eta, st)

end Model

section Folded

variable {F C : Type} [Field F] [AddCommGroup C] [Module F C]

/-- The folded accumulator. -/
def foldedInstance (U_accs : ACCSInstance F C) (U_ccs : CCSInstance F C) (eta : F)
    (sigmas : List F) (epsilonPrime : F) : ACCSInstance F C :=
  { commitment_W := U_accs.commitment_W + eta • U_ccs.commitment_W
    v0 := U_accs.v0 + eta * 1
    io := comb 1 eta U_accs.io U_ccs.X
    r_x := U_accs.r_x
    r_y := U_accs.r_y
    vs := comb 1 eta U_accs.vs sigmas
    v_z := U_accs.v_z + eta * epsilonPrime }

theorem foldInstances_eq_ok {U_accs U : ACCSInstance F C} {U_ccs : CCSInstance F C} {eta : F}
    {sigmas : List F} {epsilonPrime : F} :
    foldInstances U_accs U_ccs eta sigmas epsilonPrime = .ok U ↔ 0 < U_ccs.X.length ∧
      U_accs.io.length = U_ccs.X.length ∧ U_accs.vs.length = sigmas.length ∧
        U = foldedInstance U_accs U_ccs eta sigmas epsilonPrime := by
  simp only [foldInstances, ACCSInstance.new, ACCSInstance.fold, bind_eq_ok, mapError_eq_ok,
    failIf_eq_ok, exists_const, Except.ok.injEq, not_or, not_not, zipWith_fold]
  constructor
  · rintro ⟨temp, ⟨hX, rfl⟩, ⟨hio, -, -, hvs⟩, rfl⟩
    exact ⟨Nat.pos_of_ne_zero hX, hio, hvs, rfl⟩
  · rintro ⟨hX, hio, hvs, rfl⟩
    exact ⟨_, ⟨hX.ne', rfl⟩, ⟨hio, rfl, rfl, hvs⟩, rfl⟩

end Folded

/-! ## What acceptance should mean, forged proofs and folding satisfied pairs -/

section Soundness

variable {F C B : Type} [Field F] [DecidableEq F] [AddCommGroup C] [Module F C]
  (O : RandomOracle F C B) (castFieldElement : B → F)

/-- The values that an accepting verifier goes through. -/
structure Accepted (vk : F) (shape : CCSShape F) (U_accs : ACCSInstance F C)
    (U_ccs : CCSInstance F C) (st : O.State) (proof : ACCSFoldingProof F) (gamma delta : F)
    (sumF sumG : F) (subF subG : Sumcheck.SubClaim F) : Prop where
  accepted : ∃ out, proof.verifyAsSubprotocol O castFieldElement vk shape U_accs U_ccs st = .ok out
  claimF : claimedSum proof.sumcheckFProof (List.zipWith (· * ·)
    ((List.range' 1 shape.numMatrices).map fun j => gamma ^ j) U_accs.vs).sum = .ok sumF
  claimG : claimedSum proof.sumcheckGProof (proof.epsilon + delta * proof.epsilonPrime) = .ok sumG
  states : ∃ alpha r_prime_x st₁ st₂ st₃,
    challenges O vk U_accs U_ccs st = .ok (gamma, alpha, r_prime_x, st₁) ∧
    Sumcheck.verifyAsSubprotocol O proof.polyFInfo sumF proof.sumcheckFProof st₁ =
      .ok (subF, st₂) ∧
    delta = (O.squeezeOne st₂).1 ∧
    Sumcheck.verifyAsSubprotocol O proof.polyGInfo sumG proof.sumcheckGProof (O.squeezeOne st₂).2 =
      .ok (subG, st₃)

/-- The claimed sums of accepted proofs are values that the instances and the
challenges determine. -/
def SumsSound (vk : F) (shape : CCSShape F) (U_accs : ACCSInstance F C) (U_ccs : CCSInstance F C)
    (st : O.State) : Prop :=
  ∃ (valueF : F → F) (valueG : F → F → F), ∀ proof gamma delta sumF sumG subF subG,
    Accepted O castFieldElement vk shape U_accs U_ccs st proof gamma delta sumF sumG subF subG →
      sumF = valueF gamma ∧ sumG = valueG gamma delta

/-- The subclaims of accepted proofs are values that the challenges, the points and
the claimed evaluations determine. -/
def EvaluationsSound (vk : F) (shape : CCSShape F) (U_accs : ACCSInstance F C)
    (U_ccs : CCSInstance F C) (st : O.State) : Prop :=
  ∃ valueF valueG : F → F → List F → List F → List F → F,
    ∀ proof gamma delta sumF sumG subF subG,
      Accepted O castFieldElement vk shape U_accs U_ccs st proof gamma delta sumF sumG subF subG →
        subF.expectedEvaluation = valueF gamma delta subF.point proof.sigmas proof.thetas ∧
        subG.expectedEvaluation = valueG gamma delta subG.point proof.sigmas proof.thetas

/-- Inputs of lengths that can be folded. -/
def Foldable (U_accs : ACCSInstance F C) (U_ccs : CCSInstance F C) : Prop :=
  0 < U_ccs.X.length ∧ U_accs.io.length = U_ccs.X.length

variable {O castFieldElement} {vk : F} {shape : CCSShape F} {U_accs : ACCSInstance F C}
  {U_ccs : CCSInstance F C} {st : O.State}

/-- Only inputs that can be folded are accepted. -/
theorem foldable_of_accepted {proof : ACCSFoldingProof F} {out : ACCSInstance F C × B × O.State}
    (h : proof.verifyAsSubprotocol O castFieldElement vk shape U_accs U_ccs st = .ok out) :
    Foldable U_accs U_ccs := by
  simp only [ACCSFoldingProof.verifyAsSubprotocol, bind_eq_ok] at h
  obtain ⟨_, -, sumF, -, _, -, -, -, sumG, -, _, -, U, hU, -⟩ := h
  obtain ⟨hX, hio, -, -⟩ := foldInstances_eq_ok.mp hU
  exact ⟨hX, hio⟩

omit [DecidableEq F] [AddCommGroup C] [Module F C] in
/-- Challenges for every oracle. -/
theorem exists_challenges (O : RandomOracle F C B) (vk : F) (U_accs : ACCSInstance F C)
    {U_ccs : CCSInstance F C} (hX : 0 < U_ccs.X.length) (st : O.State) :
    ∃ gamma alpha r_prime_x st',
      challenges O vk U_accs U_ccs st = .ok (gamma, alpha, r_prime_x, st') ∧
        r_prime_x.length = U_accs.r_x.length :=
  ⟨_, _, _, _, bind_eq_ok.mpr ⟨_, bind_eq_ok.mpr ⟨(), assert_eq_ok.mpr hX, rfl⟩, rfl⟩,
    O.length_squeeze _ _⟩

/-- One round of two evaluations is accepted for what they add up to. -/
theorem exists_accepted_pair {C B : Type} (O : RandomOracle F C B) (a b : F) (st : O.State) :
    ∃ sub st', Sumcheck.verifyAsSubprotocol O ⟨1, 1, 0⟩ (a + b) [[a, b]] st = .ok (sub, st') := by
  let st₁ := O.absorb st (Sumcheck.PolynomialInfo.elements ⟨1, 1, 0⟩)
  let st₂ := O.absorb st₁ ([a, b].map .scalar)
  obtain ⟨v, hv⟩ := Sumcheck.interpolateUniPoly_pair (E := Sumcheck.Error) a b (O.squeezeOne st₂).1
  have hsum : (Run.failIf ([a, b].getD 0 0 + [a, b].getD 1 0 ≠ a + b)
      Sumcheck.Error.reject) = .ok () := failIf_eq_ok.mpr (not_not.mpr rfl)
  exact ⟨_, _, bind_eq_ok.mpr ⟨_, rfl, bind_eq_ok.mpr ⟨(), rfl, bind_eq_ok.mpr ⟨v,
    bind_eq_ok.mpr ⟨(), rfl, bind_eq_ok.mpr ⟨(), rfl, bind_eq_ok.mpr ⟨(), hsum,
      bind_eq_ok.mpr ⟨v, hv, rfl⟩⟩⟩⟩, rfl⟩⟩⟩⟩

/-- **Any sum is accepted.**  The verifier reads the claimed sums off the proof. -/
theorem exists_accepted_sum (O : RandomOracle F C B) (castFieldElement : B → F) (vk : F)
    (shape : CCSShape F) (st : O.State) (h : Foldable U_accs U_ccs) :
    ∃ gamma, ∀ a : F, ∃ proof delta subF subG,
      Accepted O castFieldElement vk shape U_accs U_ccs st proof gamma delta a 0 subF subG := by
  obtain ⟨gamma, alpha, r_prime_x, st₁, hchallenges, -⟩ := exists_challenges O vk U_accs h.1 st
  refine ⟨gamma, fun a => ?_⟩
  obtain ⟨subF, st₂, hF⟩ := exists_accepted_pair O a 0 st₁
  obtain ⟨subG, st₃, hG⟩ := exists_accepted_pair O (0 : F) 0 (O.squeezeOne st₂).2
  rw [add_zero] at hF hG
  let proof : ACCSFoldingProof F :=
    ⟨[[a, 0]], ⟨1, 1, 0⟩, [[0, 0]], ⟨1, 1, 0⟩, U_accs.vs, [], [], subF.point, 0, 0⟩
  have hfold : foldInstances U_accs U_ccs (castFieldElement (O.squeezeTruncated st₃).1)
      proof.sigmas proof.epsilonPrime = .ok _ := foldInstances_eq_ok.mpr ⟨h.1, h.2, rfl, rfl⟩
  have hsumF : ∀ fallback : F, claimedSum proof.sumcheckFProof fallback = .ok a := fun _ =>
    bind_eq_ok.mpr ⟨(), rfl, congrArg Except.ok (add_zero a)⟩
  have hsumG : ∀ fallback : F, claimedSum proof.sumcheckGProof fallback = .ok 0 := fun _ =>
    bind_eq_ok.mpr ⟨(), rfl, congrArg Except.ok (add_zero 0)⟩
  have haccept : proof.verifyAsSubprotocol O castFieldElement vk shape U_accs U_ccs st = .ok _ :=
    bind_eq_ok.mpr ⟨_, hchallenges, bind_eq_ok.mpr ⟨a, hsumF _, bind_eq_ok.mpr ⟨_,
      mapError_eq_ok.mpr hF, bind_eq_ok.mpr ⟨(), failIf_eq_ok.mpr (not_not.mpr rfl),
        bind_eq_ok.mpr ⟨0, hsumG _, bind_eq_ok.mpr ⟨_, mapError_eq_ok.mpr hG,
          bind_eq_ok.mpr ⟨_, hfold, rfl⟩⟩⟩⟩⟩⟩⟩
  exact ⟨proof, (O.squeezeOne st₂).1, subF, subG, ⟨_, haccept⟩, hsumF _, hsumG _, alpha, r_prime_x,
    st₁, st₂, st₃, hchallenges, hF, rfl, hG⟩

/-- **Accepted folds are sound only if there are none.**  The instances determine
the sums of accepted proofs, and the claimed evaluations their subclaims, only where
the lengths of the inputs let no proof pass. -/
theorem accs_sound_iff (O : RandomOracle F C B) (castFieldElement : B → F) (vk : F)
    (shape : CCSShape F) (U_accs : ACCSInstance F C) (U_ccs : CCSInstance F C) (st : O.State) :
    (SumsSound O castFieldElement vk shape U_accs U_ccs st ∧
      EvaluationsSound O castFieldElement vk shape U_accs U_ccs st) ↔
        ¬ Foldable U_accs U_ccs := by
  constructor
  · rintro ⟨⟨valueF, valueG, hsums⟩, -⟩ hfoldable
    obtain ⟨gamma, haccept⟩ := exists_accepted_sum O castFieldElement vk shape st hfoldable
    obtain ⟨proof₀, delta₀, subF₀, subG₀, h₀⟩ := haccept 0
    obtain ⟨proof₁, delta₁, subF₁, subG₁, h₁⟩ := haccept 1
    have hzero := (hsums _ _ _ _ _ _ _ h₀).1
    have hone := (hsums _ _ _ _ _ _ _ h₁).1
    exact zero_ne_one (hzero.trans hone.symm)
  · intro hfoldable
    have hnone : ∀ proof gamma delta sumF sumG subF subG, ¬ Accepted O castFieldElement vk shape
        U_accs U_ccs st proof gamma delta sumF sumG subF subG := by
      intro proof gamma delta sumF sumG subF subG h
      obtain ⟨out, hout⟩ := h.accepted
      exact hfoldable (foldable_of_accepted hout)
    constructor
    · exact ⟨fun _ => 0, fun _ _ => 0, fun _ _ _ _ _ _ _ h => absurd h (hnone _ _ _ _ _ _ _)⟩
    · exact ⟨fun _ _ _ _ _ => 0, fun _ _ _ _ _ => 0,
        fun _ _ _ _ _ _ _ h => absurd h (hnone _ _ _ _ _ _ _)⟩

end Soundness

section Forged

/-- An accumulator and an instance over the field of order 3. -/
def zeroAccs : ACCSInstance (ZMod 3) (ZMod 3) := ⟨0, 0, [0], [0], [0], [0], 0⟩

def zeroCcs : CCSInstance (ZMod 3) (ZMod 3) := ⟨0, [0]⟩

/-- A proof whose first sumcheck is about the sum `a`. -/
def forgedAccs (a : ZMod 3) : ACCSFoldingProof (ZMod 3) :=
  ⟨[[a, 0]], ⟨1, 1, 0⟩, [[0, 0]], ⟨1, 1, 0⟩, [0], [0], [0], [0], 0, 0⟩

theorem accepted_forgedAccs {a : ZMod 3} (h : a = 0 ∨ a = 1) :
    Accepted (zeroOracle (ZMod 3) (ZMod 3) (ZMod 3)) id 0 rowShape zeroAccs zeroCcs ()
      (forgedAccs a) 0 0 a 0 ⟨[0], a⟩ ⟨[0], 0⟩ := by
  rcases h with rfl | rfl
  · exact ⟨⟨_, rfl⟩, rfl, rfl, 0, [0], (), (), (), rfl, rfl, rfl, rfl⟩
  · exact ⟨⟨_, rfl⟩, rfl, rfl, 0, [0], (), (), (), rfl, rfl, rfl, rfl⟩

/-- **Two proofs with the same challenges and claims.**  Their sums differ, and so do
the subclaims that they leave. -/
theorem forged_accs_accepted :
    ¬ SumsSound (zeroOracle (ZMod 3) (ZMod 3) (ZMod 3)) id 0 rowShape zeroAccs zeroCcs () ∧
    ¬ EvaluationsSound (zeroOracle (ZMod 3) (ZMod 3) (ZMod 3)) id 0 rowShape zeroAccs zeroCcs
      () := by
  have h₀ := accepted_forgedAccs (Or.inl rfl)
  have h₁ := accepted_forgedAccs (Or.inr rfl)
  constructor
  · rintro ⟨valueF, valueG, hsums⟩
    have hzero := (hsums _ _ _ _ _ _ _ h₀).1
    have hone := (hsums _ _ _ _ _ _ _ h₁).1
    exact zero_ne_one (hzero.trans hone.symm)
  · rintro ⟨valueF, valueG, hvalues⟩
    have hzero : (0 : ZMod 3) = valueF 0 0 [0] [0] [0] := (hvalues _ _ _ _ _ _ _ h₀).1
    have hone : (1 : ZMod 3) = valueF 0 0 [0] [0] [0] := (hvalues _ _ _ _ _ _ _ h₁).1
    exact zero_ne_one (hzero.trans hone.symm)

end Forged

section Satisfied

variable {F C B CK : Type} [Field F] [AddCommGroup C] [Module F C]

/-- The relation of atomic instances: the commitment opens to the witness, `vs` are the
evaluations of the matrix products at `r_x`, and `v_z` is the witness at `r_y`. -/
structure AccsSatisfied (S : PolyCommitmentScheme F C CK) (shape : CCSShape F)
    (U : ACCSInstance F C) (W : CCSWitness F) (ck : CK) : Prop where
  lengthW : W.W.length = shape.numVars
  lengthIo : U.io.length = shape.numIo
  commitW : W.commit S ck = .ok U.commitment_W
  targets : evaluations shape (U.assignment W) U.r_x = .ok U.vs
  witness : (evaluateVec W.W U.r_y : Run Error F) = .ok U.v_z

/-- **A step that the weights do not show in.**  The instances are folded with the weights
`1` and `eta`, the witnesses with `eta` and `eta ^ 2`, and the accumulator's own
evaluations at the new point stand for those of the incoming instance. -/
structure Neutral (shape : CCSShape F) (U_accs : ACCSInstance F C) (W_accs : CCSWitness F)
    (U_ccs : CCSInstance F C) (W_ccs : CCSWitness F) : Prop where
  coordinates : 0 < U_accs.r_x.length ∧ U_accs.r_x.length = U_accs.r_y.length
  commitment : U_accs.commitment_W = 0
  v_z : U_accs.v_z = 0
  incoming : W_ccs.W = List.replicate shape.numVars 0
  accumulated : ∀ j < shape.numMatrices,
    mleAt (matrixProduct shape (List.replicate shape.numIo 0 ++ W_accs.W) j) U_accs.r_x = 0
  sigmas : ∀ r : List F, r.length = U_accs.r_x.length → ∀ j < shape.numMatrices,
    mleAt (matrixProduct shape (U_accs.assignment W_accs) j) r =
      mleAt (matrixProduct shape (1 :: U_ccs.X.tail ++ W_ccs.W) j) U_accs.r_x

/-- A CCS pair that is folded into the accumulator, from an oracle's state. -/
structure Incoming (O : RandomOracle F C B) where
  vk : F
  U : CCSInstance F C
  W : CCSWitness F
  st : O.State

variable (M : MultilinearExtensions F) (O : RandomOracle F C B) (castFieldElement : B → F)

/-- One fold of the prover. -/
def foldStep (shape : CCSShape F) (acc : ACCSInstance F C × CCSWitness F) (inc : Incoming O) :
    Run Error (ACCSInstance F C × CCSWitness F) := do
  let (_, folded, _, _) ← proveAsSubprotocol M O castFieldElement inc.vk shape acc.1 acc.2 inc.U
    inc.W inc.st
  .ok folded

/-- All steps of a run are neutral. -/
def NeutralRun (shape : CCSShape F) :
    ACCSInstance F C × CCSWitness F → List (Incoming O) → Prop
  | _, [] => True
  | acc, inc :: incs => Neutral shape acc.1 acc.2 inc.U inc.W ∧
      ∀ acc', foldStep M O castFieldElement shape acc inc = .ok acc' → NeutralRun shape acc' incs

/-! ## One step -/

variable {S : PolyCommitmentScheme F C CK} {shape : CCSShape F} {ck : CK} {U : ACCSInstance F C}
  {W : CCSWitness F}

omit [Field F] [AddCommGroup C] [Module F C] in
theorem length_assignment (hio : U.io.length = shape.numIo) (hW : W.W.length = shape.numVars) :
    (U.assignment W).length = shape.numIo + shape.numVars := by
  have hpos := shape.numIo_pos
  rw [ACCSInstance.assignment, List.length_cons, List.length_append, List.length_tail, hio, hW]
  omega

theorem length_proveRounds {F C B : Type} [Field F] {M : MultilinearExtensions F}
    (O : RandomOracle F C B) (degree n : ℕ) (products : List (F × List M.Mle)) (st : O.State) :
    (Sumcheck.proveRounds O degree n products st).2.1.length = n := by
  induction n generalizing products st with
  | zero => rfl
  | succ n ih => exact congrArg Nat.succ (ih _ _)

/-- The prover of the sumcheck returns for polynomials that are not constant. -/
theorem exists_proveAsSubprotocol {F C B : Type} [Field F] {M : MultilinearExtensions F}
    (O : RandomOracle F C B) {g : Sumcheck.ListOfProductsOfPolynomials M}
    (h : 0 < g.numVariables) (st : O.State) :
    ∃ msgs rs st', (Sumcheck.proveAsSubprotocol O g st : Run Error _) = .ok (msgs, rs, st') ∧
      rs.length = g.numVariables :=
  ⟨_, _, _, bind_eq_ok.mpr ⟨(), assert_eq_ok.mpr h.ne', rfl⟩, length_proveRounds _ _ _ _ _⟩

variable {W_ccs : CCSWitness F} {U_ccs : CCSInstance F C}

/-- The folded assignment, for an incoming witness of zeros. -/
theorem assignment_folded (eta : F) {sigmas : List F} {epsilonPrime : F}
    (hW : W.W.length = shape.numVars) (hio : U.io.length = shape.numIo)
    (hX : U_ccs.X.length = shape.numIo) (hzero : W_ccs.W = List.replicate shape.numVars 0) :
    (foldedInstance U U_ccs eta sigmas epsilonPrime).assignment
        ⟨comb eta (eta * eta) W.W W_ccs.W⟩ =
      comb 1 (eta - 1) (comb 1 eta (U.assignment W) (1 :: U_ccs.X.tail ++ W_ccs.W))
        (List.replicate shape.numIo 0 ++ W.W) := by
  obtain ⟨n, hn⟩ := Nat.exists_eq_succ_of_ne_zero shape.numIo_pos.ne'
  have htails : U.io.tail.length = U_ccs.X.tail.length := by
    rw [List.length_tail, List.length_tail, hio, hX]
  have hwit : W.W.length = W_ccs.W.length := by rw [hW, hzero, List.length_replicate]
  have htail : U.io.tail.length = n := by
    rw [List.length_tail, hio, hn]
    rfl
  have hinputs : comb 1 (eta - 1) (comb 1 eta U.io.tail U_ccs.X.tail) (List.replicate n 0) =
      comb 1 eta U.io.tail U_ccs.X.tail := by
    have hlen : (comb 1 eta U.io.tail U_ccs.X.tail).length =
        (List.replicate n (0 : F)).length := by
      rw [length_comb_of_eq htails, htail, List.length_replicate]
    apply ext_getD (length_comb_of_eq hlen _ _)
    intro i _
    rw [getD_comb hlen, List.getD_eq_getElem?_getD (l := List.replicate n 0),
      List.getElem?_getD_replicate_default_eq]
    ring
  have hwitness : comb 1 (eta - 1) (comb 1 eta W.W W_ccs.W) W.W =
      comb eta (eta * eta) W.W W_ccs.W := by
    have hlen : (comb 1 eta W.W W_ccs.W).length = W.W.length := length_comb_of_eq hwit _ _
    apply ext_getD
    · rw [length_comb_of_eq hlen, hlen, length_comb_of_eq hwit]
    · intro i _
      have hzi : W_ccs.W.getD i 0 = 0 := by
        rw [hzero, List.getD_eq_getElem?_getD, List.getElem?_getD_replicate_default_eq]
      rw [getD_comb hlen, getD_comb hwit, getD_comb hwit, hzi]
      ring
  have hio' : (comb 1 eta U.io U_ccs.X).tail = comb 1 eta U.io.tail U_ccs.X.tail := by
    cases U.io with
    | nil => cases U_ccs.X <;> rfl
    | cons a as => cases U_ccs.X <;> simp [comb]
  have hcons : ∀ (x y a b : F) (as bs : List F),
      comb x y (a :: as) (b :: bs) = (x * a + y * b) :: comb x y as bs := fun _ _ _ _ _ _ => rfl
  have hlen : (comb 1 eta U.io.tail U_ccs.X.tail).length = (List.replicate n (0 : F)).length := by
    rw [length_comb_of_eq htails, htail, List.length_replicate]
  show (U.v0 + eta * 1) :: ((comb 1 eta U.io U_ccs.X).tail ++ comb eta (eta * eta) W.W W_ccs.W) = _
  rw [ACCSInstance.assignment, List.cons_append, hcons, comb_append htails, hn,
    List.replicate_succ, List.cons_append, hcons, comb_append hlen, hinputs, hwitness, hio']
  congr 1
  ring

theorem mleAt_replicate (n : ℕ) (r : List F) : mleAt (List.replicate n (0 : F)) r = 0 := by
  have hcomb : comb 0 0 (List.replicate n (0 : F)) (List.replicate n 0) = List.replicate n 0 := by
    apply ext_getD (length_comb_of_eq rfl _ _)
    intro i _
    rw [getD_comb rfl, List.getD_eq_getElem?_getD, List.getElem?_getD_replicate_default_eq]
    ring
  have hmle := mleAt_comb (u := List.replicate n (0 : F)) (v := List.replicate n 0) rfl 0 0 r
  rw [hcomb] at hmle
  rw [hmle]
  ring

/-- The commitment to zeros. -/
theorem commit_zeros {c : C} (hW : W.W = List.replicate shape.numVars 0)
    (h : W.commit S ck = .ok c) : c = 0 := by
  have hcomb : comb 0 0 W.W W.W = W.W := by
    apply ext_getD (length_comb_of_eq rfl _ _)
    intro i _
    rw [getD_comb rfl, hW, List.getD_eq_getElem?_getD, List.getElem?_getD_replicate_default_eq]
    ring
  have hsum := commit_comb rfl h h 0 0
  rw [hcomb] at hsum
  have hok : (.ok c : Run Ccs.Error C) = .ok ((0 : F) • c + (0 : F) • c) := h.symm.trans hsum
  rw [Except.ok.inj hok, zero_smul, add_zero]

/-- **A neutral step keeps the relation**, for every challenge and every new point. -/
theorem satisfied_folded (h : AccsSatisfied S shape U W ck) (hX : U_ccs.X.length = shape.numIo)
    (hcommit : W_ccs.commit S ck = .ok U_ccs.commitment_W) (hn : Neutral shape U W U_ccs W_ccs)
    (eta : F) {r r' : List F} (hr : r.length = U.r_x.length) :
    AccsSatisfied S shape (foldedInstance U U_ccs eta
        (matrixEvals shape (U.assignment W) r) (mleAt W_ccs.W r'))
      ⟨comb eta (eta * eta) W.W W_ccs.W⟩ ck := by
  have hwit : W.W.length = W_ccs.W.length := by
    rw [h.lengthW, hn.incoming, List.length_replicate]
  have hz := length_assignment h.lengthIo h.lengthW
  obtain ⟨heval, hvs⟩ := (evaluations_eq_ok hz).mp h.targets
  let U' := foldedInstance U U_ccs eta (matrixEvals shape (U.assignment W) r) (mleAt W_ccs.W r')
  let W' : CCSWitness F := ⟨comb eta (eta * eta) W.W W_ccs.W⟩
  have hassign : U'.assignment W' = _ := assignment_folded eta h.lengthW h.lengthIo hX hn.incoming
  have hinc : (1 :: U_ccs.X.tail ++ W_ccs.W).length = (U.assignment W).length := by
    have hpos := shape.numIo_pos
    rw [hz, List.length_append, List.length_cons, List.length_tail, hX, ← hwit, h.lengthW]
    omega
  have hacc : (List.replicate shape.numIo 0 ++ W.W).length = (U.assignment W).length := by
    rw [hz, List.length_append, List.length_replicate, h.lengthW]
  have hlen : (comb 1 eta (U.assignment W) (1 :: U_ccs.X.tail ++ W_ccs.W)).length =
      (List.replicate shape.numIo 0 ++ W.W).length := by
    rw [length_comb_of_eq hinc.symm, hacc]
  have hz' : (U'.assignment W').length = shape.numIo + shape.numVars := by
    rw [hassign, length_comb_of_eq hlen, hlen, hacc, hz]
  have hevals : ∀ z r : List F, (matrixEvals shape z r).length = shape.numMatrices :=
    length_matrixEvals
  constructor
  · exact (length_comb_of_eq hwit _ _).trans h.lengthW
  · exact (length_comb_of_eq (h.lengthIo.trans hX.symm) _ _).trans h.lengthIo
  · have hsum := commit_comb hwit h.commitW hcommit eta (eta * eta)
    have hzero := commit_zeros hn.incoming hcommit
    rw [hsum]
    show _ = Except.ok (U.commitment_W + eta • U_ccs.commitment_W)
    simp only [hn.commitment, hzero, smul_zero]
  · refine (evaluations_eq_ok hz').mpr ⟨heval, ?_⟩
    show matrixEvals shape (U'.assignment W') U.r_x =
      comb 1 eta U.vs (matrixEvals shape (U.assignment W) r)
    rw [hassign, matrixEvals_comb hlen, matrixEvals_comb hinc.symm, hvs]
    have hvslen : U.vs.length =
        (matrixEvals shape (1 :: U_ccs.X.tail ++ W_ccs.W) U.r_x).length := by
      rw [← hvs, hevals, hevals]
    have hvslen' : U.vs.length = (matrixEvals shape (U.assignment W) r).length := by
      rw [← hvs, hevals, hevals]
    have hcomblen : (comb 1 eta U.vs
        (matrixEvals shape (1 :: U_ccs.X.tail ++ W_ccs.W) U.r_x)).length =
          (matrixEvals shape (List.replicate shape.numIo 0 ++ W.W) U.r_x).length := by
      rw [length_comb_of_eq hvslen, ← hvs, hevals, hevals]
    apply ext_getD
    · rw [length_comb_of_eq hcomblen, length_comb_of_eq hvslen, length_comb_of_eq hvslen']
    · intro j hj
      rw [length_comb_of_eq hcomblen, length_comb_of_eq hvslen, ← hvs, hevals] at hj
      rw [getD_comb hcomblen, getD_comb hvslen, getD_comb hvslen', Nimfs.getD_matrixEvals _ _ hj,
        Nimfs.getD_matrixEvals _ _ hj, Nimfs.getD_matrixEvals _ _ hj, hn.accumulated j hj,
        hn.sigmas r hr j hj]
      ring
  · obtain ⟨hpos, hry, hvz⟩ := evaluateVec_eq_ok.mp h.witness
    have hlenW : (comb eta (eta * eta) W.W W_ccs.W).length = W.W.length :=
      length_comb_of_eq hwit _ _
    refine evaluateVec_eq_ok.mpr ⟨hlenW ▸ hpos, hlenW ▸ hry, ?_⟩
    show mleAt (comb eta (eta * eta) W.W W_ccs.W) U.r_y = U.v_z + eta * mleAt W_ccs.W r'
    rw [mleAt_comb hwit, hvz, hn.v_z, hn.incoming, mleAt_replicate, mleAt_replicate]
    ring

/-- The prover returns on a neutral step. -/
theorem exists_prove (M : MultilinearExtensions F) (O : RandomOracle F C B)
    (castFieldElement : B → F) (h : AccsSatisfied S shape U W ck)
    (hX : U_ccs.X.length = shape.numIo) (hn : Neutral shape U W U_ccs W_ccs) (vk : F) (st : O.State) :
    ∃ proof eta st' r r', r.length = U.r_x.length ∧
      proveAsSubprotocol M O castFieldElement vk shape U W U_ccs W_ccs st =
        .ok (proof, (foldedInstance U U_ccs (castFieldElement eta)
            (matrixEvals shape (U.assignment W) r) (mleAt W_ccs.W r'),
          ⟨comb (castFieldElement eta) (castFieldElement eta * castFieldElement eta) W.W
            W_ccs.W⟩), eta, st') := by
  have hwit : W.W.length = W_ccs.W.length := by
    rw [h.lengthW, hn.incoming, List.length_replicate]
  have hXpos : 0 < U_ccs.X.length := hX ▸ shape.numIo_pos
  have hz := length_assignment h.lengthIo h.lengthW
  have hz2 : (U_ccs.X ++ W_ccs.W).length = shape.numIo + shape.numVars := by
    rw [List.length_append, hX, ← hwit, h.lengthW]
  obtain ⟨heval, hvs⟩ := (evaluations_eq_ok hz).mp h.targets
  obtain ⟨hpos, hry, -⟩ := evaluateVec_eq_ok.mp h.witness
  obtain ⟨hxpos, hxy⟩ := hn.coordinates
  -- as many constraints and variables as the points have coordinates for
  have hpad : ∀ {n k : ℕ}, 0 < n → 0 < k → k = mleVars n → 2 ≤ n := by
    intro n k hn hk heq
    by_contra hlt
    have hone : n = 1 := by omega
    rw [hone] at heq
    rw [heq] at hk
    exact absurd hk (by decide)
  have hm : 0 < shape.numMatrices → 2 ≤ shape.numConstraints ∧
      U.r_x.length = safeLoglike shape.numConstraints := by
    intro ht
    rw [← shape.matrices] at ht
    obtain ⟨hc, hlen⟩ := heval (List.ne_nil_of_length_pos ht)
    have htwo := hpad hc hxpos hlen
    exact ⟨htwo, by rw [hlen, mleVars_eq_safeLoglike htwo]⟩
  have hvars : 2 ≤ W.W.length := hpad hpos (hxy ▸ hxpos) hry
  have hryvars : U.r_y.length = safeLoglike W.W.length := by
    rw [hry, mleVars_eq_safeLoglike hvars]
  obtain ⟨gamma, alpha, r, st₁, hchallenges, hr⟩ := exists_challenges O vk U hXpos st
  obtain ⟨eq_r_x, heqx⟩ := exists_eqMle (M := M) (E := Error).mpr hxpos
  obtain ⟨eq_r_y, heqy⟩ := exists_eqMle (M := M) (E := Error).mpr (hxy ▸ hxpos)
  have : Nonempty M.Mle := ⟨eq_r_x⟩
  have hL : ∀ j < shape.numMatrices, ∃ m, matrixMle M shape (U.assignment W) j = .ok m :=
    fun j hj => (exists_matrixMle hj).mpr ⟨hz, (hm (by omega)).1⟩
  choose! L hL using hL
  have hnum : ∀ j ∈ List.range shape.numMatrices, [L j, eq_r_x] ≠ [] ∧
      ∀ m ∈ [L j, eq_r_x], M.numVars m = U.r_x.length := by
    intro j hj
    rw [List.mem_range] at hj
    refine ⟨List.cons_ne_nil _ _, ?_⟩
    rw [List.forall_mem_cons, List.forall_mem_singleton]
    exact ⟨(numVars_matrixMle hj (hL j hj)).trans (hm (by omega)).2.symm, numVars_eqMle heqx⟩
  obtain ⟨degree, -, -, hrun, -⟩ := Nimfs.foldlM_addProduct
    (l := List.range shape.numMatrices) (f := addMatrix M shape (U.assignment W) eq_r_x gamma)
    (c := fun j => gamma ^ (j + 1)) (k := fun j => [L j, eq_r_x]) (s := U.r_x.length)
    (g := .new U.r_x.length)
    (by
      intro j hj g
      rw [addMatrix, hL j (List.mem_range.mp hj)]
      rfl)
    hnum rfl (fun _ hmem => absurd hmem List.not_mem_nil)
  obtain ⟨f, hrunF, hnumF⟩ : ∃ f, (List.range shape.numMatrices).foldlM
      (addMatrix M shape (U.assignment W) eq_r_x gamma) (.new U.r_x.length) = .ok f ∧
        f.numVariables = U.r_x.length := ⟨_, hrun, rfl⟩
  obtain ⟨msgsF, r', st₂, hproveF, hr'⟩ := exists_proveAsSubprotocol O (g := f)
    (hnumF ▸ hxpos) st₁
  have hr'' : r'.length = U.r_x.length := hr'.trans hnumF
  have hevals : ∀ {z s : List F}, z.length = shape.numIo + shape.numVars →
      s.length = U.r_x.length →
      Nimfs.evaluateMatrices M shape z s = .ok (matrixEvals shape z s) := by
    intro z s hzlen hs
    rcases Nat.eq_zero_or_pos shape.numMatrices with ht | ht
    · have hMs : shape.Ms = [] := List.eq_nil_of_length_eq_zero (shape.matrices.trans ht)
      rw [Nimfs.evaluateMatrices, matrixEvals, hMs]
      rfl
    · exact Nimfs.evaluateMatrices_eq hzlen (hm ht).1 (hs.trans (hm ht).2)
  obtain ⟨z_poly, hz_poly⟩ := exists_vecToArkMle (M := M) (E := Error).mpr hvars
  obtain ⟨z_prime_poly, hz_prime⟩ := exists_vecToArkMle (M := M) (E := Error).mpr (hwit ▸ hvars)
  have hzvars : M.numVars z_poly = U.r_y.length := by
    rw [(extends_vecToArkMle hz_poly).numVars, hryvars]
  have hzvars' : M.numVars z_prime_poly = U.r_y.length := by
    rw [(extends_vecToArkMle hz_prime).numVars, ← hwit, hryvars]
  have heqvars : M.numVars eq_r_y = U.r_y.length := numVars_eqMle heqy
  have hadd : ∀ {g : Sumcheck.ListOfProductsOfPolynomials M} {m : M.Mle} (c : F),
      g.numVariables = U.r_y.length → M.numVars m = U.r_y.length →
      ∃ g', (g.addProduct [m, eq_r_y] c : Run Error _) = .ok g' ∧
        g'.numVariables = U.r_y.length := by
    intro g m c hg hmvars
    refine ⟨_, Sumcheck.addProduct_eq_ok.mpr ⟨List.cons_ne_nil _ _, ?_, rfl⟩, hg⟩
    rw [List.forall_mem_cons, List.forall_mem_singleton, hg]
    exact ⟨hmvars, heqvars⟩
  obtain ⟨g₁, hg₁, hnum₁⟩ := hadd (g := .new U.r_y.length) 1 rfl hzvars
  obtain ⟨g₂, hg₂, hnum₂⟩ := hadd (O.squeezeOne st₂).1 hnum₁ hzvars'
  obtain ⟨msgsG, s, st₃, hproveG, -⟩ := exists_proveAsSubprotocol O (g := g₂)
    (by rw [hnum₂, ← hxy]; exact hxpos) (O.squeezeOne st₂).2
  have hepsilon : (evaluateArk M z_poly U.r_y : Run Error F) = .ok (M.evaluate z_poly U.r_y) :=
    bind_eq_ok.mpr ⟨(), assert_eq_ok.mpr hzvars.symm, rfl⟩
  have hepsilon' : (evaluateArk M z_prime_poly r' : Run Error F) = .ok (mleAt W_ccs.W r') := by
    refine bind_eq_ok.mpr ⟨(), assert_eq_ok.mpr (by rw [hr'', hzvars', hxy]), ?_⟩
    rw [evaluate_vecToArkMle hz_prime (by rw [hr'', hxy, hryvars, hwit])]
  let eta := (O.squeezeTruncated st₃).1
  have hWfold : W.fold W_ccs (castFieldElement eta) = .ok _ := witnessFold_eq_ok.mpr ⟨hwit, rfl⟩
  have hsigmas : U.vs.length = (matrixEvals shape (U.assignment W) r).length := by
    rw [← hvs, length_matrixEvals, length_matrixEvals]
  have hfold : foldInstances U U_ccs (castFieldElement eta)
      (matrixEvals shape (U.assignment W) r) (mleAt W_ccs.W r') = .ok _ :=
    foldInstances_eq_ok.mpr ⟨hXpos, h.lengthIo.trans hX.symm, hsigmas, rfl⟩
  have hio : 0 < U.io.length := h.lengthIo ▸ shape.numIo_pos
  have hprove : proveAsSubprotocol M O castFieldElement vk shape U W U_ccs W_ccs st = .ok _ :=
    bind_eq_ok.mpr ⟨_, hchallenges, bind_eq_ok.mpr ⟨_, heqx, bind_eq_ok.mpr ⟨(),
      assert_eq_ok.mpr hio, bind_eq_ok.mpr ⟨_, hrunF, bind_eq_ok.mpr ⟨_, hproveF,
        bind_eq_ok.mpr ⟨_, hevals hz hr, bind_eq_ok.mpr ⟨_, hevals hz2 hr'',
          bind_eq_ok.mpr ⟨_, heqy, bind_eq_ok.mpr ⟨_, hz_poly, bind_eq_ok.mpr ⟨_, hg₁,
            bind_eq_ok.mpr ⟨_, hz_prime, bind_eq_ok.mpr ⟨_, hg₂, bind_eq_ok.mpr ⟨_, hproveG,
              bind_eq_ok.mpr ⟨_, hepsilon, bind_eq_ok.mpr ⟨_, hepsilon', bind_eq_ok.mpr ⟨_,
                mapError_eq_ok.mpr hWfold, bind_eq_ok.mpr ⟨_, hfold,
                  rfl⟩⟩⟩⟩⟩⟩⟩⟩⟩⟩⟩⟩⟩⟩⟩⟩⟩
  exact ⟨_, eta, _, r, r', hr, hprove⟩

/-! ## Runs and two folds -/

variable [DecidableEq F] [DecidableEq C] {M : MultilinearExtensions F} {O : RandomOracle F C B}
  {castFieldElement : B → F}

/-- A neutral step with a satisfied CCS pair. -/
theorem foldStep_neutral {acc : ACCSInstance F C × CCSWitness F} {inc : Incoming O}
    (h : AccsSatisfied S shape acc.1 acc.2 ck)
    (hinc : shape.isSatisfied S inc.U inc.W ck = .ok ())
    (hn : Neutral shape acc.1 acc.2 inc.U inc.W) :
    ∃ acc', foldStep M O castFieldElement shape acc inc = .ok acc' ∧
      AccsSatisfied S shape acc'.1 acc'.2 ck := by
  obtain ⟨-, hX, hcommit⟩ := of_isSatisfied hinc
  obtain ⟨proof, eta, st', r, r', hr, hprove⟩ :=
    exists_prove M O castFieldElement h hX hn inc.vk inc.st
  exact ⟨_, bind_eq_ok.mpr ⟨_, hprove, rfl⟩, satisfied_folded h hX hcommit hn _ hr⟩

/-- **Runs of neutral steps.**  A satisfied accumulator into which satisfied CCS pairs are
folded one after the other stays satisfied after every step, if all steps are neutral. -/
theorem accs_folds_satisfied (S : PolyCommitmentScheme F C CK) (M : MultilinearExtensions F)
    (O : RandomOracle F C B) (castFieldElement : B → F) (shape : CCSShape F) (ck : CK)
    (acc : ACCSInstance F C × CCSWitness F) (h : AccsSatisfied S shape acc.1 acc.2 ck)
    (incs : List (Incoming O)) (hincs : ∀ inc ∈ incs, shape.isSatisfied S inc.U inc.W ck = .ok ())
    (hn : NeutralRun M O castFieldElement shape acc incs) (k : ℕ) :
    ∃ acc', (incs.take k).foldlM (foldStep M O castFieldElement shape) acc = .ok acc' ∧
      AccsSatisfied S shape acc'.1 acc'.2 ck := by
  induction incs generalizing acc k with
  | nil => exact ⟨acc, by rw [List.take_nil]; rfl, h⟩
  | cons inc incs ih =>
      cases k with
      | zero => exact ⟨acc, rfl, h⟩
      | succ k =>
          rw [List.forall_mem_cons] at hincs
          obtain ⟨acc₁, hstep, h₁⟩ := foldStep_neutral (M := M) h hincs.1 hn.1
          obtain ⟨acc₂, hrun, h₂⟩ := ih acc₁ h₁ hincs.2 (hn.2 acc₁ hstep) k
          refine ⟨acc₂, ?_, h₂⟩
          rw [List.take_succ_cons, List.foldlM_cons]
          exact bind_eq_ok.mpr ⟨acc₁, hstep, hrun⟩

end Satisfied

section Examples

/-- The oracle that answers `0` and folds with the challenge `2`. -/
def twoOracle : RandomOracle (ZMod 3) (ZMod 3) (ZMod 3) :=
  { zeroOracle (ZMod 3) (ZMod 3) (ZMod 3) with squeezeTruncated := fun _ => (2, ()) }

/-- Two equal rows that read the first input; every assignment satisfies the
constraints. -/
def inputShape : CCSShape (ZMod 3) where
  numConstraints := 2
  numVars := 2
  numIo := 1
  numMatrices := 1
  numMultisets := 2
  Ms := [⟨[1, 1], [0, 0], [0, 1, 2], 3⟩]
  cSs := [(1, [0]), (-1, [0])]
  numIo_pos := Nat.one_pos
  dims := by
    intro A hA
    rw [List.mem_singleton] at hA
    subst hA
    constructor <;> decide
  matrices := rfl
  multisets := rfl
  selectors := by decide

/-- Two equal rows that add the two variables; the constraints make them zero. -/
def oppositeShape : CCSShape (ZMod 3) where
  numConstraints := 2
  numVars := 2
  numIo := 1
  numMatrices := 1
  numMultisets := 1
  Ms := [⟨[1, 1, 1, 1], [1, 2, 1, 2], [0, 2, 4], 3⟩]
  cSs := [(-1, [0])]
  numIo_pos := Nat.one_pos
  dims := by
    intro A hA
    rw [List.mem_singleton] at hA
    subst hA
    constructor <;> decide
  matrices := rfl
  multisets := rfl
  selectors := by decide

/-- A fold with a witness of zeros is neutral for opposite values with the commitment zero. -/
theorem neutral_opposite {v0 : ZMod 3} {w : List (ZMod 3)} (hw : w ∈ [[1, 2], [2, 1]]) :
    Neutral oppositeShape (⟨0, v0, [v0], [0], [2], [0], 0⟩ : ACCSInstance (ZMod 3) (ZMod 3)) ⟨w⟩
      ⟨0, [1]⟩ ⟨[0, 0]⟩ := by
  have hrows : ∀ v0 x y : ZMod 3, ∀ w ∈ [[1, 2], [2, 1]], ∀ j < 1,
      mleAt (matrixProduct oppositeShape (v0 :: w) j) [x] =
        mleAt (matrixProduct oppositeShape [y, 0, 0] j) [0] := by decide
  constructor
  · exact ⟨Nat.one_pos, rfl⟩
  · rfl
  · rfl
  · rfl
  · have hzero : ∀ w ∈ [[1, 2], [2, 1]], ∀ j < 1,
        mleAt (matrixProduct oppositeShape ((0 : ZMod 3) :: w) j) [0] = 0 := by decide
    exact hzero w hw
  · intro r hr
    obtain ⟨x, rfl⟩ := List.length_eq_one_iff.mp hr
    exact hrows v0 x 1 w hw

/-- Two steps of an accumulator whose witness is `[1, 2]` and then `[2, 1]`. -/
theorem accs_folds_satisfied_opposite :
    ∃ acc', [(⟨0, ⟨0, [1]⟩, ⟨[0, 0]⟩, ()⟩ : Incoming twoOracle), ⟨1, ⟨0, [1]⟩, ⟨[0, 0]⟩, ()⟩].foldlM
        (foldStep (tables (ZMod 3)) twoOracle id oppositeShape)
        (⟨0, 1, [1], [0], [2], [0], 0⟩, ⟨[1, 2]⟩) = .ok acc' ∧
      AccsSatisfied sumScheme oppositeShape acc'.1 acc'.2 () := by
  have hacc : AccsSatisfied sumScheme oppositeShape ⟨0, 1, [1], [0], [2], [0], 0⟩ ⟨[1, 2]⟩ () :=
    ⟨rfl, rfl, by decide, by decide, by decide⟩
  have hsat : ∀ inc ∈ [(⟨0, ⟨0, [1]⟩, ⟨[0, 0]⟩, ()⟩ : Incoming twoOracle),
      ⟨1, ⟨0, [1]⟩, ⟨[0, 0]⟩, ()⟩], oppositeShape.isSatisfied sumScheme inc.U inc.W () = .ok () := by
    rw [List.forall_mem_cons, List.forall_mem_singleton]
    decide
  have hstep : foldStep (tables (ZMod 3)) twoOracle id oppositeShape
      (⟨0, 1, [1], [0], [2], [0], 0⟩, ⟨[1, 2]⟩) ⟨0, ⟨0, [1]⟩, ⟨[0, 0]⟩, ()⟩ =
        .ok (⟨0, 0, [0], [0], [2], [0], 0⟩, ⟨[2, 1]⟩) := rfl
  refine accs_folds_satisfied sumScheme (tables (ZMod 3)) twoOracle id oppositeShape () _ hacc _
    hsat ⟨neutral_opposite (by decide), fun acc' hacc' => ?_⟩ 2
  rw [hstep] at hacc'
  obtain rfl := Except.ok.inj hacc'
  exact ⟨neutral_opposite (by decide), fun _ _ => trivial⟩

/-- **A fold that does not open.**  The commitments `1` and `2` are folded to
`1 + 2 * 2 = 2`, the witnesses to `2 * 1 + 4 * 2 = 1`. -/
theorem accs_fold_not_satisfied :
    AccsSatisfied sumScheme inputShape ⟨1, 1, [1], [0], [0], [1], 1⟩ ⟨[1, 0]⟩ () ∧
    inputShape.isSatisfied sumScheme ⟨2, [1]⟩ ⟨[2, 0]⟩ () = .ok () ∧
    ∃ acc', foldStep (tables (ZMod 3)) twoOracle id inputShape
        (⟨1, 1, [1], [0], [0], [1], 1⟩, ⟨[1, 0]⟩) ⟨0, ⟨2, [1]⟩, ⟨[2, 0]⟩, ()⟩ = .ok acc' ∧
      ¬ AccsSatisfied sumScheme inputShape acc'.1 acc'.2 () := by
  refine ⟨⟨rfl, rfl, by decide, by decide, by decide⟩, by decide, _, rfl, ?_⟩
  intro h
  exact absurd h.commitW (by decide)

end Examples

end NexusVm.Nova.Accs
