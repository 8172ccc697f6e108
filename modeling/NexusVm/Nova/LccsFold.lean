import NexusVm.Nova.Ccs
import NexusVm.Nova.Sumcheck

/-!
# The verifier of a fold of two linearized instances

`nova/src/ccs/lccs_fold.rs`.  `verify_folding` runs the sumcheck verifier and
drops the subclaim's evaluation; it takes the challenge and the claimed
evaluations from the proof as they are.
-/

namespace NexusVm.Nova.Ccs

section Model

variable {F C B : Type} [Field F] [DecidableEq F] [AddCommGroup C] [Module F C]

/-- `eq_extension`. -/
def eqExtension (a b : List F) : F :=
  if a.length ≠ b.length then 0
  else (a.zip b).foldl (fun acc ab => acc * (ab.1 * ab.2 + (1 - ab.1) * (1 - ab.2))) 1

/-- A proof of a fold of two linearized instances. -/
structure LCCSFoldingProof (F : Type) where
  sumcheckProof : List (List F)
  polyInfo : Sumcheck.PolynomialInfo
  sigmas1 : List F
  sigmas2 : List F
  mergedRs : List F
  rho : F
deriving DecidableEq

/-- `From<ml_sumcheck::Error> for Error`. -/
def ofSumcheck : Sumcheck.Error → Error
  | .reject => .invalidEvaluationPoint

variable (O : RandomOracle F C B)

/-- `generate_gamma_challenge`. -/
def generateGammaChallenge (st : O.State) : F × O.State := O.squeezeOne st

/-- The sum that the sumcheck is about. -/
def claimedSum (shape : CCSShape F) (lccs1 lccs2 : LCCSInstance F C) (gamma : F) : F :=
  ((List.range shape.numMatrices).map fun j =>
    gamma ^ j * lccs1.vs.getD j 0 + gamma ^ (shape.numMatrices + j) * lccs2.vs.getD j 0).sum

/-- The folded instance, the challenge and the oracle's last state. -/
def verifyFolding (shape : CCSShape F) (lccs1 lccs2 : LCCSInstance F C)
    (proof : LCCSFoldingProof F) (st : O.State) :
    Run Error (LCCSInstance F C × F × O.State) := do
  let (gamma, st) := generateGammaChallenge O st
  -- `vs[j]` of both instances
  Run.assert (shape.numMatrices ≤ lccs1.vs.length ∧ shape.numMatrices ≤ lccs2.vs.length)
  let (subclaim, st) ← (Sumcheck.verifyAsSubprotocol O proof.polyInfo
    (claimedSum shape lccs1 lccs2 gamma) proof.sumcheckProof st).mapError ofSumcheck
  Run.failIf (subclaim.point ≠ proof.mergedRs) .invalidEvaluationPoint
  let foldedLccs ← lccs1.foldLccs lccs2 proof.rho proof.sigmas1 proof.sigmas2 proof.mergedRs
  .ok (foldedLccs, proof.rho, st)

/-- The challenge squeezed after both lists of claimed evaluations. -/
def foldingChallenge (st : O.State) (sigmas1 sigmas2 : List F) : F :=
  (O.squeezeOne (O.absorb (O.absorb st (sigmas1.map .scalar)) (sigmas2.map .scalar))).1

/-- The evaluation at `r` that the claimed evaluations stand for. -/
def claimedEvaluation (shape : CCSShape F) (lccs1 lccs2 : LCCSInstance F C) (gamma : F)
    (r sigmas1 sigmas2 : List F) : F :=
  ((List.range shape.numMatrices).map fun j =>
    gamma ^ j * eqExtension lccs1.rs r * sigmas1.getD j 0 +
      gamma ^ (shape.numMatrices + j) * eqExtension lccs2.rs r * sigmas2.getD j 0).sum

/-- The folding challenge of an accepted proof is the transcript's. -/
def ChallengeSound (shape : CCSShape F) (lccs1 lccs2 : LCCSInstance F C) (st : O.State) : Prop :=
  ∀ proof out, verifyFolding O shape lccs1 lccs2 proof st = .ok out →
    out.2.1 = foldingChallenge O out.2.2 proof.sigmas1 proof.sigmas2

/-- The subclaim of an accepted proof is the claimed evaluation. -/
def EvaluationSound (shape : CCSShape F) (lccs1 lccs2 : LCCSInstance F C) (st : O.State) : Prop :=
  ∀ proof out, verifyFolding O shape lccs1 lccs2 proof st = .ok out →
    ∀ subclaim st', Sumcheck.verifyAsSubprotocol O proof.polyInfo
      (claimedSum shape lccs1 lccs2 (O.squeezeOne st).1) proof.sumcheckProof
      (O.squeezeOne st).2 = .ok (subclaim, st') →
    subclaim.expectedEvaluation = claimedEvaluation shape lccs1 lccs2 (O.squeezeOne st).1
      subclaim.point proof.sigmas1 proof.sigmas2

/-- Instances of lengths that can be folded. -/
structure Foldable (shape : CCSShape F) (lccs1 lccs2 : LCCSInstance F C) : Prop where
  vs : shape.numMatrices ≤ lccs1.vs.length ∧ lccs1.vs.length = lccs2.vs.length
  rs : 0 < lccs1.rs.length ∧ lccs1.rs.length = lccs2.rs.length
  X : 0 < lccs1.X.length ∧ lccs1.X.length = lccs2.X.length

end Model

/-! ## Which instances can be folded and a forged fold -/

section Acceptance

variable {F C B : Type} [Field F] [DecidableEq F] [AddCommGroup C] [Module F C]
  {O : RandomOracle F C B} {shape : CCSShape F} {lccs1 lccs2 : LCCSInstance F C}

variable {out : LCCSInstance F C × F × O.State} {proof : LCCSFoldingProof F}

/-- What an accepted proof fulfills. -/
theorem verifyFolding_eq_ok {st : O.State} :
    verifyFolding O shape lccs1 lccs2 proof st = .ok out ↔
      (shape.numMatrices ≤ lccs1.vs.length ∧ shape.numMatrices ≤ lccs2.vs.length) ∧
      ∃ subclaim, Sumcheck.verifyAsSubprotocol O proof.polyInfo
          (claimedSum shape lccs1 lccs2 (O.squeezeOne st).1) proof.sumcheckProof
          (O.squeezeOne st).2 = .ok (subclaim, out.2.2) ∧
        subclaim.point = proof.mergedRs ∧
        lccs1.foldLccs lccs2 proof.rho proof.sigmas1 proof.sigmas2 proof.mergedRs = .ok out.1 ∧
        out.2.1 = proof.rho := by
  simp only [verifyFolding, generateGammaChallenge, bind_eq_ok, assert_eq_ok, failIf_eq_ok,
    mapError_eq_ok, exists_const, not_not]
  constructor
  · rintro ⟨hvs, ⟨subclaim, st'⟩, hsub, hpoint, U, hU, heq⟩
    obtain rfl := Except.ok.inj heq
    exact ⟨hvs, subclaim, hsub, hpoint, hU, rfl⟩
  · obtain ⟨U, rho, st'⟩ := out
    rintro ⟨hvs, subclaim, hsub, hpoint, hU, rfl⟩
    exact ⟨hvs, (subclaim, st'), hsub, hpoint, U, hU, rfl⟩

/-- Only instances that can be folded are accepted. -/
theorem foldable_of_accepted {st : O.State}
    (h : verifyFolding O shape lccs1 lccs2 proof st = .ok out) :
    Foldable shape lccs1 lccs2 := by
  obtain ⟨hvs, subclaim, hsub, hpoint, hfold, -⟩ := verifyFolding_eq_ok.mp h
  obtain ⟨⟨hrs, hmerged⟩, ⟨-, hlen⟩, hX, hpos, -, -⟩ := foldLccs_eq_ok.mp hfold
  obtain ⟨hpoint', hne⟩ := Sumcheck.length_point hsub
  constructor
  · exact ⟨hvs.1, hlen⟩
  · rw [hmerged, ← hpoint, hpoint']
    refine ⟨Nat.pos_of_ne_zero hne, ?_⟩
    rw [← hpoint', hpoint, ← hmerged, hrs]
  · exact ⟨hpos, hX⟩

/-- **A proof for every challenge.**  The verifier takes the challenge and the
claimed evaluations from the proof, so instances that can be folded have accepted
proofs with any of them. -/
theorem exists_accepted_proof (h : Foldable shape lccs1 lccs2) (st : O.State) :
    ∃ (msgs : List (List F)) (info : Sumcheck.PolynomialInfo) (rs : List F) (st' : O.State),
      ∀ (rho : F) (sigmas1 sigmas2 : List F), sigmas1.length = sigmas2.length →
        ∃ U, verifyFolding O shape lccs1 lccs2 ⟨msgs, info, sigmas1, sigmas2, rs, rho⟩ st =
          .ok (U, rho, st') := by
  let gamma := (O.squeezeOne st).1
  obtain ⟨msgs, rounds, st', expected, hrounds, hcheck⟩ := Sumcheck.exists_rounds (O := O)
    lccs1.rs.length (claimedSum shape lccs1 lccs2 gamma)
    (O.absorb (O.squeezeOne st).2 [.size 1, .size lccs1.rs.length, .size 0])
  have hsub : Sumcheck.verifyAsSubprotocol O ⟨1, lccs1.rs.length, 0⟩
      (claimedSum shape lccs1 lccs2 gamma) msgs (O.squeezeOne st).2 =
        .ok (⟨rounds.map Prod.snd, expected⟩, st') := by
    have hne : lccs1.rs.length ≠ 0 := h.rs.1.ne'
    exact bind_eq_ok.mpr ⟨_, hrounds, bind_eq_ok.mpr ⟨(), assert_eq_ok.mpr hne,
      bind_eq_ok.mpr ⟨expected, hcheck, rfl⟩⟩⟩
  have hpoint : (rounds.map Prod.snd).length = lccs1.rs.length := (Sumcheck.length_point hsub).1
  refine ⟨msgs, ⟨1, lccs1.rs.length, 0⟩, rounds.map Prod.snd, st', ?_⟩
  intro rho sigmas1 sigmas2 hsigmas
  have hfold : lccs1.foldLccs lccs2 rho sigmas1 sigmas2 (rounds.map Prod.snd) = .ok _ :=
    foldLccs_eq_ok.mpr
    ⟨⟨h.rs.2, hpoint.symm⟩, ⟨hsigmas, h.vs.2⟩, h.X.2, h.X.1, h.X.2 ▸ h.X.1, rfl⟩
  exact ⟨_, verifyFolding_eq_ok.mpr ⟨⟨h.vs.1, h.vs.2 ▸ h.vs.1⟩, _, hsub, rfl, hfold, rfl⟩⟩

/-- **Accepted proofs are sound only if there are none.**  The challenge of an
accepted proof is the transcript's, and its subclaim the claimed evaluation, only
where the lengths of the instances let no proof pass. -/
theorem folding_sound_iff (O : RandomOracle F C B) (shape : CCSShape F)
    (lccs1 lccs2 : LCCSInstance F C) (st : O.State) :
    (ChallengeSound O shape lccs1 lccs2 st ∧ EvaluationSound O shape lccs1 lccs2 st) ↔
      ¬ Foldable shape lccs1 lccs2 := by
  constructor
  · rintro ⟨hchallenge, -⟩ hfoldable
    obtain ⟨msgs, info, rs, st', haccept⟩ := exists_accepted_proof hfoldable st
    obtain ⟨U, hU⟩ := haccept (foldingChallenge O st' [] [] + 1) [] [] rfl
    have heq : foldingChallenge O st' [] [] + 1 = foldingChallenge O st' [] [] := hchallenge _ _ hU
    exact one_ne_zero (add_eq_left.mp heq)
  · intro hfoldable
    constructor
    · intro proof out hout
      exact absurd (foldable_of_accepted hout) hfoldable
    · intro proof out hout
      exact absurd (foldable_of_accepted hout) hfoldable

end Acceptance

section Forged

/-- A first instance with a target that its witnesses do not have. -/
def falseTarget : LCCSInstance (ZMod 3) (ZMod 3) := ⟨0, [0], [0], [1]⟩

def trueTarget : LCCSInstance (ZMod 3) (ZMod 3) := ⟨0, [0], [0], [0]⟩

/-- The challenge `1` and zero evaluations, for a transcript whose challenge is
`0` and a subclaim of `1`. -/
def forgedFold : LCCSFoldingProof (ZMod 3) where
  sumcheckProof := [[1, 0]]
  polyInfo := ⟨1, 1, 0⟩
  sigmas1 := [0]
  sigmas2 := [0]
  mergedRs := [0]
  rho := 1

/-- The forged fold is accepted, against both of its checks. -/
theorem forged_fold_accepted :
    ¬ ChallengeSound (zeroOracle (ZMod 3) (ZMod 3) (ZMod 3)) rowShape falseTarget trueTarget () ∧
    ¬ EvaluationSound (zeroOracle (ZMod 3) (ZMod 3) (ZMod 3)) rowShape falseTarget trueTarget
      () := by
  have haccept : verifyFolding (zeroOracle (ZMod 3) (ZMod 3) (ZMod 3)) rowShape falseTarget
      trueTarget forgedFold () = .ok (⟨0, [0], [0], [0]⟩, 1, ()) := by rfl
  have hsub : Sumcheck.verifyAsSubprotocol (zeroOracle (ZMod 3) (ZMod 3) (ZMod 3)) ⟨1, 1, 0⟩
      (claimedSum rowShape falseTarget trueTarget 0) [[1, 0]] () = .ok (⟨[0], 1⟩, ()) := by rfl
  constructor
  · intro hchallenge
    have hrho : (1 : ZMod 3) = 0 := hchallenge forgedFold _ haccept
    exact absurd hrho (by decide)
  · intro heval
    have hval : (1 : ZMod 3) = claimedEvaluation rowShape falseTarget trueTarget 0 [0] [0] [0] :=
      heval forgedFold _ haccept _ _ hsub
    exact absurd hval (by decide)

end Forged

end NexusVm.Nova.Ccs
