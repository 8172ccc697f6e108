import NexusVm.Spartan.Commitments

/-!
# The reduction of dot products

`spartan/src/nizk/bullet.rs` and the logarithmic proof of `nizk/mod.rs`.  The prover folds the
generators and both vectors in halves; the verifier computes what they are folded to from the
challenges alone.
-/

namespace NexusVm.Spartan

open Nova LinearProofs

/-- `BulletReductionProof`. -/
structure BulletReductionProof (C : Type) where
  Lvec : List C
  Rvec : List C

/-- What a prover has between two rounds, where `blind` is `blind_fin`. -/
structure Reduction {F C : Type} (T : Transcript F C) where
  G : List C
  a : List F
  b : List F
  blind : F
  st : T.State

namespace BulletReductionProof

section Reduce

variable {F C : Type} [Field F] [AddCommGroup C] [Module F C] (T : Transcript F C)

/-- `inner_product`. -/
def innerProduct {E : Type} (a b : List F) : Run E F := do
  Run.assert (a.length = b.length)
  .ok (Nova.dotProduct a b)

/-- The challenge of a round. -/
def roundChallenge (L R : C) (st : T.State) : F × T.State :=
  T.challengeScalar (T.appendPoint (T.appendPoint st "L" L) "R" R) "u"

variable {T} [DecidableEq F]

/-- A round of `BulletReductionProof::prove`: the two points and what is left. -/
def proveRound {E : Type} (Q H : C) (blinds : F × F) (s : Reduction T) :
    Run E (C × C × Reduction T) := do
  let n := s.G.length / 2
  let (aL, aR) := (s.a.take n, s.a.drop n)
  let (bL, bR) := (s.b.take n, s.b.drop n)
  let (gL, gR) := (s.G.take n, s.G.drop n)
  let cL ← innerProduct aL bR
  let cR ← innerProduct aR bL
  let L ← msm (gR ++ [Q] ++ [H]) (aL ++ [cL] ++ [blinds.1])
  let R ← msm (gL ++ [Q] ++ [H]) (aR ++ [cR] ++ [blinds.2])
  let u := roundChallenge T L R s.st
  let uInv ← inverseUnwrap u.1
  .ok (L, R,
    { G := fold uInv u.1 gL gR
      a := fold u.1 uInv aL aR
      b := fold uInv u.1 bL bR
      blind := s.blind + blinds.1 * u.1 * u.1 + blinds.2 * uInv * uInv
      st := u.2 })

/-- The rounds of `BulletReductionProof::prove`: a power of two is halved `lg_n` times until it is
one. -/
def proveRounds {E : Type} (Q H : C) :
    ℕ → List (F × F) → Reduction T → Run E (BulletReductionProof C × Reduction T)
  | 0, _, s => .ok (⟨[], []⟩, s)
  | _ + 1, [], _ => .error .panic
  | lgN + 1, blinds :: blindsVec, s => do
      let (L, R, s) ← proveRound Q H blinds s
      let (proof, s) ← proveRounds Q H lgN blindsVec s
      .ok (⟨L :: proof.Lvec, R :: proof.Rvec⟩, s)

/-- `BulletReductionProof::prove`: the proof and what is left after the last round. -/
def prove {E : Type} (Q : C) (G : List C) (H : C) (a b : List F) (blind : F)
    (blindsVec : List (F × F)) (st : T.State) : Run E (BulletReductionProof C × Reduction T) := do
  Run.assert (G.length = 2 ^ Nat.log2 G.length)
  let lgN ← log2 G.length
  Run.assert (a.length = G.length)
  Run.assert (b.length = G.length)
  Run.assert (blindsVec.length = 2 * lgN)
  proveRounds Q H lgN blindsVec ⟨G, a, b, blind, st⟩

/-- The challenges that a verifier reads. -/
def challenges (T : Transcript F C) : List (C × C) → T.State → List F × T.State
  | [], st => ([], st)
  | (L, R) :: points, st =>
      let u := roundChallenge T L R st
      let us := challenges T points u.2
      (u.1 :: us.1, us.2)

/-- An entry of `s` from the entries before it. -/
def pushScalar (lgN : ℕ) (challengesSq s : List F) (i : ℕ) : List F :=
  let lgI := Nat.log2 i
  let k := 2 ^ lgI
  s ++ [s.getD (i - k) 0 * challengesSq.getD (lgN - 1 - lgI) 0]

/-- `BulletReductionProof::verification_scalars`: the squares of the challenges and of their
inverses, the entries `s` and the transcript. -/
def verificationScalars (proof : BulletReductionProof C) (n : ℕ) (st : T.State) :
    Run ProofVerifyError (List F × List F × List F × T.State) := do
  let lgN := proof.Lvec.length
  Run.failIf (32 ≤ lgN) .internalError
  Run.failIf (n ≠ 2 ^ lgN) .internalError
  let us := challenges T (proof.Lvec.zip proof.Rvec) st
  let usInv ← us.1.mapM inverseUnwrap
  let allInv := usInv.foldl (· * ·) 1
  -- the indices of the loop over the squares
  Run.assert (lgN ≤ us.1.length)
  let challengesSq := us.1.map fun u => u * u
  let challengesInvSq := usInv.map fun u => u * u
  let s := (List.range' 1 (n - 1)).foldl (pushScalar lgN challengesSq) [allInv]
  .ok (challengesSq, challengesInvSq, s, us.2)

/-- `BulletReductionProof::verify`: the folded generator, commitment and vector, and the
transcript. -/
def verify (proof : BulletReductionProof C) (n : ℕ) (a : List F) (st : T.State) (Gamma : C)
    (G : List C) : Run ProofVerifyError (C × C × F × T.State) := do
  let (uSq, uInvSq, s, st) ← proof.verificationScalars n st
  let GHat ← msm G s
  let aHat ← innerProduct a s
  let GammaHat ← msm (proof.Lvec ++ proof.Rvec ++ [Gamma]) (uSq ++ uInvSq ++ [1])
  .ok (GHat, GammaHat, aHat, st)

end Reduce

section Verify

variable {F : Type} [Field F]

/-- **The loop over `s`** computes the coefficients of the folded vector one after the other. -/
theorem foldl_pushScalar {us : List F} (hus : ∀ u ∈ us, u ≠ 0) {m : ℕ}
    (hm : m < 2 ^ us.length) :
    (List.range' 1 m).foldl (pushScalar us.length (us.map fun u => u * u))
      [(us.map (·⁻¹)).prod] = (weights us).take (m + 1) := by
  have hentry : ∀ {i : ℕ}, i < 2 ^ us.length →
      (weights us)[i]?.toList = [(weights us).getD i 0] := by
    intro i hi
    rw [← length_weights us] at hi
    simp [hi]
  induction m with
  | zero =>
      rw [← getD_weights_zero, List.take_add_one, List.take_zero, hentry hm]
      rfl
  | succ m ih =>
      -- the entry without the top bit is among those that are computed already
      have hm' : m + 1 < 2 ^ us.length := hm
      have hsub : m + 1 - 2 ^ Nat.log2 (m + 1) < m + 1 :=
        Nat.sub_lt m.succ_pos (Nat.two_pow_pos _)
      have hbefore : ((weights us).take (m + 1)).getD (m + 1 - 2 ^ Nat.log2 (m + 1)) 0 =
          (weights us).getD (m + 1 - 2 ^ Nat.log2 (m + 1)) 0 := by
        simp only [List.getD_eq_getElem?_getD, List.getElem?_take, if_pos hsub]
      have hsquare : ∀ j, (us.map fun u => u * u).getD j 0 = us.getD j 0 * us.getD j 0 := by
        intro j
        have hmap := List.getD_map (l := us) (n := j) (d := 0) (f := fun u : F => u * u)
        rwa [mul_zero] at hmap
      rw [List.range'_1_concat, List.foldl_append, ih (by omega), List.foldl_cons, List.foldl_nil,
        pushScalar, add_comm 1 m, hbefore, hsquare, ← getD_weights hus m.succ_pos hm',
        ← hentry hm', ← List.take_add_one]

variable [DecidableEq F] {C : Type} [AddCommGroup C] [Module F C] {T : Transcript F C}

omit [Field F] [DecidableEq F] [AddCommGroup C] [Module F C] in
theorem length_challenges (points : List (C × C)) (st : T.State) :
    (challenges T points st).1.length = points.length := by
  induction points generalizing st with
  | nil => rfl
  | cons point points ih => exact congrArg (· + 1) (ih _)

variable {E : Type}

theorem inverseUnwrap_guarded (x : F) :
    Run.Guarded (inverseUnwrap x : Run E F) (x ≠ 0) x⁻¹ :=
  Run.Guarded.congr ((Run.Guarded.assert _).bind fun _ => Run.Guarded.ok _) (and_iff_left trivial)
    fun _ => rfl

theorem mapM_inverseUnwrap_guarded (us : List F) :
    Run.Guarded (us.mapM inverseUnwrap : Run E (List F)) (∀ u ∈ us, u ≠ 0) (us.map (·⁻¹)) := by
  induction us with
  | nil => exact (Run.Guarded.ok []).congr (by simp) fun _ => rfl
  | cons u us ih =>
      rw [List.mapM_cons]
      refine Run.Guarded.congr ((inverseUnwrap_guarded u).bind fun _ => ih.bind fun _ =>
        Run.Guarded.ok _) ?_ fun _ => rfl
      rw [List.forall_mem_cons, and_true]

/-- A commitment with the points of the rounds, for these challenges. -/
def foldGamma (us : List F) (proof : BulletReductionProof C) (Gamma : C) : C :=
  Gamma + combine (us.map fun u => u * u) proof.Lvec +
    combine (us.map fun u => u⁻¹ * u⁻¹) proof.Rvec

/-- The challenges of a proof. -/
def read (proof : BulletReductionProof C) (st : T.State) : List F × T.State :=
  challenges T (proof.Lvec.zip proof.Rvec) st

omit [DecidableEq F] in
theorem innerProduct_guarded (a b : List F) :
    Run.Guarded (innerProduct a b : Run E F) (a.length = b.length) (Nova.dotProduct a b) :=
  Run.Guarded.congr ((Run.Guarded.assert _).bind fun _ => Run.Guarded.ok _) (and_iff_left trivial)
    fun _ => rfl

theorem failIf_guarded {c : Prop} [Decidable c] {e : E} (h : ¬ c) :
    Run.Guarded (Run.failIf c e) True () :=
  ⟨fun _ => failIf_eq_ok.mpr h, fun hfalse => absurd trivial hfalse⟩

omit [AddCommGroup C] [Module F C] in
theorem verificationScalars_guarded (proof : BulletReductionProof C) (st : T.State)
    (hrounds : proof.Lvec.length < 32) :
    Run.Guarded (proof.verificationScalars (2 ^ proof.Lvec.length) st)
      (proof.Lvec.length ≤ proof.Rvec.length ∧ ∀ u ∈ (proof.read st).1, u ≠ 0)
      ((proof.read st).1.map (fun u => u * u), (proof.read st).1.map (fun u => u⁻¹ * u⁻¹),
        weights (proof.read st).1, (proof.read st).2) := by
  have hlength : (proof.read st).1.length = min proof.Lvec.length proof.Rvec.length := by
    rw [read, length_challenges, List.length_zip]
  refine Run.Guarded.congr ((failIf_guarded hrounds.not_ge).bind fun _ =>
    (failIf_guarded (not_not_intro rfl)).bind fun _ => (mapM_inverseUnwrap_guarded _).bind fun _ =>
    (Run.Guarded.assert _).bind fun _ => Run.Guarded.ok _) ?_ ?_
  · show True ∧ True ∧ (∀ u ∈ (proof.read st).1, u ≠ 0) ∧
      proof.Lvec.length ≤ (proof.read st).1.length ∧ True ↔ _
    rw [hlength]
    constructor
    · rintro ⟨-, -, hus, hle, -⟩
      exact ⟨by omega, hus⟩
    · rintro ⟨hle, hus⟩
      exact ⟨trivial, trivial, hus, by omega, trivial⟩
  · rintro ⟨hle, hus⟩
    rw [min_eq_left hle] at hlength
    have hpos := Nat.two_pow_pos (proof.read st).1.length
    have hs := foldl_pushScalar hus (m := 2 ^ (proof.read st).1.length - 1) (by omega)
    rw [Nat.sub_add_cancel hpos, List.take_of_length_le (length_weights _).le, hlength] at hs
    rw [← List.prod_eq_foldl, List.map_map, ← hs]
    rfl

/-- **The verifier computes what folding round by round gives**, for every proof: the folded
generator and vector, and the commitment with the points of the rounds. -/
theorem verify_guarded (proof : BulletReductionProof C) (a : List F) (st : T.State) (Gamma : C)
    (G : List C) (hrounds : proof.Lvec.length < 32) :
    Run.Guarded (proof.verify (2 ^ proof.Lvec.length) a st Gamma G)
      (proof.Rvec.length = proof.Lvec.length ∧ G.length = 2 ^ proof.Lvec.length ∧
        a.length = 2 ^ proof.Lvec.length ∧ ∀ u ∈ (proof.read st).1, u ≠ 0)
      ((foldAll (proof.read st).1 G).headD 0, foldGamma (proof.read st).1 proof Gamma,
        (foldAll (proof.read st).1 a).headD 0, (proof.read st).2) := by
  have hlength : (proof.read st).1.length = min proof.Lvec.length proof.Rvec.length := by
    rw [read, length_challenges, List.length_zip]
  refine Run.Guarded.congr ((verificationScalars_guarded proof st hrounds).bind fun _ =>
    (msm_guarded _ _).bind fun _ => (innerProduct_guarded _ _).bind fun _ =>
    (msm_guarded _ _).bind fun _ => Run.Guarded.ok _) ?_ ?_
  · simp only [length_weights, hlength, List.length_append, List.length_map, List.length_singleton]
    constructor
    · rintro ⟨⟨hle, hus⟩, hG, ha, hpoints, -⟩
      rw [min_eq_left hle] at hG ha hpoints
      exact ⟨by omega, hG, ha, hus⟩
    · rintro ⟨heq, hG, ha, hus⟩
      rw [heq, min_self]
      exact ⟨⟨le_refl _, hus⟩, hG, ha, rfl, trivial⟩
  · rintro ⟨heq, hG, ha, -⟩
    rw [heq, min_self] at hlength
    have hL : ((proof.read st).1.map fun u => u * u).length = proof.Lvec.length := by
      rw [List.length_map, hlength]
    have hR : ((proof.read st).1.map fun u => u⁻¹ * u⁻¹).length = proof.Rvec.length := by
      rw [List.length_map, hlength, heq]
    rw [foldAll_eq_weights (hG.trans (by rw [hlength])),
      foldAll_eq_weights (ha.trans (by rw [hlength])),
      combine_append (by rw [List.length_append, List.length_append, hL, hR]), combine_append hL,
      combine_cons, combine_nil, one_smul, add_zero, Nova.dotProduct_comm, foldGamma,
      add_comm _ Gamma, ← add_assoc]
    rfl

/-- For any other size, or for too many rounds, the verifier returns an error. -/
theorem verify_error {proof : BulletReductionProof C} {n : ℕ}
    (h : 32 ≤ proof.Lvec.length ∨ n ≠ 2 ^ proof.Lvec.length) (a : List F) (st : T.State)
    (Gamma : C) (G : List C) :
    proof.verify n a st Gamma G = .error (.error .internalError) := by
  by_cases hrounds : 32 ≤ proof.Lvec.length
  · simp only [verify, verificationScalars, Run.failIf, if_pos hrounds]
    rfl
  · simp only [verify, verificationScalars, Run.failIf, if_neg hrounds,
      if_pos (h.resolve_left hrounds)]
    rfl

/-- **The verifier folds**: it returns exactly for a proof of the right size with invertible
challenges, and what it returns is folded round by round, for the right sizes to one generator and
one scalar; errors are about the size only. -/
theorem verify_eq_foldAll (proof : BulletReductionProof C) (n : ℕ) (a : List F) (st : T.State)
    (Gamma : C) (G : List C) :
    (∀ GHat GammaHat aHat st', proof.verify n a st Gamma G = .ok (GHat, GammaHat, aHat, st') ↔
      (proof.Lvec.length < 32 ∧ n = 2 ^ proof.Lvec.length) ∧
      (proof.Rvec.length = proof.Lvec.length ∧ G.length = n ∧ a.length = n ∧
        ∀ u ∈ (proof.read st).1, u ≠ 0) ∧
      foldAll (proof.read st).1 G = [GHat] ∧ foldAll (proof.read st).1 a = [aHat] ∧
      foldGamma (proof.read st).1 proof Gamma = GammaHat ∧ (proof.read st).2 = st') ∧
    (proof.Rvec.length = proof.Lvec.length → G.length = 2 ^ proof.Lvec.length →
      a.length = 2 ^ proof.Lvec.length → ∃ GHat aHat,
        foldAll (proof.read st).1 G = [GHat] ∧ foldAll (proof.read st).1 a = [aHat]) ∧
    ∀ e, proof.verify n a st Gamma G = .error (.error e) ↔
      ¬ (proof.Lvec.length < 32 ∧ n = 2 ^ proof.Lvec.length) ∧ e = .internalError := by
  have hsingle : proof.Rvec.length = proof.Lvec.length → G.length = 2 ^ proof.Lvec.length →
      a.length = 2 ^ proof.Lvec.length → ∃ GHat aHat,
        foldAll (proof.read st).1 G = [GHat] ∧ foldAll (proof.read st).1 a = [aHat] := by
    intro heq hG ha
    have hlength : (proof.read st).1.length = proof.Lvec.length := by
      rw [read, length_challenges, List.length_zip, heq, min_self]
    exact ⟨_, _, foldAll_eq_weights (hG.trans (by rw [hlength])),
      foldAll_eq_weights (ha.trans (by rw [hlength]))⟩
  rw [and_left_comm, and_iff_right hsingle]
  by_cases hsize : proof.Lvec.length < 32 ∧ n = 2 ^ proof.Lvec.length
  · obtain ⟨hrounds, rfl⟩ := hsize
    have hguard := verify_guarded proof a st Gamma G hrounds
    constructor
    · intro GHat GammaHat aHat st'
      refine hguard.eq_ok_iff.trans (Iff.trans ?_ (and_iff_right ⟨hrounds, rfl⟩).symm)
      apply and_congr_right
      rintro ⟨heq, hG, ha, -⟩
      have hlength : (proof.read st).1.length = proof.Lvec.length := by
        rw [read, length_challenges, List.length_zip, heq, min_self]
      rw [foldAll_eq_weights (hG.trans (by rw [hlength])),
        foldAll_eq_weights (ha.trans (by rw [hlength]))]
      simp only [List.headD_cons, Prod.mk.injEq, List.cons.injEq, and_true]
      constructor
      · rintro ⟨hGHat, hGamma, haHat, hst⟩
        exact ⟨hGHat, haHat, hGamma, hst⟩
      · rintro ⟨hGHat, haHat, hGamma, hst⟩
        exact ⟨hGHat, hGamma, haHat, hst⟩
    · intro e
      have hok : ¬ proof.verify (2 ^ proof.Lvec.length) a st Gamma G = .error (.error e) := by
        intro herror
        by_cases hc : proof.Rvec.length = proof.Lvec.length ∧ G.length = 2 ^ proof.Lvec.length ∧
            a.length = 2 ^ proof.Lvec.length ∧ ∀ u ∈ (proof.read st).1, u ≠ 0
        · rw [hguard.returns hc] at herror
          cases herror
        · rw [hguard.panics hc] at herror
          cases herror
      simp [hok, hrounds]
  · have herror : proof.verify n a st Gamma G = .error (.error .internalError) :=
      verify_error (by omega) a st Gamma G
    rw [herror]
    constructor
    · intro GHat GammaHat aHat st'
      simp [hsize]
    · intro e
      simp [hsize, eq_comm]

end Verify

end BulletReductionProof

/-! ## Honest reductions -/

section Prove

variable {F C : Type} [Field F] [AddCommGroup C] [Module F C] {T : Transcript F C}

/-- All vectors between two rounds have this length. -/
structure Reduction.Fits (s : Reduction T) (n : ℕ) : Prop where
  G : s.G.length = n
  a : s.a.length = n
  b : s.b.length = n

/-- The commitment to what is left between two rounds. -/
def Reduction.commitment (s : Reduction T) (Q H : C) : C :=
  combine s.a s.G + Nova.dotProduct s.a s.b • Q + s.blind • H

namespace BulletReductionProof

/-- **One fold of a commitment**: the points of the round make up for the halves. -/
theorem commitment_fold {aL aR bL bR : List F} {gL gR : List C} {n : ℕ} (haL : aL.length = n)
    (haR : aR.length = n) (hbL : bL.length = n) (hbR : bR.length = n) (hgL : gL.length = n)
    (hgR : gR.length = n) {u : F} (hu : u ≠ 0) (Q H : C) (blind blindL blindR : F)
    (st st' : T.State) :
    (⟨fold u⁻¹ u gL gR, fold u u⁻¹ aL aR, fold u⁻¹ u bL bR,
        blind + blindL * u * u + blindR * u⁻¹ * u⁻¹, st'⟩ : Reduction T).commitment Q H =
      (⟨gL ++ gR, aL ++ aR, bL ++ bR, blind, st⟩ : Reduction T).commitment Q H +
        (u * u) • (combine aL gR + Nova.dotProduct aL bR • Q + blindL • H) +
        (u⁻¹ * u⁻¹) • (combine aR gL + Nova.dotProduct aR bL • Q + blindR • H) := by
  have hpoints := combine_fold (haL.trans haR.symm) (haL.trans hgL.symm) (haL.trans hgR.symm) hu
  have hscalars : Nova.dotProduct (fold u u⁻¹ aL aR) (fold u⁻¹ u bL bR) =
      Nova.dotProduct (aL ++ aR) (bL ++ bR) + (u * u) * Nova.dotProduct aL bR +
        (u⁻¹ * u⁻¹) * Nova.dotProduct aR bL :=
    combine_fold (haL.trans haR.symm) (haL.trans hbL.symm) (haL.trans hbR.symm) hu
  rw [Reduction.commitment, Reduction.commitment, hpoints, hscalars]
  module

variable [DecidableEq F]

/-- What a round leaves. -/
structure Rounded (Q H : C) (lgN : ℕ) (s : Reduction T) (L R : C) (s' : Reduction T) : Prop where
  fits : s'.Fits (2 ^ lgN)
  ne_zero : (roundChallenge T L R s.st).1 ≠ 0
  G : ∀ us, foldAll ((roundChallenge T L R s.st).1 :: us) s.G = foldAll us s'.G
  b : ∀ us, foldAll ((roundChallenge T L R s.st).1 :: us) s.b = foldAll us s'.b
  st : (roundChallenge T L R s.st).2 = s'.st
  commitment : s'.commitment Q H = s.commitment Q H +
    ((roundChallenge T L R s.st).1 * (roundChallenge T L R s.st).1) • L +
    ((roundChallenge T L R s.st).1⁻¹ * (roundChallenge T L R s.st).1⁻¹) • R

theorem rounded_of_proveRound {E : Type} {Q H : C} {blinds : F × F} {lgN : ℕ} {s s' : Reduction T}
    (hs : s.Fits (2 ^ (lgN + 1))) {L R : C}
    (h : (proveRound Q H blinds s : Run E _) = .ok (L, R, s')) : Rounded Q H lgN s L R s' := by
  obtain ⟨G, a, b, blind, st⟩ := s
  obtain ⟨gL, gR, rfl, hgL, hgR⟩ := exists_halves hs.G
  obtain ⟨aL, aR, rfl, haL, haR⟩ := exists_halves hs.a
  obtain ⟨bL, bR, rfl, hbL, hbR⟩ := exists_halves hs.b
  have hhalf : (gL ++ gR).length / 2 = 2 ^ lgN := by
    rw [List.length_append, hgL, hgR]
    omega
  simp only [proveRound, hhalf, List.take_left' hgL, List.drop_left' hgL, List.take_left' haL,
    List.drop_left' haL, List.take_left' hbL, List.drop_left' hbL] at h
  obtain ⟨cL, hcL, h⟩ := bind_eq_ok.mp h
  obtain ⟨cR, hcR, h⟩ := bind_eq_ok.mp h
  obtain ⟨L, hL, h⟩ := bind_eq_ok.mp h
  obtain ⟨R, hR, h⟩ := bind_eq_ok.mp h
  obtain ⟨uInv, hu, h⟩ := bind_eq_ok.mp h
  obtain ⟨-, rfl⟩ := (innerProduct_guarded _ _).eq_ok_iff.mp hcL
  obtain ⟨-, rfl⟩ := (innerProduct_guarded _ _).eq_ok_iff.mp hcR
  obtain ⟨-, rfl⟩ := (msm_guarded _ _).eq_ok_iff.mp hL
  obtain ⟨-, rfl⟩ := (msm_guarded _ _).eq_ok_iff.mp hR
  obtain ⟨hne, rfl⟩ := (inverseUnwrap_guarded _).eq_ok_iff.mp hu
  cases h
  have hG : gL.length = gR.length := hgL.trans hgR.symm
  have ha : aL.length = aR.length := haL.trans haR.symm
  have hb : bL.length = bR.length := hbL.trans hbR.symm
  refine ⟨⟨?_, ?_, ?_⟩, hne, fun us => foldAll_append _ us hG, fun us => foldAll_append _ us hb,
    rfl, ?_⟩
  · exact (length_fold _ _ hG).trans hgL
  · exact (length_fold _ _ ha).trans haL
  · exact (length_fold _ _ hb).trans hbL
  · -- the points of the round are commitments to the halves left over
    have hpoint : ∀ {g : List C} {w : List F}, w.length = g.length → ∀ c r : F,
        combine (w ++ [c] ++ [r]) (g ++ [Q] ++ [H]) = combine w g + c • Q + r • H := by
      intro g w hw c r
      rw [combine_append (by simp [hw]), combine_append hw]
      simp
    have hfold := commitment_fold (T := T) haL haR hbL hbR hgL hgR hne Q H blind blinds.1
      blinds.2 st
    rw [← hpoint (haL.trans hgR.symm), ← hpoint (haR.trans hgL.symm)] at hfold
    exact hfold _

/-- **What all rounds leave**: the verifier reads the same challenges, and the commitment with the
points of the rounds is the commitment to what is left. -/
structure Reduced (Q H : C) (lgN : ℕ) (s : Reduction T) (proof : BulletReductionProof C)
    (s' : Reduction T) : Prop where
  fits : s'.Fits 1
  left : proof.Lvec.length = lgN
  right : proof.Rvec.length = lgN
  ne_zero : ∀ u ∈ (proof.read s.st).1, u ≠ 0
  G : foldAll (proof.read s.st).1 s.G = s'.G
  b : foldAll (proof.read s.st).1 s.b = s'.b
  st : (proof.read s.st).2 = s'.st
  commitment : s'.commitment Q H = foldGamma (proof.read s.st).1 proof (s.commitment Q H)

omit [DecidableEq F] in
theorem foldGamma_cons (u : F) (us : List F) (L R : C) (proof : BulletReductionProof C)
    (Gamma : C) : foldGamma (u :: us) ⟨L :: proof.Lvec, R :: proof.Rvec⟩ Gamma =
      foldGamma us proof (Gamma + (u * u) • L + (u⁻¹ * u⁻¹) • R) := by
  simp only [foldGamma, List.map_cons, combine_cons]
  abel

theorem reduced_of_proveRounds {E : Type} {Q H : C} {lgN : ℕ} {blindsVec : List (F × F)}
    {s s' : Reduction T} (hs : s.Fits (2 ^ lgN)) {proof : BulletReductionProof C}
    (h : (proveRounds Q H lgN blindsVec s : Run E _) = .ok (proof, s')) :
    Reduced Q H lgN s proof s' := by
  induction lgN generalizing s blindsVec proof with
  | zero =>
      cases h
      refine ⟨hs, rfl, rfl, by simp [read, challenges], rfl, rfl, rfl, ?_⟩
      simp [foldGamma, read, challenges]
  | succ lgN ih =>
      cases blindsVec with
      | nil => cases h
      | cons blinds blindsVec =>
          obtain ⟨⟨L, R, s₁⟩, hround, h⟩ := bind_eq_ok.mp h
          obtain ⟨⟨rest, s₂⟩, hrest, h⟩ := bind_eq_ok.mp h
          cases h
          have hrounded := rounded_of_proveRound hs hround
          have hreduced := ih hrounded.fits hrest
          -- the verifier draws the challenge of the round and goes on as for the other rounds
          have hread : read ⟨L :: rest.Lvec, R :: rest.Rvec⟩ s.st =
              ((roundChallenge T L R s.st).1 :: (rest.read s₁.st).1, (rest.read s₁.st).2) := by
            rw [← hrounded.st]
            rfl
          constructor
          · exact hreduced.fits
          · exact congrArg (· + 1) hreduced.left
          · exact congrArg (· + 1) hreduced.right
          · rw [hread, List.forall_mem_cons]
            exact ⟨hrounded.ne_zero, hreduced.ne_zero⟩
          · rw [hread, hrounded.G, hreduced.G]
          · rw [hread, hrounded.b, hreduced.b]
          · rw [hread, hreduced.st]
          · rw [hread, hreduced.commitment, hrounded.commitment, foldGamma_cons]

end BulletReductionProof

end Prove

end NexusVm.Spartan
