import NexusVm.Spartan.Bullet
import NexusVm.Spartan.Crr1csProof
import NexusVm.Bn254

/-!
# Openings of committed polynomials

The logarithmic dot product proof of `spartan/src/nizk/mod.rs`, the commitments and evaluation
proofs of `dense_mlpoly.rs`, and the scheme of `polycommitments/hyrax.rs` over them.  A polynomial
is committed to row by row; an evaluation combines the rows and is a dot product with what is left.
-/

namespace NexusVm.Spartan

open Nova LinearProofs

/-- `DotProductProofGens`. -/
structure DotProductProofGens (C : Type) where
  n : ℕ
  gensN : MultiCommitGens C
  gens1 : MultiCommitGens C
  gensN_n : gensN.n = n
  gens1_n : gens1.n = 1
  h_eq : gens1.h = gensN.h

theorem MultiCommitGens.splitAt_new_n {C : Type} (points : ℕ → C) (n : ℕ) :
    ((new points (n + 1)).splitAt n).1.n = n ∧ ((new points (n + 1)).splitAt n).2.n = 1 := by
  simp [new, splitAt]

/-- `DotProductProofGens::new`. -/
def DotProductProofGens.new {C : Type} (points : ℕ → C) (n : ℕ) : DotProductProofGens C where
  n := n
  gensN := ((MultiCommitGens.new points (n + 1)).splitAt n).1
  gens1 := ((MultiCommitGens.new points (n + 1)).splitAt n).2
  gensN_n := (MultiCommitGens.splitAt_new_n points n).1
  gens1_n := (MultiCommitGens.splitAt_new_n points n).2
  h_eq := rfl

/-- The generator for the dot product. -/
def DotProductProofGens.Q {C : Type} [Zero C] (gens : DotProductProofGens C) : C :=
  gens.gens1.G.getD 0 0

/-- `DotProductProofLog`. -/
structure DotProductProofLog (F C : Type) where
  bulletReductionProof : BulletReductionProof C
  delta : C
  beta : C
  z1 : F
  z2 : F

namespace DotProductProofLog

section Log

variable {F C : Type} (T : Transcript F C)

/-- What both sides absorb before the reduction. -/
def absorbStatement (a : List F) (Cx Cy : C) (st : T.State) : T.State :=
  let st := T.appendProtocolName st "dot product proof (log)"
  let st := T.appendPoint st "Cx" Cx
  let st := T.appendPoint st "Cy" Cy
  T.appendScalars st "a" a

/-- The challenge after the reduction. -/
def lastChallenge (delta beta : C) (st : T.State) : F × T.State :=
  T.challengeScalar (T.appendPoint (T.appendPoint st "delta" delta) "beta" beta) "c"

variable [Field F] [AddCommGroup C] [Module F C] [DecidableEq F]

/-- `DotProductProofLog::prove`; the two blinds `r_delta` and `r_beta` have one label. -/
def prove {E : Type} (gens : DotProductProofGens C) (st tape : T.State) (xVec : List F)
    (blindX : F) (aVec : List F) (y blindY : F) :
    Run E (DotProductProofLog F C × C × C × T.State × T.State) := do
  Run.assert (xVec.length = aVec.length)
  Run.assert (gens.n = xVec.length)
  let (d, tape) := T.challengeScalar tape "d"
  let (rDelta, tape) := T.challengeScalar tape "r_delta"
  let (rBeta, tape) := T.challengeScalar tape "r_delta"
  let lgN ← log2 xVec.length
  let (v1, tape) := T.challengeVector tape "blinds_vec_1" (2 * lgN)
  let (v2, tape) := T.challengeVector tape "blinds_vec_2" (2 * lgN)
  let Cx ← Commitments.batchCommit xVec blindX gens.gensN
  let Cy ← Commitments.commit y blindY gens.gens1
  let (reduction, s) ← BulletReductionProof.prove gens.Q gens.gensN.G gens.gensN.h xVec aVec
    (blindX + blindY) (v1.zip v2) (absorbStatement T aVec Cx Cy st)
  let xHat := s.a.getD 0 0
  let aHat := s.b.getD 0 0
  let delta ← Commitments.commit d rDelta (.single (s.G.getD 0 0) gens.gens1.h)
  let beta ← Commitments.commit d rBeta gens.gens1
  let c := lastChallenge T delta beta s.st
  .ok (⟨reduction, delta, beta, d + c.1 * (xHat * aHat),
    aHat * (c.1 * s.blind + rBeta) + rDelta⟩, Cx, Cy, c.2, tape)

variable [DecidableEq C]

/-- `DotProductProofLog::verify`: the last equation is asserted before it is tested. -/
def verify (proof : DotProductProofLog F C) (n : ℕ) (gens : DotProductProofGens C) (st : T.State)
    (a : List F) (Cx Cy : C) : Run ProofVerifyError T.State := do
  Run.assert (gens.n = n)
  Run.assert (a.length = n)
  let (gHat, GammaHat, aHat, st) ← proof.bulletReductionProof.verify n a
    (absorbStatement T a Cx Cy st) (Cx + Cy) gens.gensN.G
  let c := lastChallenge T proof.delta proof.beta st
  let lhs := aHat • (c.1 • GammaHat + proof.beta) + proof.delta
  let rhs := proof.z1 • (gHat + aHat • gens.Q) + proof.z2 • gens.gens1.h
  Run.assert (lhs = rhs)
  Run.failIf (lhs ≠ rhs) .internalError
  .ok c.2

variable {T}

/-- The challenges of the reduction. -/
def folds (proof : DotProductProofLog F C) (a : List F) (Cx Cy : C) (st : T.State) :
    List F × T.State :=
  proof.bulletReductionProof.read (absorbStatement T a Cx Cy st)

/-- The last challenge. -/
def challenge (proof : DotProductProofLog F C) (a : List F) (Cx Cy : C) (st : T.State) :
    F × T.State :=
  lastChallenge T proof.delta proof.beta (proof.folds a Cx Cy st).2

/-- What the public vector is folded to. -/
def aHat (proof : DotProductProofLog F C) (a : List F) (Cx Cy : C) (st : T.State) : F :=
  (foldAll (proof.folds a Cx Cy st).1 a).headD 0

omit [DecidableEq F] [DecidableEq C] in
/-- The last equation for a statement that is off by `e` in the dot product. -/
theorem last_equation_iff (g Q h : C) (x b blind d rDelta rBeta c e : F) :
    b • (c • (x • g + (x * b) • Q + blind • h + e • Q) + (d • Q + rBeta • h)) +
        (d • g + rDelta • h) =
      (d + c * (x * b)) • (g + b • Q) + (b * (c * blind + rBeta) + rDelta) • h ↔
    c = 0 ∨ b = 0 ∨ e = 0 ∨ Q = 0 := by
  have hdiff : b • (c • (x • g + (x * b) • Q + blind • h + e • Q) + (d • Q + rBeta • h)) +
      (d • g + rDelta • h) = (d + c * (x * b)) • (g + b • Q) +
        (b * (c * blind + rBeta) + rDelta) • h + (c * b * e) • Q := by module
  rw [hdiff, add_eq_left, smul_eq_zero, mul_eq_zero, mul_eq_zero, or_assoc, or_assoc]

variable {gens : DotProductProofGens C}

theorem verify_guarded_of_reduced {st : T.State} {xVec aVec : List F}
    (hlen : xVec.length = aVec.length) (hn : gens.n = xVec.length) (hsize : xVec.length < 2 ^ 32)
    {lgN : ℕ} (hpow : gens.gensN.G.length = 2 ^ lgN) {blindX y blindY : F} {Cx Cy : C}
    (hCx : combine (xVec ++ [blindX]) gens.gensN.points = Cx)
    (hCy : combine [y, blindY] gens.gens1.points = Cy) {reduction : BulletReductionProof C}
    {s : Reduction T}
    (hreduced : BulletReductionProof.Reduced gens.Q gens.gensN.h lgN ⟨gens.gensN.G, xVec, aVec, blindX + blindY, absorbStatement T aVec Cx Cy st⟩ reduction s)
    {d rDelta rBeta : F} {delta beta : C}
    (hdelta : combine [d, rDelta] (MultiCommitGens.single (s.G.getD 0 0) gens.gens1.h).points = delta)
    (hbeta : combine [d, rBeta] gens.gens1.points = beta) {c : F}
    (hc : (lastChallenge T delta beta s.st).1 = c) :
    Run.Guarded (verify T ⟨reduction, delta, beta, d + c * (s.a.getD 0 0 * s.b.getD 0 0),
        s.b.getD 0 0 * (c * s.blind + rBeta) + rDelta⟩ xVec.length gens st aVec Cx Cy)
      (c = 0 ∨ s.b.getD 0 0 = 0 ∨ y = Nova.dotProduct xVec aVec ∨ gens.Q = 0)
      (lastChallenge T delta beta s.st).2 := by
  obtain ⟨g, hg⟩ := List.length_eq_one_iff.mp hreduced.fits.G
  obtain ⟨x, hx⟩ := List.length_eq_one_iff.mp hreduced.fits.a
  obtain ⟨b, hb⟩ := List.length_eq_one_iff.mp hreduced.fits.b
  have hG : gens.gensN.G.length = xVec.length := by rw [gens.gensN.length_eq, gens.gensN_n, hn]
  have hpow' : xVec.length = 2 ^ reduction.Lvec.length := by rw [← hG, hreduced.left, hpow]
  have hrounds : reduction.Lvec.length < 32 := by
    rw [hpow'] at hsize
    exact (Nat.pow_lt_pow_iff_right (by decide)).mp hsize
  have hguard := BulletReductionProof.verify_guarded reduction aVec
    (absorbStatement T aVec Cx Cy st) (Cx + Cy) gens.gensN.G hrounds
  rw [← hpow'] at hguard
  -- the statement of the verifier differs from that of the prover in the dot product
  have hGamma : BulletReductionProof.foldGamma (reduction.read (absorbStatement T aVec Cx Cy st)).1
      reduction (Cx + Cy) = x • g + (x * b) • gens.Q + s.blind • gens.gens1.h +
        (y - Nova.dotProduct xVec aVec) • gens.Q := by
    have hleft : s.commitment gens.Q gens.gensN.h =
        x • g + (x * b) • gens.Q + s.blind • gens.gens1.h := by
      simp [Reduction.commitment, hg, hx, hb, Nova.dotProduct, gens.h_eq]
    rw [← hleft, hreduced.commitment, ← hCx, ← hCy, MultiCommitGens.points,
      combine_append hG.symm, combine_points gens.gens1_n, gens.h_eq]
    simp only [Reduction.commitment, combine_cons, combine_nil, BulletReductionProof.foldGamma,
      DotProductProofGens.Q]
    module
  have hbeta' : beta = d • gens.Q + rBeta • gens.gens1.h := by
    rw [← hbeta, combine_points gens.gens1_n]
    rfl
  have hdelta' : delta = d • g + rDelta • gens.gens1.h := by
    rw [← hdelta, combine_points rfl, hg]
    rfl
  -- the equation is asserted before it is tested, so the test never fails
  refine Run.Guarded.congr ((Run.Guarded.assert _).bind fun _ =>
    (Run.Guarded.assert _).bind fun _ => hguard.bind fun _ => (Run.Guarded.assert _).bind fun heq =>
    (BulletReductionProof.failIf_guarded (not_not_intro heq)).bind fun _ => Run.Guarded.ok _) ?_ ?_
  · have hlast := last_equation_iff g gens.Q gens.gens1.h x b s.blind d rDelta rBeta c
      (y - Nova.dotProduct xVec aVec)
    rw [← hbeta', ← hdelta', sub_eq_zero] at hlast
    simp only [hGamma, hreduced.G, hreduced.b, hreduced.st, hg, hx, hb, hc, List.headD_cons,
      List.getD_cons_zero, hlast]
    constructor
    · rintro ⟨-, -, -, hcond, -⟩
      exact hcond
    · intro hcond
      exact ⟨hn, hlen.symm, ⟨hreduced.right.trans hreduced.left.symm, hG, hlen.symm,
        hreduced.ne_zero⟩, hcond, trivial, trivial⟩
  · intro _
    rw [hreduced.st]

/-- **An honest proof** is accepted for the dot product only, unless the last challenge, the folded
vector or the generator is zero; the verifier panics otherwise. -/
theorem verify_guarded_of_prove {E : Type} {st tape : T.State} {xVec aVec : List F}
    {blindX y blindY : F} {proof : DotProductProofLog F C} {Cx Cy : C} {st' tape' : T.State}
    (h : (prove T gens st tape xVec blindX aVec y blindY : Run E _) = .ok (proof, Cx, Cy, st', tape'))
    (hsize : xVec.length < 2 ^ 32) :
    combine (xVec ++ [blindX]) gens.gensN.points = Cx ∧
      combine [y, blindY] gens.gens1.points = Cy ∧
    Run.Guarded (proof.verify T xVec.length gens st aVec Cx Cy)
      ((proof.challenge aVec Cx Cy st).1 = 0 ∨ proof.aHat aVec Cx Cy st = 0 ∨
        y = Nova.dotProduct xVec aVec ∨ gens.Q = 0) st' := by
  obtain ⟨_, hlen, h⟩ := bind_eq_ok.mp h
  obtain ⟨_, hn, h⟩ := bind_eq_ok.mp h
  obtain ⟨_, -, h⟩ := bind_eq_ok.mp h
  obtain ⟨Cx, hCx, h⟩ := bind_eq_ok.mp h
  obtain ⟨Cy, hCy, h⟩ := bind_eq_ok.mp h
  obtain ⟨⟨reduction, s⟩, hreduce, h⟩ := bind_eq_ok.mp h
  obtain ⟨delta, hdelta, h⟩ := bind_eq_ok.mp h
  obtain ⟨beta, hbeta, h⟩ := bind_eq_ok.mp h
  cases h
  obtain ⟨_, hpow, hreduce⟩ := bind_eq_ok.mp hreduce
  obtain ⟨lgN, hlog, hreduce⟩ := bind_eq_ok.mp hreduce
  obtain ⟨_, ha, hreduce⟩ := bind_eq_ok.mp hreduce
  obtain ⟨_, hb, hreduce⟩ := bind_eq_ok.mp hreduce
  obtain ⟨_, -, hreduce⟩ := bind_eq_ok.mp hreduce
  rw [assert_eq_ok] at hlen hn hpow ha hb
  obtain ⟨-, hlog⟩ := log2_eq_ok.mp hlog
  rw [hpow, clog_two_pow] at hlog
  rw [hlog] at hpow
  have hreduced := BulletReductionProof.reduced_of_proveRounds ⟨hpow, ha.trans hpow, hb.trans hpow⟩
    hreduce
  obtain ⟨-, hCx⟩ := (batchCommit_guarded _ _ _).eq_ok_iff.mp hCx
  obtain ⟨-, hCy⟩ := (commit_guarded _ _ _).eq_ok_iff.mp hCy
  obtain ⟨-, hdelta⟩ := (commit_guarded _ _ _).eq_ok_iff.mp hdelta
  obtain ⟨-, hbeta⟩ := (commit_guarded _ _ _).eq_ok_iff.mp hbeta
  refine ⟨hCx, hCy, ?_⟩
  have hguard := verify_guarded_of_reduced hlen hn hsize hpow hCx hCy hreduced hdelta hbeta rfl
  obtain ⟨b, hb'⟩ := List.length_eq_one_iff.mp hreduced.fits.b
  refine hguard.congr ?_ fun _ => rfl
  simp only [challenge, aHat, folds, hreduced.st, hreduced.b, hb', List.headD_cons,
    List.getD_cons_zero]

end Log

end DotProductProofLog

/-! ## Evaluation proofs and rows -/

section Polynomials

variable {F C : Type} [Field F] [AddCommGroup C] [Module F C] (T : Transcript F C)

/-- `EqPolynomial::compute_factored_lens`. -/
def computeFactoredLens (ell : ℕ) : ℕ × ℕ := (ell / 2, ell - ell / 2)

/-- `EqPolynomial::compute_factored_evals`. -/
def computeFactoredEvals (r : List F) : List F × List F :=
  let leftNumVars := (computeFactoredLens r.length).1
  (eqEvals (r.take leftNumVars), eqEvals (r.drop leftNumVars))

/-- `PolyCommitmentGens::new`. -/
def polyCommitmentGens (points : ℕ → C) (numVars : ℕ) : DotProductProofGens C :=
  .new points (2 ^ (computeFactoredLens numVars).2)

/-- A row of a table. -/
def row (Z : List F) (rSize i : ℕ) : List F := (Z.drop (rSize * i)).take rSize

/-- `DensePolynomial::commit_inner`: a commitment for each blind. -/
def commitInner {E : Type} (Z blinds : List F) (gens : MultiCommitGens C) : Run E (List C) := do
  let lSize := blinds.length
  -- the division
  Run.assert (lSize ≠ 0)
  let rSize := Z.length / lSize
  Run.assert (lSize * rSize = Z.length)
  (List.range lSize).mapM fun i => Commitments.batchCommit (row Z rSize i) (blinds.getD i 0) gens

/-- `DensePolynomial::commit`: the commitment, the blinds and the tape. -/
def commitDense {E : Type} (poly : DensePolynomial F) (gens : DotProductProofGens C)
    (randomTape : Option T.State) : Run E (List C × List F × Option T.State) := do
  let lens := computeFactoredLens poly.numVars
  Run.assert (poly.Z.length = 2 ^ poly.numVars)
  Run.assert (2 ^ lens.1 * 2 ^ lens.2 = poly.Z.length)
  let (blinds, tape) := match randomTape with
    | some t =>
        let (blinds, t) := T.challengeVector t "poly_blinds" (2 ^ lens.1)
        (blinds, some t)
    | none => (List.replicate (2 ^ lens.1) 0, none)
  let comm ← commitInner poly.Z blinds gens.gensN
  .ok (comm, blinds, tape)

/-- `DensePolynomial::bound`. -/
def bound {E : Type} (poly : DensePolynomial F) (L : List F) : Run E (List F) := do
  let lens := computeFactoredLens poly.numVars
  -- the indices of both loops
  Run.assert (2 ^ lens.1 ≤ L.length ∧ 2 ^ lens.1 * 2 ^ lens.2 ≤ poly.Z.length)
  .ok ((List.range (2 ^ lens.2)).map fun i => ((List.range (2 ^ lens.1)).map fun j =>
    L.getD j 0 * poly.Z.getD (j * 2 ^ lens.2 + i) 0).sum)

/-- `PolyEvalProof`. -/
structure PolyEvalProof (F C : Type) where
  proof : DotProductProofLog F C

variable [DecidableEq F]

/-- `PolyEvalProof::prove`: the proof, the commitment to the value, the transcript and the tape. -/
def PolyEvalProof.prove {E : Type} (poly : DensePolynomial F) (blindsOpt : Option (List F))
    (r : List F) (Zr : F) (blindZrOpt : Option F) (gens : DotProductProofGens C)
    (st tape : T.State) : Run E (PolyEvalProof F C × C × T.State × T.State) := do
  let st := T.appendProtocolName st "polynomial evaluation proof"
  Run.assert (poly.numVars = r.length)
  let lens := computeFactoredLens r.length
  let blinds := blindsOpt.getD (List.replicate (2 ^ lens.1) 0)
  Run.assert (blinds.length = 2 ^ lens.1)
  let LR := computeFactoredEvals r
  Run.assert (LR.1.length = 2 ^ lens.1)
  Run.assert (LR.2.length = 2 ^ lens.2)
  let LZ ← bound poly LR.1
  let (proof, _, CZr, st, tape) ← DotProductProofLog.prove T gens st tape LZ
    (Nova.dotProduct blinds LR.1) LR.2 Zr (blindZrOpt.getD 0)
  .ok (⟨proof⟩, CZr, st, tape)

variable [DecidableEq C]

/-- `PolyEvalProof::verify`. -/
def PolyEvalProof.verify (proof : PolyEvalProof F C) (gens : DotProductProofGens C) (st : T.State)
    (r : List F) (CZr : C) (comm : List C) : Run ProofVerifyError T.State := do
  let st := T.appendProtocolName st "polynomial evaluation proof"
  let LR := computeFactoredEvals r
  let CLZ ← msm comm LR.1
  proof.proof.verify T LR.2.length gens st LR.2 CLZ CZr

/-- `PolyEvalProof::verify_plain`. -/
def PolyEvalProof.verifyPlain (proof : PolyEvalProof F C) (gens : DotProductProofGens C)
    (st : T.State) (r : List F) (Zr : F) (comm : List C) : Run ProofVerifyError T.State := do
  let CZr ← Commitments.commit Zr 0 gens.gens1
  proof.verify T gens st r CZr comm

end Polynomials

section Rows

variable {F C : Type} [Field F] [AddCommGroup C] [Module F C]

/-- `L_size`, the rows for a point. -/
abbrev lSize (r : List F) : ℕ := 2 ^ (computeFactoredLens r.length).1

/-- `R_size`, the columns for a point. -/
abbrev rSize (r : List F) : ℕ := 2 ^ (computeFactoredLens r.length).2

/-- Binding the first variables combines the rows. -/
theorem getD_foldl_boundTop {rs Z : List F} {m i : ℕ} (hZ : Z.length = 2 ^ (rs.length + m))
    (hi : i < 2 ^ m) : (rs.foldl boundTop Z).getD i 0 =
      ∑ j ∈ Finset.range (2 ^ rs.length), (eqEvals rs).getD j 0 * Z.getD (j * 2 ^ m + i) 0 := by
  induction rs generalizing Z with
  | nil => simp [eqEvals]
  | cons r rs ih =>
      have hZ' : Z.length = 2 ^ (rs.length + m + 1) := by
        rw [hZ, List.length_cons]
        congr 1
        omega
      have hlen : ((eqEvals rs).map ((1 - r) * ·)).length = 2 ^ rs.length := by
        rw [List.length_map, length_eqEvals]
      rw [List.foldl_cons, ih (length_boundTop hZ' r), List.length_cons, pow_succ, mul_two,
        Finset.sum_range_add, ← Finset.sum_add_distrib]
      apply Finset.sum_congr rfl
      intro j hj
      rw [Finset.mem_range] at hj
      have hcell : j * 2 ^ m + i < 2 ^ (rs.length + m) := by
        rw [pow_add]
        calc j * 2 ^ m + i < (j + 1) * 2 ^ m := by rw [add_mul, one_mul]; omega
          _ ≤ 2 ^ rs.length * 2 ^ m := Nat.mul_le_mul_right _ hj
      have hidx : (2 ^ rs.length + j) * 2 ^ m + i = 2 ^ (rs.length + m) + (j * 2 ^ m + i) := by
        rw [pow_add]
        ring
      rw [getD_boundTop hZ' hcell, eqEvals_cons, List.getD_append _ _ _ _ (hlen ▸ hj),
        List.getD_append_right _ _ _ _ (by omega), hlen, Nat.add_sub_cancel_left,
        Nova.getD_map_mul, Nova.getD_map_mul, hidx]
      ring

theorem valueAt_append {rs rs' Z : List F} (hZ : Z.length = 2 ^ (rs.length + rs'.length)) :
    (rs.foldl boundTop Z).length = 2 ^ rs'.length ∧
      valueAt Z (rs ++ rs') = valueAt (rs.foldl boundTop Z) rs' := by
  induction rs generalizing Z with
  | nil => exact ⟨by simpa using hZ, rfl⟩
  | cons r rs ih =>
      have hZ' : Z.length = 2 ^ (rs.length + rs'.length + 1) := by
        rw [hZ, List.length_cons]
        congr 1
        omega
      obtain ⟨hlen, hvalue⟩ := ih (length_boundTop hZ' r)
      refine ⟨hlen, ?_⟩
      rw [List.cons_append, valueAt_cons r (by rw [hZ', List.length_append]), hvalue]
      rfl

/-- What `bound` returns. -/
def boundTable (Z r : List F) : List F :=
  (r.take (computeFactoredLens r.length).1).foldl boundTop Z

variable {r Z : List F}

omit [Field F] in
theorem length_take_drop (r : List F) :
    (r.take (computeFactoredLens r.length).1).length = (computeFactoredLens r.length).1 ∧
      (r.drop (computeFactoredLens r.length).1).length = (computeFactoredLens r.length).2 ∧
      (computeFactoredLens r.length).1 + (computeFactoredLens r.length).2 = r.length := by
  have hleft : (computeFactoredLens r.length).1 = r.length / 2 := rfl
  have hright : (computeFactoredLens r.length).2 = r.length - r.length / 2 := rfl
  rw [List.length_take, List.length_drop, hleft, hright]
  omega

theorem length_computeFactoredEvals (r : List F) :
    (computeFactoredEvals r).1.length = lSize r ∧
      (computeFactoredEvals r).2.length = rSize r := by
  obtain ⟨hleft, hright, -⟩ := length_take_drop r
  simp only [computeFactoredEvals, length_eqEvals, hleft, hright, and_self]

/-- **The table bound to the first half of a point** has the value at the point for its dot product
with the other half. -/
theorem dotProduct_boundTable (hZ : Z.length = 2 ^ r.length) :
    (boundTable Z r).length = rSize r ∧
      Nova.dotProduct (boundTable Z r) (computeFactoredEvals r).2 = valueAt Z r := by
  obtain ⟨hleft, hright, hsum⟩ := length_take_drop r
  have hparts : Z.length = 2 ^ ((r.take (computeFactoredLens r.length).1).length +
      (r.drop (computeFactoredLens r.length).1).length) := by rw [hleft, hright, hsum, hZ]
  obtain ⟨hlen, hvalue⟩ := valueAt_append hparts
  rw [List.take_append_drop] at hvalue
  rw [hright] at hlen
  exact ⟨hlen, hvalue.symm⟩

theorem getD_boundTable (hZ : Z.length = 2 ^ r.length) {i : ℕ}
    (hi : i < rSize r) : (boundTable Z r).getD i 0 =
      ∑ j ∈ Finset.range (lSize r),
        (computeFactoredEvals r).1.getD j 0 *
          Z.getD (j * rSize r + i) 0 := by
  obtain ⟨hleft, -, hsum⟩ := length_take_drop r
  have hparts : Z.length = 2 ^ ((r.take (computeFactoredLens r.length).1).length +
      (computeFactoredLens r.length).2) := by rw [hleft, hsum, hZ]
  have hentry := getD_foldl_boundTop hparts hi
  rwa [hleft] at hentry

theorem bound_eq {E : Type} (hZ : Z.length = 2 ^ r.length) :
    (bound ⟨r.length, Z⟩ (computeFactoredEvals r).1 : Run E _) = .ok (boundTable Z r) := by
  obtain ⟨-, -, hsum⟩ := length_take_drop r
  refine bind_eq_ok.mpr ⟨(), assert_eq_ok.mpr ⟨(length_computeFactoredEvals r).1.ge, ?_⟩, ?_⟩
  · rw [hZ, ← pow_add, hsum]
  · rw [Except.ok.injEq]
    apply ext_getD
    · rw [List.length_map, List.length_range, (dotProduct_boundTable hZ).1]
    · intro i hi
      rw [List.length_map, List.length_range] at hi
      rw [getD_map_range _ hi, getD_boundTable hZ hi, sum_map_range]

/-- A combination as a sum over the indices. -/
theorem combine_eq_sum (a : List F) (g : List C) :
    combine a g = ∑ i ∈ Finset.range a.length, a.getD i 0 • g.getD i 0 := by
  induction a generalizing g with
  | nil => rfl
  | cons x a ih =>
      rw [List.length_cons, Finset.sum_range_succ']
      cases g with
      | nil => simp [combine]
      | cons m g =>
          rw [combine_cons, ih, add_comm]
          rfl

omit [Field F] in
theorem length_row {n l j : ℕ} (hZ : Z.length = n * l) (hj : j < l) : (row Z n j).length = n := by
  have hle : n * (j + 1) ≤ Z.length := hZ.symm ▸ Nat.mul_le_mul_left _ hj
  rw [row, List.length_take, List.length_drop]
  rw [mul_add, mul_one] at hle
  omega

variable {gens : MultiCommitGens C}

/-- **The combination of the commitments to the rows** is a commitment to the combined rows. -/
theorem combine_rows {L blinds : List F} (hZ : Z.length = 2 ^ r.length)
    (hL : L = (computeFactoredEvals r).1) (hblinds : blinds.length = L.length)
    (hn : gens.n = rSize r) :
    combine L ((List.range L.length).map fun i =>
        combine (row Z (rSize r) i ++ [blinds.getD i 0])
          gens.points) =
      combine (boundTable Z r ++ [Nova.dotProduct blinds L]) gens.points := by
  obtain ⟨-, -, hsum⟩ := length_take_drop r
  have hlenL : L.length = lSize r := by
    rw [hL, (length_computeFactoredEvals r).1]
  have hbound := (dotProduct_boundTable hZ).1
  have hG := gens.length_eq.trans hn
  have hcells : Z.length = rSize r * L.length := by
    rw [hlenL, ← pow_add, add_comm, hsum, hZ]
  -- every row has one entry for each generator
  have hrow : ∀ j < L.length, (row Z (rSize r) j).length = gens.G.length := fun j hj =>
    (length_row hcells hj).trans hG.symm
  have hcommit : ∀ j < L.length, combine (row Z (rSize r) j ++
      [blinds.getD j 0]) gens.points =
        (∑ i ∈ Finset.range (rSize r),
          Z.getD (j * rSize r + i) 0 • gens.G.getD i 0) +
          blinds.getD j 0 • gens.h := by
    intro j hj
    rw [MultiCommitGens.points, combine_append (hrow j hj), combine_eq_sum, hrow j hj, hG,
      combine_cons, combine_nil, add_zero]
    congr 1
    apply Finset.sum_congr rfl
    intro i hi
    congr 1
    rw [row, List.getD_eq_getElem?_getD, List.getElem?_take_of_lt (Finset.mem_range.mp hi),
      List.getElem?_drop, mul_comm, ← List.getD_eq_getElem?_getD]
  calc combine L ((List.range L.length).map fun i =>
        combine (row Z (rSize r) i ++ [blinds.getD i 0]) gens.points)
      = ∑ j ∈ Finset.range L.length, L.getD j 0 •
          ((∑ i ∈ Finset.range (rSize r),
            Z.getD (j * rSize r + i) 0 • gens.G.getD i 0) +
            blinds.getD j 0 • gens.h) := by
        rw [combine_eq_sum]
        apply Finset.sum_congr rfl
        intro j hj
        rw [Finset.mem_range] at hj
        rw [← hcommit j hj]
        simp [List.getD_eq_getElem?_getD, hj]
    _ = (∑ i ∈ Finset.range (rSize r),
          (boundTable Z r).getD i 0 • gens.G.getD i 0) + Nova.dotProduct blinds L • gens.h := by
        simp only [smul_add, Finset.sum_add_distrib, Finset.smul_sum, smul_smul]
        rw [Finset.sum_comm, ← Finset.sum_smul]
        congr 1
        · apply Finset.sum_congr rfl
          intro i hi
          rw [← Finset.sum_smul, getD_boundTable hZ (Finset.mem_range.mp hi), hlenL, hL]
        · rw [dotProduct_eq_sum, hblinds]
          simp only [mul_comm]
    _ = combine (boundTable Z r ++ [Nova.dotProduct blinds L]) gens.points := by
        rw [MultiCommitGens.points, combine_append (hbound.trans hG.symm), combine_eq_sum, hbound,
          combine_cons, combine_nil, add_zero]

/-- What `commit_inner` returns for a square table. -/
theorem commitInner_eq_ok {E : Type} {blinds : List F} {comm : List C}
    (hZ : Z.length = 2 ^ r.length) (hblinds : blinds.length = lSize r)
    (h : (commitInner Z blinds gens : Run E _) = .ok comm) :
    gens.n = rSize r ∧
      comm = (List.range blinds.length).map fun i =>
        combine (row Z (rSize r) i ++ [blinds.getD i 0])
          gens.points := by
  obtain ⟨-, -, hsum⟩ := length_take_drop r
  obtain ⟨_, -, h⟩ := bind_eq_ok.mp h
  obtain ⟨_, -, h⟩ := bind_eq_ok.mp h
  have hcells : Z.length = rSize r * blinds.length := by
    rw [hblinds, ← pow_add, add_comm, hsum, hZ]
  have hpos : 0 < blinds.length := by
    rw [hblinds]
    exact Nat.two_pow_pos _
  rw [hcells, Nat.mul_div_cancel _ hpos] at h
  have hrow : ∀ i ∈ List.range blinds.length, ∀ c,
      (Commitments.batchCommit (row Z (rSize r) i) (blinds.getD i 0) gens :
        Run E C) = .ok c ↔ gens.n = rSize r ∧
          combine (row Z (rSize r) i ++ [blinds.getD i 0])
            gens.points = c := by
    intro i hi c
    rw [List.mem_range] at hi
    rw [(batchCommit_guarded _ _ _).eq_ok_iff, length_row hcells hi]
  obtain ⟨hn, hcomm⟩ := (mapM_eq_ok hrow).mp h
  refine ⟨hn ?_, hcomm.symm⟩
  rw [ne_eq, List.range_eq_nil]
  exact hpos.ne'

/-! ## Honest openings, the scheme and two coefficients -/

variable [DecidableEq F] {T : Transcript F C}

namespace PolyEvalProof

/-- The statement of the dot product proof in an evaluation proof. -/
def absorbed (st : T.State) : T.State :=
  T.appendProtocolName st "polynomial evaluation proof"

/-- The last challenge. -/
def challenge (proof : PolyEvalProof F C) (r : List F) (CZr : C) (comm : List C)
    (st : T.State) : F × T.State :=
  proof.proof.challenge (computeFactoredEvals r).2 (combine (computeFactoredEvals r).1 comm) CZr
    (absorbed st)

/-- What the evaluations for the second half of the point are folded to. -/
def rHat (proof : PolyEvalProof F C) (r : List F) (CZr : C) (comm : List C) (st : T.State) : F :=
  proof.proof.aHat (computeFactoredEvals r).2 (combine (computeFactoredEvals r).1 comm) CZr
    (absorbed st)

variable [DecidableEq C]

/-- **An honest evaluation proof** is accepted for the value at the point only, unless the last
challenge, the folded vector or the generator is zero; the verifier panics otherwise. -/
theorem verify_guarded_of_prove {E : Type} {poly : DensePolynomial F} {blindsOpt : Option (List F)}
    {r : List F} {Zr : F} {blindZrOpt : Option F} {gens : DotProductProofGens C}
    {st tape st' tape' : T.State} {proof : PolyEvalProof F C} {CZr : C} {comm : List C}
    (hZ : poly.Z.length = 2 ^ poly.numVars) (hsize : r.length ≤ 62)
    (hcomm : (commitInner poly.Z (blindsOpt.getD
      (List.replicate (lSize r) 0)) gens.gensN : Run E _) = .ok comm)
    (h : (prove T poly blindsOpt r Zr blindZrOpt gens st tape : Run E _) =
      .ok (proof, CZr, st', tape')) :
    combine [Zr, blindZrOpt.getD 0] gens.gens1.points = CZr ∧
    Run.Guarded (proof.verify T gens st r CZr comm)
      ((proof.challenge r CZr comm st).1 = 0 ∨ proof.rHat r CZr comm st = 0 ∨
        Zr = valueAt poly.Z r ∨ gens.Q = 0) st' := by
  obtain ⟨_, hvars, h⟩ := bind_eq_ok.mp h
  obtain ⟨_, hblinds, h⟩ := bind_eq_ok.mp h
  obtain ⟨_, -, h⟩ := bind_eq_ok.mp h
  obtain ⟨_, -, h⟩ := bind_eq_ok.mp h
  obtain ⟨LZ, hLZ, h⟩ := bind_eq_ok.mp h
  obtain ⟨⟨proof, CLZ, CZr, st', tape'⟩, hprove, h⟩ := bind_eq_ok.mp h
  cases h
  rw [assert_eq_ok] at hvars hblinds
  obtain ⟨numVars, Z⟩ := poly
  obtain rfl : numVars = r.length := hvars
  rw [bound_eq hZ, Except.ok.injEq] at hLZ
  subst hLZ
  obtain ⟨hbound, hvalue⟩ := dotProduct_boundTable hZ
  obtain ⟨hL, hR⟩ := length_computeFactoredEvals r
  obtain ⟨hn, hrows⟩ := commitInner_eq_ok hZ hblinds hcomm
  have hcolumns : (boundTable Z r).length < 2 ^ 32 := by
    have hright : (computeFactoredLens r.length).2 < 32 := by
      show r.length - r.length / 2 < 32
      omega
    rw [hbound]
    exact Nat.pow_lt_pow_right one_lt_two hright
  obtain ⟨hCLZ, hCZr, hguard⟩ := DotProductProofLog.verify_guarded_of_prove hprove hcolumns
  -- the verifier combines the commitments to the rows
  have hcombined : combine (computeFactoredEvals r).1 comm = CLZ := by
    have hrange := hblinds.trans hL.symm
    rw [← hCLZ, hrows, hrange]
    exact combine_rows hZ rfl hrange hn
  have hlen : comm.length = (computeFactoredEvals r).1.length := by
    rw [hrows, List.length_map, List.length_range, hblinds, hL]
  rw [hbound, ← hR, hvalue, ← hcombined] at hguard
  refine ⟨hCZr, ((msm_guarded _ _).bind fun _ => hguard).congr ?_ fun _ => rfl⟩
  rw [and_iff_right hlen]
  rfl

end PolyEvalProof

end Rows

section Scheme

variable {F C : Type}

/-- `HyraxSRS`. -/
structure HyraxSRS where
  maxNumVars : ℕ

/-- `HyraxKey`. -/
structure HyraxKey (C : Type) where
  supportedNumVars : ℕ
  gens : DotProductProofGens C

/-- A transcript of points that absorbs `HyraxCommitment`s, point by point. -/
def hyraxTranscript (T : Transcript F C) : Transcript F (List C) where
  State := T.State
  appendMessage st label
    | .bytes s => T.appendMessage st label (.bytes s)
    | .u64 n => T.appendMessage st label (.u64 n)
    | .scalar x => T.appendMessage st label (.scalar x)
    | .point comm =>
        let st := T.appendMessage st label (.bytes "hyrax_commitment_begin")
        let st := comm.foldl (fun st c => T.appendPoint st "hyrax_commitment_share" c) st
        T.appendMessage st label (.bytes "hyrax_commitment_end")
  challengeScalar := T.challengeScalar

variable [Field F] [AddCommGroup C] [Module F C] [DecidableEq F] [DecidableEq C]
  (T : Transcript F C)

/-- `Hyrax`: the generators come from one label, and every proof has a new tape. -/
def hyrax (points : ℕ → C) (newTape : T.State) :
    PolyCommitmentScheme F (List C) (hyraxTranscript T) where
  SRS := HyraxSRS
  PolyCommitmentKey := HyraxKey C
  EvalVerifierKey := HyraxKey C
  PolyCommitmentProof := PolyEvalProof F C
  trim srs supportedNumVars := do
    Run.assert (supportedNumVars ≤ srs.maxNumVars)
    let key := ⟨supportedNumVars, polyCommitmentGens points supportedNumVars⟩
    .ok (key, key)
  commit poly ck := do
    let (comm, _, _) ← commitDense T poly ck.gens none
    .ok comm
  prove _ poly r eval ck st := do
    let (proof, _, st, _) ← PolyEvalProof.prove T poly none r eval none ck.gens st newTape
    .ok (proof, st)
  verify comm proof vk st r eval :=
    (proof.verifyPlain T vk.gens st r eval comm).mapError fun _ => .evalVerifierFailure

variable {T}

/-- **Hyrax is complete, and its verifier tells a wrong evaluation**: for a committed polynomial, at
every point and for every claimed value, the verifier ends in the transcript of the prover exactly
if the value is right, unless the last challenge, the folded vector or the generator is zero; else
it panics. -/
theorem hyrax_verify_guarded {points : ℕ → C} {newTape : T.State} {poly : DensePolynomial F}
    {key : HyraxKey C} {comm : List C} (hcomm : (hyrax T points newTape).commit poly key = .ok comm)
    {c : Option (List C)} {r : List F} {eval : F} {st st' : T.State} {proof : PolyEvalProof F C}
    (hr : r.length ≤ 62)
    (h : (hyrax T points newTape).prove c poly r eval key st = .ok (proof, st')) :
    Run.Guarded ((hyrax T points newTape).verify comm proof key st r eval)
      ((proof.challenge r (eval • key.gens.Q) comm st).1 = 0 ∨
        proof.rHat r (eval • key.gens.Q) comm st = 0 ∨ eval = valueAt poly.Z r ∨
        key.gens.Q = 0) st' := by
  obtain ⟨⟨rows, blinds, tape⟩, hdense, hrows⟩ := bind_eq_ok.mp hcomm
  cases hrows
  obtain ⟨_, hZ, hdense⟩ := bind_eq_ok.mp hdense
  obtain ⟨_, -, hdense⟩ := bind_eq_ok.mp hdense
  obtain ⟨rows, hinner, hdense⟩ := bind_eq_ok.mp hdense
  cases hdense
  obtain ⟨⟨proof, CZr, st', tape'⟩, hprove, hproof⟩ := bind_eq_ok.mp h
  cases hproof
  have hvars : poly.numVars = r.length := by
    obtain ⟨_, hvars, -⟩ := bind_eq_ok.mp hprove
    exact assert_eq_ok.mp hvars
  rw [hvars] at hinner
  -- a commitment without blinds is one with no blinds given
  replace hinner : commitInner poly.Z ((none : Option (List F)).getD
      (List.replicate (lSize r) 0)) key.gens.gensN = .ok comm := hinner
  obtain ⟨hCZr, hguard⟩ :=
    PolyEvalProof.verify_guarded_of_prove (assert_eq_ok.mp hZ) hr hinner hprove
  -- the verifier commits to the claimed value itself, without a blind
  have hplain : combine [eval, 0] key.gens.gens1.points = eval • key.gens.Q := by
    rw [combine_points key.gens.gens1_n, zero_smul, add_zero]
    rfl
  rw [Option.getD_none, hplain] at hCZr
  subst hCZr
  have hCZr : (Commitments.commit eval 0 key.gens.gens1 : Run ProofVerifyError C) =
      .ok (eval • key.gens.Q) := by
    rw [(commit_guarded _ _ _).returns key.gens.gens1_n, hplain]
  constructor
  · intro hc
    exact mapError_eq_ok.mpr (bind_eq_ok.mpr ⟨_, hCZr, hguard.returns hc⟩)
  · intro hc
    show Run.mapError _ (Commitments.commit eval 0 key.gens.gens1 >>= _) = _
    rw [hCZr]
    exact congrArg (Run.mapError _) (hguard.panics hc)

end Scheme

section Example

open Bn254

/-- The transcript that always answers `1`. -/
def oneTranscript : Transcript (ZMod fr) (ZMod fr) where
  State := Unit
  appendMessage _ _ _ := ()
  challengeScalar _ _ := (1, ())

/-- The scheme over the scalars, with all generators `1`. -/
def clearHyrax := hyrax oneTranscript (fun _ => 1) ()

/-- The key for tables of two entries. -/
def pairKey : HyraxKey (ZMod fr) := ⟨1, polyCommitmentGens (fun _ => 1) 1⟩

/-- **Two coefficients**: their value `5` at the point `2` is proved and accepted. -/
theorem hyrax_verify_guarded_two : ∃ proof,
    clearHyrax.prove none ⟨1, [3, 4]⟩ [2] 5 pairKey () = .ok (proof, ()) ∧
      clearHyrax.verify [7] proof pairKey () [2] 5 = .ok () := by
  have hcomm : clearHyrax.commit ⟨1, [3, 4]⟩ pairKey = .ok [7] := by decide +kernel
  have hok : (clearHyrax.prove none ⟨1, [3, 4]⟩ [2] 5 pairKey ()).isOk = true := by
    decide +kernel
  cases hprove : clearHyrax.prove none ⟨1, [3, 4]⟩ [2] 5 pairKey () with
  | error e =>
      rw [hprove] at hok
      cases hok
  | ok run =>
      obtain ⟨proof, _⟩ := run
      refine ⟨proof, rfl, (hyrax_verify_guarded hcomm (by simp) hprove).returns ?_⟩
      exact .inr (.inr (.inl (by decide +kernel)))

end Example

end NexusVm.Spartan
