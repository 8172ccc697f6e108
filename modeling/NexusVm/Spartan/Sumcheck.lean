import NexusVm.Univariate
import NexusVm.Spartan.Transcript
import Mathlib.Data.Fin.VecNotation

/-!
# The sumcheck of Spartan

`spartan/src/unipoly.rs`, `sumcheck.rs` and the provers of `crr1csproof.rs`.  A prover sends the
polynomial of every round without its linear term, which the verifier computes from the claim.
-/

namespace NexusVm.Spartan

open Nova Univariate

/-- `UniPoly`: the coefficients from the constant one on. -/
structure UniPoly (F : Type) where
  coeffs : List F
deriving DecidableEq

/-- `CompressedUniPoly`. -/
structure CompressedUniPoly (F : Type) where
  coeffsExceptLinearTerm : List F
deriving DecidableEq

section UniPoly

variable {F : Type} [Field F]

/-- `UniPoly::degree`. -/
def UniPoly.degree (poly : UniPoly F) : ℕ := poly.coeffs.length - 1

/-- `UniPoly::eval_at_zero`. -/
def UniPoly.evalAtZero (poly : UniPoly F) : F := poly.coeffs.getD 0 0

/-- `UniPoly::eval_at_one`. -/
def UniPoly.evalAtOne (poly : UniPoly F) : F := poly.coeffs.sum

/-- `UniPoly::evaluate`: the value so far and the power of the next coefficient. -/
def UniPoly.evaluate (poly : UniPoly F) (r : F) : F :=
  ((poly.coeffs.drop 1).foldl (fun (eval, power) c => (eval + power * c, power * r))
    (poly.coeffs.getD 0 0, r)).1

/-- `UniPoly::compress`. -/
def UniPoly.compress {E : Type} (poly : UniPoly F) : Run E (CompressedUniPoly F) := do
  Run.assert (2 ≤ poly.coeffs.length)
  .ok ⟨poly.coeffs.take 1 ++ poly.coeffs.drop 2⟩

/-- `CompressedUniPoly::decompress`. -/
def CompressedUniPoly.decompress {E : Type} (poly : CompressedUniPoly F) (hint : F) :
    Run E (UniPoly F) :=
  match poly.coeffsExceptLinearTerm with
  | [] => .error .panic
  | c :: cs => .ok ⟨c :: cs.foldl (· - ·) (hint - c - c) :: cs⟩

/-- `UniPoly::append_to_transcript`. -/
def UniPoly.appendToTranscript {C : Type} (T : Transcript F C) (poly : UniPoly F)
    (label : String) (st : T.State) : T.State :=
  let st := T.appendMessage st label (.bytes "UniPoly_begin")
  let st := poly.coeffs.foldl (fun st c => T.appendScalar st "coeff" c) st
  T.appendMessage st label (.bytes "UniPoly_end")

variable [DecidableEq F]

/-- `x.inverse().unwrap()`. -/
def inverseUnwrap {E : Type} (x : F) : Run E F := do
  Run.assert (x ≠ 0)
  .ok x⁻¹

/-- `UniPoly::from_evals`: a polynomial of degree two or three from its values at `0, 1, ..`. -/
def UniPoly.fromEvals {E : Type} : List F → Run E (UniPoly F)
  | [e0, e1, e2] => do
      let twoInv ← inverseUnwrap 2
      let c := e0
      let a := twoInv * (e2 - e1 - e1 + c)
      let b := e1 - c - a
      .ok ⟨[c, b, a]⟩
  | [e0, e1, e2, e3] => do
      let twoInv ← inverseUnwrap 2
      let sixInv ← inverseUnwrap 6
      let d := e0
      let a := sixInv * (e3 - e2 - e2 - e2 + e1 + e1 + e1 - e0)
      let b := twoInv *
        (e0 + e0 - e1 - e1 - e1 - e1 - e1 + e2 + e2 + e2 + e2 - e3)
      let c := e1 - d - a - b
      .ok ⟨[d, c, b, a]⟩
  | _ => .error .panic

end UniPoly

section Values

variable {F : Type} [Field F]

theorem foldl_evaluate (cs : List F) (r : F) (acc : F × F) :
    (cs.foldl (fun (eval, power) c => (eval + power * c, power * r)) acc).1 =
      acc.1 + acc.2 * polyValue cs r := by
  induction cs generalizing acc with
  | nil => simp [polyValue]
  | cons c cs ih =>
      rw [List.foldl_cons, ih, polyValue]
      ring

theorem UniPoly.evaluate_eq (poly : UniPoly F) (r : F) :
    poly.evaluate r = polyValue poly.coeffs r := by
  obtain ⟨coeffs⟩ := poly
  cases coeffs with
  | nil => simp [UniPoly.evaluate, polyValue]
  | cons c cs => exact foldl_evaluate cs r (c, r)

/-- The values at `0, 1, ..` determine a polynomial. -/
def Interpolates [DecidableEq F] (degree : ℕ) : Prop :=
  ∀ (E : Type) (cs : List F), cs.length = degree + 1 →
    (UniPoly.fromEvals (polyValue cs 0 :: polyValue cs 1 ::
      (List.range' 2 (degree - 1)).map fun t : ℕ => polyValue cs t) : Run E _) = .ok ⟨cs⟩

variable [DecidableEq F]

theorem inverseUnwrap_eq {E : Type} {x : F} (hx : x ≠ 0) :
    (inverseUnwrap x : Run E F) = .ok x⁻¹ :=
  bind_eq_ok.mpr ⟨(), assert_eq_ok.mpr hx, rfl⟩

theorem interpolates_two (h : (2 : F) ≠ 0) : Interpolates (F := F) 2 := by
  intro E cs hcs
  obtain ⟨c, b, a, rfl⟩ := List.length_eq_three.mp hcs
  refine bind_eq_ok.mpr ⟨_, inverseUnwrap_eq h, ?_⟩
  rw [Except.ok.injEq]
  simp only [polyValue, UniPoly.mk.injEq, List.cons.injEq, and_true]
  push_cast
  have ha : (2 : F)⁻¹ * 2 = 1 := inv_mul_cancel₀ h
  constructor
  · ring
  constructor
  · linear_combination (-a) * ha
  · linear_combination a * ha

theorem interpolates_three (h : (6 : F) ≠ 0) : Interpolates (F := F) 3 := by
  intro E cs hcs
  have htwo : (2 : F) ≠ 0 := by
    intro hzero
    apply h
    linear_combination 3 * hzero
  match cs, hcs with
  | [d, c, b, a], _ =>
      refine bind_eq_ok.mpr ⟨_, inverseUnwrap_eq htwo, bind_eq_ok.mpr ⟨_, inverseUnwrap_eq h, ?_⟩⟩
      rw [Except.ok.injEq]
      simp only [polyValue, UniPoly.mk.injEq, List.cons.injEq, and_true]
      push_cast
      have ha : (6 : F)⁻¹ * 6 = 1 := inv_mul_cancel₀ h
      have hb : (2 : F)⁻¹ * 2 = 1 := inv_mul_cancel₀ htwo
      constructor
      · ring
      constructor
      · linear_combination (-a) * ha + (-b) * hb
      constructor
      · linear_combination b * hb
      · linear_combination a * ha

end Values

/-- `PCSError`. -/
inductive PCSError
  | evalVerifierFailure
deriving DecidableEq

/-- `ProofVerifyError`. -/
inductive ProofVerifyError
  | internalError
  | decompressionError (bytes : List UInt8)
  | polyCommitmentError (e : PCSError)
deriving DecidableEq

section Loops

variable {F C : Type} [Field F] (T : Transcript F C) {k : ℕ}

/-- A table at `t` in its first variable, one step after the other. -/
def boundPoint : ℕ → F → F → F
  | 0, low, _ => low
  | 1, _, high => high
  | t + 2, low, high => boundPoint (t + 1) low high + high - low

/-- `eval_point_t`: the sum over the other variables. -/
def evalPoint (combFunc : (Fin k → F) → F) (Zs : Fin k → List F) (len t : ℕ) : F :=
  ((List.range len).map fun i =>
    combFunc fun j => boundPoint t ((Zs j).getD i 0) ((Zs j).getD (len + i) 0)).sum

/-- `evals`: the value at one is the rest of the claim. -/
def roundEvals (degree : ℕ) (combFunc : (Fin k → F) → F) (Zs : Fin k → List F) (len : ℕ) (e : F) :
    List F :=
  let evalPoint0 := evalPoint combFunc Zs len 0
  evalPoint0 :: (e - evalPoint0) :: (List.range' 2 (degree - 1)).map (evalPoint combFunc Zs len)

/-- What a prover leaves: the proof, the randomness, the bound tables and the transcript. -/
structure ProverOutput (k : ℕ) where
  proof : List (CompressedUniPoly F)
  r : List F
  polys : Fin k → DensePolynomial F
  st : T.State

variable [DecidableEq F]

/-- The rounds of `prove_quad` and `prove_cubic_five_terms`; entries outside of a table panic. -/
def proveRounds {E : Type} (degree : ℕ) (combFunc : (Fin (k + 1) → F) → F) :
    ℕ → (Fin (k + 1) → DensePolynomial F) → F → T.State → Run E (ProverOutput T (k + 1))
  | 0, polys, _, st => .ok ⟨[], [], polys, st⟩
  | n + 1, polys, e, st => do
      let len := (polys 0).Z.length / 2
      Run.assert (∀ j, 2 * len ≤ (polys j).Z.length)
      let poly ← UniPoly.fromEvals (roundEvals degree combFunc (fun j => (polys j).Z) len e)
      let st := poly.appendToTranscript T "poly" st
      let (r, st) := T.challengeScalar st "challenge_nextround"
      let polys ← boundPolyVarTop polys r
      let compressed ← poly.compress
      let out ← proveRounds degree combFunc n polys (poly.evaluate r) st
      .ok ⟨compressed :: out.proof, r :: out.r, out.polys, out.st⟩

/-- `SumcheckInstanceProof::prove_quad`. -/
def proveQuad {E : Type} (claim : F) (numRounds : ℕ) (polyA polyB : DensePolynomial F)
    (combFunc : F → F → F) (st : T.State) : Run E (ProverOutput T 2) := do
  let out ← proveRounds T 2 (fun v : Fin 2 → F => combFunc (v 0) (v 1)) numRounds ![polyA, polyB]
    claim st
  -- the claims `poly_A[0]`, ..
  Run.assert (∀ j, (out.polys j).Z ≠ [])
  .ok out

/-- `SumcheckInstanceProof::prove_cubic_five_terms`. -/
def proveCubicFiveTerms {E : Type} (claim : F) (numRounds : ℕ)
    (polyA polyB polyC polyD polyE : DensePolynomial F) (combFunc : F → F → F → F → F → F)
    (st : T.State) : Run E (ProverOutput T 5) := do
  let out ← proveRounds T 3 (fun v : Fin 5 → F => combFunc (v 0) (v 1) (v 2) (v 3) (v 4)) numRounds
    ![polyA, polyB, polyC, polyD, polyE] claim st
  Run.assert (∀ j, (out.polys j).Z ≠ [])
  .ok out

/-- The rounds of `SumcheckInstanceProof::verify`: the last claim, the randomness and the
transcript. -/
def verifyRounds {E : Type} (degreeBound : ℕ) :
    List (CompressedUniPoly F) → F → T.State → Run E (F × List F × T.State)
  | [], e, st => .ok (e, [], st)
  | compressed :: proof, e, st => do
      let poly ← compressed.decompress e
      Run.assert (poly.degree = degreeBound)
      Run.assert (poly.evalAtZero + poly.evalAtOne = e)
      let st := poly.appendToTranscript T "poly" st
      let (r, st) := T.challengeScalar st "challenge_nextround"
      let (e, rs, st) ← verifyRounds degreeBound proof (poly.evaluate r) st
      .ok (e, r :: rs, st)

/-- `SumcheckInstanceProof::verify`. -/
def verifySumcheck {E : Type} (proof : List (CompressedUniPoly F)) (claim : F)
    (numRounds degreeBound : ℕ) (st : T.State) : Run E (F × List F × T.State) := do
  Run.assert (proof.length = numRounds)
  verifyRounds T degreeBound proof claim st

end Loops

/-! ## Completeness -/

section Complete

variable {F C : Type} [Field F] {T : Transcript F C} {k : ℕ}

theorem boundPoint_eq (t : ℕ) (low high : F) :
    boundPoint t low high = low + (t : F) * (high - low) := by
  induction t with
  | zero => simp [boundPoint]
  | succ t ih =>
      cases t with
      | zero => simp [boundPoint]
      | succ t =>
          rw [boundPoint, ih]
          push_cast
          ring

/-- The claim of tables in `n` variables. -/
def tableSum (combFunc : (Fin k → F) → F) (Zs : Fin k → List F) (n : ℕ) : F :=
  ∑ i ∈ Finset.range (2 ^ n), combFunc fun j => (Zs j).getD i 0

/-- The polynomial of a round. -/
def roundSum (combFunc : (Fin k → F) → F) (Zs : Fin k → List F) (n : ℕ) (t : F) : F :=
  ∑ i ∈ Finset.range (2 ^ n), combFunc fun j =>
    (Zs j).getD i 0 + t * ((Zs j).getD (2 ^ n + i) 0 - (Zs j).getD i 0)

theorem sum_map_range (f : ℕ → F) (n : ℕ) :
    ((List.range n).map f).sum = ∑ i ∈ Finset.range n, f i := by
  induction n with
  | zero => rfl
  | succ n ih =>
      rw [List.range_succ, List.map_append, List.sum_append, ih, Finset.sum_range_succ,
        List.map_singleton, List.sum_singleton]

theorem evalPoint_eq (combFunc : (Fin k → F) → F) (Zs : Fin k → List F) (n t : ℕ) :
    evalPoint combFunc Zs (2 ^ n) t = roundSum combFunc Zs n t := by
  rw [evalPoint, roundSum, sum_map_range]
  simp only [boundPoint_eq]

/-- A claim is the polynomial of its round at zero and at one. -/
theorem tableSum_succ (combFunc : (Fin k → F) → F) (Zs : Fin k → List F) (n : ℕ) :
    tableSum combFunc Zs (n + 1) = roundSum combFunc Zs n 0 + roundSum combFunc Zs n 1 := by
  rw [tableSum, pow_succ, mul_two, Finset.sum_range_add, roundSum, roundSum]
  simp only [zero_mul, add_zero, one_mul, add_sub_cancel]

/-- After the challenge the claim is the polynomial there. -/
theorem tableSum_bound (combFunc : (Fin k → F) → F) {Zs : Fin k → List F} {n : ℕ}
    (h : ∀ j, (Zs j).length = 2 ^ (n + 1)) (r : F) :
    tableSum combFunc (fun j => boundTop (Zs j) r) n = roundSum combFunc Zs n r := by
  apply Finset.sum_congr rfl
  intro i hi
  congr 1
  funext j
  exact getD_boundTop (h j) (Finset.mem_range.mp hi) r

/-- Along every line the combination is a polynomial of this degree. -/
def LineDegree (degree : ℕ) (combFunc : (Fin k → F) → F) : Prop :=
  ∀ low high : Fin k → F, PolyOn degree fun t => combFunc fun j => low j + t * (high j - low j)

variable {degree : ℕ}

theorem LineDegree.roundSum {combFunc : (Fin k → F) → F} (h : LineDegree degree combFunc)
    (Zs : Fin k → List F) (n : ℕ) :
    PolyOn degree (roundSum combFunc Zs n) :=
  PolyOn.sum fun i _ => h (fun j => (Zs j).getD i 0) fun j => (Zs j).getD (2 ^ n + i) 0

variable [DecidableEq F]

/-- **The polynomial of a round** interpolates the sums of the tables. -/
theorem fromEvals_roundEvals {E : Type} (hdegree : Interpolates (F := F) degree)
    {combFunc : (Fin k → F) → F} {Zs : Fin k → List F} {n : ℕ} {cs : List F}
    (hlen : cs.length = degree + 1) (hcs : ∀ t, roundSum combFunc Zs n t = polyValue cs t) :
    (UniPoly.fromEvals (roundEvals degree combFunc Zs (2 ^ n) (tableSum combFunc Zs (n + 1))) :
      Run E _) = .ok ⟨cs⟩ := by
  have hzero : evalPoint combFunc Zs (2 ^ n) 0 = polyValue cs 0 := by
    rw [evalPoint_eq, Nat.cast_zero, hcs]
  have hone : tableSum combFunc Zs (n + 1) - evalPoint combFunc Zs (2 ^ n) 0 = polyValue cs 1 := by
    rw [hzero, tableSum_succ, hcs, hcs, add_sub_cancel_left]
  have hrest : (List.range' 2 (degree - 1)).map (evalPoint combFunc Zs (2 ^ n)) =
      (List.range' 2 (degree - 1)).map fun t : ℕ => polyValue cs t := by
    apply List.map_congr_left
    intro t _
    rw [evalPoint_eq, hcs]
  rw [roundEvals, hone, hzero, hrest]
  exact hdegree E cs hlen

omit [DecidableEq F] in
theorem foldl_sub (cs : List F) (x : F) : cs.foldl (· - ·) x = x - cs.sum := by
  induction cs generalizing x with
  | nil => simp
  | cons c cs ih => rw [List.foldl_cons, ih, List.sum_cons, sub_sub]

omit [DecidableEq F] in
/-- **A compressed polynomial** is restored with the claim that it meets. -/
theorem decompress_compress {E : Type} {poly : UniPoly F} {hint : F}
    (hlen : 2 ≤ poly.coeffs.length) (hhint : poly.evalAtZero + poly.evalAtOne = hint) :
    ∃ compressed, (poly.compress : Run E _) = .ok compressed ∧
      ∀ E' : Type, (compressed.decompress hint : Run E' _) = .ok poly := by
  obtain ⟨coeffs⟩ := poly
  match coeffs, hlen with
  | c :: linear :: cs, _ =>
      refine ⟨⟨c :: cs⟩, bind_eq_ok.mpr ⟨(), assert_eq_ok.mpr (by simp), rfl⟩, fun E' => ?_⟩
      have hlinear : cs.foldl (· - ·) (hint - c - c) = linear := by
        rw [foldl_sub, ← hhint]
        simp only [UniPoly.evalAtZero, UniPoly.evalAtOne, List.getD_cons_zero, List.sum_cons]
        ring
      show Except.ok (UniPoly.mk (c :: cs.foldl (· - ·) (hint - c - c) :: cs)) = _
      rw [hlinear]

/-- What an honest prover leaves: every table is bound to its value at the randomness, and the
verifier follows the proof to the combination of these values. -/
structure Completes (degree : ℕ) (combFunc : (Fin k → F) → F) (polys : Fin k → DensePolynomial F)
    (n : ℕ) (e : F) (st : T.State) (out : ProverOutput T k) : Prop where
  rounds : out.proof.length = n
  randomness : out.r.length = n
  tables : ∀ j, (out.polys j).Z = [valueAt (polys j).Z out.r]
  verified : ∀ E : Type, (verifyRounds T degree out.proof e st : Run E _) =
    .ok (combFunc fun j => valueAt (polys j).Z out.r, out.r, out.st)

/-- **Completeness of the sumcheck.** -/
theorem proveRounds_complete {E : Type} (hpos : 0 < degree)
    (hdegree : Interpolates (F := F) degree) {combFunc : (Fin (k + 1) → F) → F}
    (hcomb : LineDegree degree combFunc) {n : ℕ} {polys : Fin (k + 1) → DensePolynomial F}
    (hpolys : ∀ j, (polys j).numVars = n ∧ (polys j).Z.length = 2 ^ n) {e : F}
    (he : tableSum combFunc (fun j => (polys j).Z) n = e) (st : T.State) :
    ∃ out, (proveRounds T degree combFunc n polys e st : Run E _) = .ok out ∧
      Completes degree combFunc polys n e st out := by
  induction n generalizing polys e st with
  | zero =>
      have hvalue : ∀ j, valueAt (polys j).Z [] = (polys j).Z.getD 0 0 :=
        fun j => valueAt_nil (hpolys j).2
      have hsum : (combFunc fun j => valueAt (polys j).Z []) = e := by
        rw [← he, tableSum, pow_zero, Finset.sum_range_one]
        simp only [hvalue]
      refine ⟨⟨[], [], polys, st⟩, rfl, rfl, rfl, fun j => ?_, fun E' => ?_⟩
      · obtain ⟨a, ha⟩ := List.length_eq_one_iff.mp (hpolys j).2
        show (polys j).Z = [valueAt (polys j).Z []]
        rw [hvalue, ha]
        rfl
      · show Except.ok (e, [], st) = _
        rw [hsum]
  | succ n ih =>
      obtain ⟨cs, hlen, hcs⟩ := hcomb.roundSum (fun j => (polys j).Z) n
      have hhalf : ∀ j, (polys j).Z.length / 2 = 2 ^ n := by
        intro j
        rw [(hpolys j).2, pow_succ, Nat.mul_div_cancel _ two_pos]
      have hlens : ∀ j, 2 * ((polys 0).Z.length / 2) ≤ (polys j).Z.length := by
        intro j
        rw [hhalf, (hpolys j).2, pow_succ, mul_comm]
      have hpoly : (UniPoly.fromEvals (roundEvals degree combFunc (fun j => (polys j).Z)
          ((polys 0).Z.length / 2) e) : Run E _) = .ok ⟨cs⟩ := by
        rw [hhalf, ← he]
        exact fromEvals_roundEvals hdegree hlen hcs
      -- the polynomial meets the claim
      have hmeets : (UniPoly.mk cs).evalAtZero + (UniPoly.mk cs).evalAtOne = e := by
        rw [← he, tableSum_succ, hcs, hcs, polyValue_zero, polyValue_one]
        rfl
      have htwo : 2 ≤ (UniPoly.mk cs).coeffs.length := by
        show 2 ≤ cs.length
        omega
      obtain ⟨compressed, hcompress, hdecompress⟩ :=
        decompress_compress (E := E) htwo hmeets
      let st1 := (UniPoly.mk cs).appendToTranscript T "poly" st
      let r := (T.challengeScalar st1 "challenge_nextround").1
      let st2 := (T.challengeScalar st1 "challenge_nextround").2
      let bound : Fin (k + 1) → DensePolynomial F :=
        fun j => ⟨(polys j).numVars - 1, boundTop (polys j).Z r⟩
      have hbound : ∀ j, (bound j).numVars = n ∧ (bound j).Z.length = 2 ^ n := by
        intro j
        constructor
        · show (polys j).numVars - 1 = n
          rw [(hpolys j).1, Nat.add_sub_cancel]
        · exact length_boundTop (hpolys j).2 r
      have hclaim : tableSum combFunc (fun j => (bound j).Z) n = (UniPoly.mk cs).evaluate r := by
        rw [UniPoly.evaluate_eq, ← hcs]
        exact tableSum_bound combFunc (fun j => (hpolys j).2) r
      obtain ⟨out, hout, hcomplete⟩ := ih hbound hclaim st2
      have hvalue : ∀ j, valueAt (polys j).Z (r :: out.r) = valueAt (bound j).Z out.r := by
        intro j
        apply valueAt_cons
        rw [hcomplete.randomness, (hpolys j).2]
      refine ⟨⟨compressed :: out.proof, r :: out.r, out.polys, out.st⟩, ?_, ?_, ?_, fun j => ?_,
        fun E' => ?_⟩
      · refine bind_eq_ok.mpr ⟨(), assert_eq_ok.mpr hlens, bind_eq_ok.mpr ⟨_, hpoly, ?_⟩⟩
        refine bind_eq_ok.mpr ⟨bound, boundPolyVarTop_eq (fun j => ?_) r, ?_⟩
        · rw [(hpolys j).1]
          exact n.succ_pos
        · exact bind_eq_ok.mpr ⟨compressed, hcompress, bind_eq_ok.mpr ⟨out, hout, rfl⟩⟩
      · exact congrArg (· + 1) hcomplete.rounds
      · exact congrArg (· + 1) hcomplete.randomness
      · show (out.polys j).Z = [valueAt (polys j).Z (r :: out.r)]
        rw [hvalue]
        exact hcomplete.tables j
      · have hdeg : (UniPoly.mk cs).degree = degree := by
          show cs.length - 1 = degree
          omega
        have htail := hcomplete.verified E'
        simp only [← hvalue] at htail
        exact bind_eq_ok.mpr ⟨_, hdecompress E', bind_eq_ok.mpr ⟨(), assert_eq_ok.mpr hdeg,
          bind_eq_ok.mpr ⟨(), assert_eq_ok.mpr hmeets, bind_eq_ok.mpr ⟨_, htail, rfl⟩⟩⟩⟩

end Complete

end NexusVm.Spartan
