import NexusVm.Spartan.Crr1csProof
import NexusVm.Spartan.Zeromorph
import NexusVm.Bn254

/-!
# Completeness of proofs of committed relaxed R1CS

The two sumchecks of a satisfied pair always succeed.  The openings use one key, so both vectors
must have its number of variables.

The commitment scheme is a parameter.  What is asked of it is completeness and the panic of
Zeromorph for a key of another size, which is proved of the model of Zeromorph; the scheme in the
clear shows that the assumptions hold together.
-/

namespace NexusVm.Spartan

open Nova Bn254 Univariate

section Padded

variable {F : Type}

/-- A shape of `2 ^ s` constraints and `2 ^ m` variables. -/
structure R1CSInstance.Padded (shape : R1CSInstance F) (s m : ℕ) : Prop where
  cons : shape.numCons = 2 ^ s
  vars : shape.numVars = 2 ^ m
  inputs : shape.numInputs < shape.numVars
  inRange : shape.InRange
  varsX : shape.A.numVarsX = s ∧ shape.B.numVarsX = s ∧ shape.C.numVarsX = s
  varsY : shape.A.numVarsY = m + 1 ∧ shape.B.numVarsY = m + 1 ∧ shape.C.numVarsY = m + 1

variable {numCons numVars numInputs : ℕ}

theorem bytesToScalar_eq_ok [Field F] {tups : List (ℕ × ℕ × F)} {M : List (SparseMatEntry F)} :
    bytesToScalar numCons numVars numInputs tups = .ok M ↔
      (∀ tup ∈ tups, tup.1 < numCons ∧ tup.2.1 < numVars + 1 + numInputs) ∧
        paddedEntries numCons numVars numInputs tups = M := by
  simp only [bytesToScalar, bind_eq_ok, forM_eq_ok, failIf_eq_ok, Except.ok.injEq,
    Unique.exists_iff, not_le]
  rfl

/-- **`Instance::new`** returns padded shapes of the sizes that it computes. -/
theorem padded_of_instanceNew [Field F] {A B C : List (ℕ × ℕ × F)} {shape : R1CSInstance F}
    (h : Instance.new numCons numVars numInputs A B C = .ok shape) :
    shape.numCons = numConsPadded numCons ∧ shape.numVars = numVarsPadded numVars numInputs ∧
      ∃ s m, shape.Padded s m := by
  obtain ⟨_, hA, h'⟩ := bind_eq_ok.mp h
  obtain ⟨_, hB, h'⟩ := bind_eq_ok.mp h'
  obtain ⟨_, hC, -⟩ := bind_eq_ok.mp h'
  obtain ⟨hA, -⟩ := bytesToScalar_eq_ok.mp hA
  obtain ⟨hB, -⟩ := bytesToScalar_eq_ok.mp hB
  obtain ⟨hC, -⟩ := bytesToScalar_eq_ok.mp hC
  rw [instanceNew_eq hA hB hC, Except.ok.injEq] at h
  subst h
  obtain ⟨s, hs⟩ := nextPowerOfTwo_eq (numConsPadded numCons)
  obtain ⟨m, hm⟩ := nextPowerOfTwo_eq (max numVars (numInputs + 1))
  rw [numConsPadded_power] at hs
  have hvars := le_numVarsPadded numVars numInputs
  have hX : Nat.clog 2 (numConsPadded numCons) = s := by rw [hs, clog_two_pow]
  have hY : Nat.clog 2 (2 * numVarsPadded numVars numInputs) = m + 1 := by
    rw [numVarsPadded, hm, ← clog_two_pow (m + 1), pow_succ, mul_comm]
  refine ⟨rfl, rfl, s, m, hs, hm, ?_, paddedInstance_inRange hA hB hC, ⟨hX, hX, hX⟩,
    ⟨hY, hY, hY⟩⟩
  show numInputs < numVarsPadded numVars numInputs
  omega

variable {shape : R1CSInstance F} {s m : ℕ}

/-- The entries lie in the matrices with the padded columns. -/
theorem R1CSInstance.Padded.inRange' (h : shape.Padded s m) :
    shape.A.InRange (2 ^ s) (2 ^ (m + 1)) ∧ shape.B.InRange (2 ^ s) (2 ^ (m + 1)) ∧
      shape.C.InRange (2 ^ s) (2 ^ (m + 1)) := by
  have hcols : shape.numVars + shape.numInputs + 1 ≤ 2 ^ (m + 1) := by
    have hinputs := h.inputs
    rw [pow_succ, ← h.vars]
    omega
  have hwiden : ∀ poly : SparseMatPolynomial F,
      poly.InRange shape.numCons (shape.numVars + shape.numInputs + 1) →
        poly.InRange (2 ^ s) (2 ^ (m + 1)) := by
    intro poly hpoly e he
    obtain ⟨hrow, hcol⟩ := hpoly e he
    rw [h.cons] at hrow
    exact ⟨hrow, hcol.trans_le hcols⟩
  exact ⟨hwiden _ h.inRange.A, hwiden _ h.inRange.B, hwiden _ h.inRange.C⟩

end Padded

section Assignment

variable {F : Type} [Field F]

/-- The half of the assignment behind the variables. -/
def publicHalf (numVars : ℕ) (input : List F) (u : F) : List F :=
  u :: input ++ List.replicate (numVars - input.length - 1) 0

theorem paddedAssignment_eq (vars input : List F) (u : F) :
    paddedAssignment vars input u = vars ++ publicHalf vars.length input u := by
  simp only [paddedAssignment, publicHalf, List.append_assoc, List.cons_append, List.nil_append]

theorem length_publicHalf {numVars : ℕ} {input : List F} (h : input.length < numVars) (u : F) :
    (publicHalf numVars input u).length = numVars := by
  rw [publicHalf, List.length_append, List.length_cons, List.length_replicate]
  omega

theorem length_paddedAssignment {vars input : List F} {m : ℕ} (hvars : vars.length = 2 ^ m)
    (h : input.length < vars.length) (u : F) :
    (paddedAssignment vars input u).length = 2 ^ (m + 1) := by
  rw [paddedAssignment_eq, List.length_append, length_publicHalf h, hvars, pow_succ, mul_two]

/-- Zeros behind a vector do not change its entries. -/
theorem getD_append_zeros (l : List F) (n i : ℕ) :
    (l ++ List.replicate n 0).getD i 0 = l.getD i 0 := by
  rcases Nat.lt_or_ge i l.length with h | h
  · rw [List.getD_append _ _ _ _ h]
  · rw [List.getD_append_right _ _ _ _ h, List.getD_eq_default _ _ h]
    rcases Nat.lt_or_ge (i - l.length) (List.replicate n (0 : F)).length with h' | h'
    · rw [List.getD_eq_getElem _ _ h', List.getElem_replicate]
    · rw [List.getD_eq_default _ _ h']

theorem getD_paddedAssignment (vars input : List F) (u : F) (i : ℕ) :
    (paddedAssignment vars input u).getD i 0 = (vars ++ u :: input).getD i 0 := by
  rw [paddedAssignment, getD_append_zeros, List.append_assoc, List.singleton_append]

/-- **The assignment at a point**: the first variable chooses the half. -/
theorem valueAt_paddedAssignment {vars input : List F} {m : ℕ} (hvars : vars.length = 2 ^ m)
    (h : input.length < vars.length) (u r : F) {rs : List F} (hrs : rs.length = m) :
    valueAt (paddedAssignment vars input u) (r :: rs) =
      (1 - r) * valueAt vars rs + r * valueAt (publicHalf vars.length input u) rs := by
  have hlen : (paddedAssignment vars input u).length = 2 ^ (rs.length + 1) := by
    rw [length_paddedAssignment hvars h, hrs]
  have hhalves : vars.length = (publicHalf vars.length input u).length :=
    (length_publicHalf h u).symm
  have hsplit : 2 ^ rs.length = vars.length := by rw [hrs, hvars]
  rw [valueAt, dotProduct_eqEvals_cons hlen, paddedAssignment_eq, hsplit, List.take_left,
    List.drop_left, dotProduct_comb hhalves]
  rfl

/-- **The verifier's evaluation of the inputs** is the one of the public half. -/
theorem evaluate_sparseInput {E : Type} {numVars m : ℕ} {input : List F}
    (hvars : numVars = 2 ^ m) (h : input.length < numVars) (u : F) {rs : List F}
    (hrs : rs.length = m) :
    (SparsePolynomial.evaluate ⟨m, sparseInput u input⟩ rs : Run E F) =
      .ok (valueAt (publicHalf numVars input u) rs) := by
  have hentry : ∀ i < numVars, computeChi (getBits i rs.length) rs = (eqEvals rs).getD i 0 := by
    intro i hi
    rw [hvars, ← hrs] at hi
    exact (getD_eqEvals hi).symm
  have hpublic : ∀ i, (publicHalf numVars input u).getD i 0 = (u :: input).getD i 0 :=
    fun i => getD_append_zeros _ _ i
  -- entries behind the inputs are zero
  have hrest : ∀ i ∈ Finset.range numVars, i ∉ Finset.range (input.length + 1) →
      (publicHalf numVars input u).getD i 0 * (eqEvals rs).getD i 0 = 0 := by
    intro i _ hi
    rw [Finset.mem_range, not_lt] at hi
    rw [hpublic, List.getD_eq_default _ _ hi, zero_mul]
  have hsub : Finset.range (input.length + 1) ⊆ Finset.range numVars :=
    Finset.range_subset_range.mpr h
  have hvalue : ((sparseInput u input).map fun e => computeChi (getBits e.idx rs.length) rs *
      e.val).sum = valueAt (publicHalf numVars input u) rs := by
    rw [valueAt, dotProduct_eq_sum, length_publicHalf h, ← Finset.sum_subset hsub hrest,
      Finset.sum_range_succ', sparseInput, List.map_cons, List.sum_cons, List.map_map,
      sum_map_range, add_comm]
    congr 1
    · apply Finset.sum_congr rfl
      intro i hi
      rw [Finset.mem_range] at hi
      have hlt : i + 1 < numVars := by omega
      rw [Function.comp_apply, hentry _ hlt, hpublic, List.getD_cons_succ, mul_comm]
    · have hlt : 0 < numVars := by omega
      rw [hentry _ hlt, hpublic, List.getD_cons_zero, mul_comm]
  rw [← hvalue]
  exact bind_eq_ok.mpr ⟨(), assert_eq_ok.mpr hrs.symm, rfl⟩

end Assignment

/-! ## The first sumcheck and the second sumcheck -/

section Phases

variable {F C : Type} [Field F] {T : Transcript F C}

theorem lineDegree_relaxed (u : F) :
    LineDegree 3 fun v : Fin 5 → F => (v 1 * v 2 - u * v 3 - v 4) * v 0 := by
  intro low high
  let d : Fin 5 → F := fun j => high j - low j
  let p0 := low 1 * low 2 - u * low 3 - low 4
  let p1 := low 1 * d 2 + d 1 * low 2 - u * d 3 - d 4
  let p2 := d 1 * d 2
  refine ⟨[p0 * low 0, p1 * low 0 + p0 * d 0, p2 * low 0 + p1 * d 0, p2 * d 0], rfl, fun t => ?_⟩
  simp only [polyValue, p0, p1, p2, d]
  ring

theorem lineDegree_product : LineDegree 2 fun v : Fin 2 → F => v 0 * v 1 := by
  intro low high
  let d : Fin 2 → F := fun j => high j - low j
  refine ⟨[low 0 * low 1, low 0 * d 1 + d 0 * low 1, d 0 * d 1], rfl, fun t => ?_⟩
  simp only [polyValue, d]
  ring

/-- The product of a matrix with a vector. -/
def product (M : List (SparseMatEntry F)) (z : List F) (numRows : ℕ) : List F :=
  SparseMatPolynomial.addEntries M z (List.replicate numRows 0)

theorem length_product (M : List (SparseMatEntry F)) (z : List F) (numRows : ℕ) :
    (product M z numRows).length = numRows := by
  rw [product, SparseMatPolynomial.length_addEntries, List.length_replicate]

/-- A satisfied pair with vectors of the sizes of the shape. -/
structure Satisfied (shape : R1CSInstance F) (inst : CRR1CSInstance F C)
    (witness : CRR1CSWitness F) : Prop where
  input : inst.input.length = shape.numInputs
  W : witness.W.length = shape.numVars
  E : witness.E.length = shape.numCons
  rows : ∀ i < shape.numCons, RowHolds shape inst witness i

variable {shape : R1CSInstance F} {inst : CRR1CSInstance F C} {witness : CRR1CSWitness F} {s m : ℕ}

theorem Satisfied.input_lt (h : Satisfied shape inst witness) (hshape : shape.Padded s m) :
    inst.input.length < witness.W.length := by
  rw [h.input, h.W]
  exact hshape.inputs

/-- The padding does not change the products. -/
theorem Satisfied.rowSum_eq (h : Satisfied shape inst witness) (M : List (SparseMatEntry F))
    (i : ℕ) : SparseMatPolynomial.rowSum M (paddedAssignment witness.W inst.input inst.u) i =
      SparseMatPolynomial.rowSum M (assignment shape inst witness) i := by
  have hz : assignment shape inst witness = witness.W ++ inst.u :: inst.input := by
    rw [assignment, ← h.W, padTo_length]
  rw [SparseMatPolynomial.rowSum, SparseMatPolynomial.rowSum, hz]
  simp only [getD_paddedAssignment]

/-- **The first claim**: every summand of a satisfied pair is zero. -/
theorem Satisfied.tableSum_eq (h : Satisfied shape inst witness) (hshape : shape.Padded s m)
    (tau : List F) : tableSum (fun v : Fin 5 → F => (v 1 * v 2 - inst.u * v 3 - v 4) * v 0)
      (fun j => (![eqEvals tau,
        product shape.A.M (paddedAssignment witness.W inst.input inst.u) shape.numCons,
        product shape.B.M (paddedAssignment witness.W inst.input inst.u) shape.numCons,
        product shape.C.M (paddedAssignment witness.W inst.input inst.u) shape.numCons,
        witness.E] : Fin 5 → List F) j) s = 0 := by
  apply Finset.sum_eq_zero
  intro i hi
  rw [Finset.mem_range, ← hshape.cons] at hi
  have hproduct : ∀ M, (product M (paddedAssignment witness.W inst.input inst.u)
      shape.numCons).getD i 0 =
        SparseMatPolynomial.rowSum M (assignment shape inst witness) i := by
    intro M
    rw [product, SparseMatPolynomial.getD_product _ _ hi, h.rowSum_eq]
  have hrow : SparseMatPolynomial.rowSum shape.A.M (assignment shape inst witness) i *
      SparseMatPolynomial.rowSum shape.B.M (assignment shape inst witness) i =
        inst.u * SparseMatPolynomial.rowSum shape.C.M (assignment shape inst witness) i +
          witness.E.getD i 0 := h.rows i hi
  show ((product shape.A.M _ _).getD i 0 * (product shape.B.M _ _).getD i 0 -
    inst.u * (product shape.C.M _ _).getD i 0 - witness.E.getD i 0) * (eqEvals tau).getD i 0 = 0
  rw [hproduct, hproduct, hproduct, hrow]
  ring

theorem multiplyVec_eq {E : Type} (hshape : shape.Padded s m) {z : List F}
    (hz : z.length = 2 ^ (m + 1)) : (shape.multiplyVec shape.numCons z.length z : Run E _) =
      .ok (⟨s, product shape.A.M z shape.numCons⟩, ⟨s, product shape.B.M z shape.numCons⟩,
        ⟨s, product shape.C.M z shape.numCons⟩) := by
  obtain ⟨hA, hB, hC⟩ := hshape.inRange'
  have hlen : ∀ M, (product M z shape.numCons).length = 2 ^ s := by
    intro M
    rw [length_product, hshape.cons]
  have hlt : shape.numVars < z.length := by
    have hpos := Nat.two_pow_pos m
    rw [hz, hshape.vars, pow_succ]
    omega
  have hmul : ∀ poly : SparseMatPolynomial F, poly.InRange (2 ^ s) (2 ^ (m + 1)) →
      (poly.multiplyVec shape.numCons z.length z : Run E _) =
        .ok (product poly.M z shape.numCons) := by
    intro poly hpoly
    apply SparseMatPolynomial.multiplyVec_eq _ rfl
    rwa [hz, hshape.cons]
  exact bind_eq_ok.mpr ⟨(), assert_eq_ok.mpr rfl, bind_eq_ok.mpr ⟨(), assert_eq_ok.mpr rfl,
    bind_eq_ok.mpr ⟨(), assert_eq_ok.mpr hlt, bind_eq_ok.mpr ⟨_, hmul _ hA, bind_eq_ok.mpr
    ⟨_, denseNew_eq (hlen _), bind_eq_ok.mpr ⟨_, hmul _ hB, bind_eq_ok.mpr ⟨_, denseNew_eq (hlen _),
    bind_eq_ok.mpr ⟨_, hmul _ hC, bind_eq_ok.mpr ⟨_, denseNew_eq (hlen _), rfl⟩⟩⟩⟩⟩⟩⟩⟩⟩

variable [DecidableEq F]

theorem verifySumcheck_of_completes {k degree : ℕ} {combFunc : (Fin k → F) → F}
    {polys : Fin k → DensePolynomial F} {n : ℕ} {e : F} {st : T.State} {out : ProverOutput T k}
    (h : Completes degree combFunc polys n e st out) (E : Type) :
    (verifySumcheck T out.proof e n degree st : Run E _) =
      .ok (combFunc fun j => valueAt (polys j).Z out.r, out.r, out.st) :=
  bind_eq_ok.mpr ⟨(), assert_eq_ok.mpr h.rounds, h.verified E⟩

/-- What the first sumcheck leaves of a satisfied pair. -/
structure FirstDone (shape : R1CSInstance F) (inst : CRR1CSInstance F C)
    (witness : CRR1CSWitness F) (s : ℕ) (st : T.State) (out : ProverOutput T 5) : Prop where
  randomness : out.r.length = s
  claims : phaseClaims out =
    ((SparseMatPolynomial.form shape.A.M (eqEvals out.r)
        (paddedAssignment witness.W inst.input inst.u),
      SparseMatPolynomial.form shape.B.M (eqEvals out.r)
        (paddedAssignment witness.W inst.input inst.u),
      SparseMatPolynomial.form shape.C.M (eqEvals out.r)
        (paddedAssignment witness.W inst.input inst.u)), valueAt witness.E out.r)
  verified : ∀ E : Type, (verifySumcheck T out.proof 0 s 3
      (T.challengeVector st "challenge_tau" s).2 : Run E _) =
    .ok (((phaseClaims out).1.1 * (phaseClaims out).1.2.1 - inst.u * (phaseClaims out).1.2.2 -
        (phaseClaims out).2) *
      (List.zipWith (fun x t => x * t + (1 - x) * (1 - t)) out.r
        (T.challengeVector st "challenge_tau" s).1).prod, out.r, out.st)

/-- **The first sumcheck** of a satisfied pair succeeds. -/
theorem proveFirst_complete {E : Type} (hsix : (6 : F) ≠ 0) (hshape : shape.Padded s m)
    (h : Satisfied shape inst witness) (st : T.State) :
    ∃ out, (proveFirst shape inst witness st : Run E _) = .ok out ∧
      FirstDone shape inst witness s st out := by
  have hinput := h.input_lt hshape
  have hW : witness.W.length = 2 ^ m := h.W.trans hshape.vars
  have hE : witness.E.length = 2 ^ s := h.E.trans hshape.cons
  let z := paddedAssignment witness.W inst.input inst.u
  have hz : z.length = 2 ^ (m + 1) := length_paddedAssignment hW hinput inst.u
  let tau := (T.challengeVector st "challenge_tau" s).1
  have htau : tau.length = s := T.length_challengeVector st "challenge_tau" s
  have hpolyTau : (eqEvals tau).length = 2 ^ s := by rw [length_eqEvals, htau]
  have hlen : ∀ M, (product M z shape.numCons).length = 2 ^ s := by
    intro M
    rw [length_product, hshape.cons]
  let polys : Fin 5 → DensePolynomial F := ![⟨s, eqEvals tau⟩,
    ⟨s, product shape.A.M z shape.numCons⟩, ⟨s, product shape.B.M z shape.numCons⟩,
    ⟨s, product shape.C.M z shape.numCons⟩, ⟨s, witness.E⟩]
  have hpolys : ∀ j, (polys j).numVars = s ∧ (polys j).Z.length = 2 ^ s := by
    intro j
    fin_cases j
    · exact ⟨rfl, hpolyTau⟩
    · exact ⟨rfl, hlen _⟩
    · exact ⟨rfl, hlen _⟩
    · exact ⟨rfl, hlen _⟩
    · exact ⟨rfl, hE⟩
  have hclaim : tableSum (fun v : Fin 5 → F => (v 1 * v 2 - inst.u * v 3 - v 4) * v 0)
      (fun j => (polys j).Z) s = 0 := by
    rw [← h.tableSum_eq hshape tau]
    apply Finset.sum_congr rfl
    intro i _
    rfl
  obtain ⟨out, hout, hcomplete⟩ := proveRounds_complete (E := E) (T := T) (by decide : 0 < 3)
    (interpolates_three hsix) (lineDegree_relaxed inst.u) hpolys hclaim
    (T.challengeVector st "challenge_tau" s).2
  have hone : ∀ j, (out.polys j).Z.length = 1 := by
    intro j
    rw [hcomplete.tables j]
    rfl
  have hne : ∀ j, (out.polys j).Z ≠ [] := by
    intro j hnil
    have hlen := hone j
    rw [hnil] at hlen
    cases hlen
  have hform : ∀ poly : SparseMatPolynomial F, poly.InRange (2 ^ s) (2 ^ (m + 1)) →
      valueAt (product poly.M z shape.numCons) out.r =
        SparseMatPolynomial.form poly.M (eqEvals out.r) z := by
    intro poly hpoly
    apply SparseMatPolynomial.valueAt_addEntries
    intro e he
    rw [hshape.cons]
    exact (hpoly e he).1
  obtain ⟨hA, hB, hC⟩ := hshape.inRange'
  have hclaims : phaseClaims out = ((SparseMatPolynomial.form shape.A.M (eqEvals out.r) z,
      SparseMatPolynomial.form shape.B.M (eqEvals out.r) z,
      SparseMatPolynomial.form shape.C.M (eqEvals out.r) z), valueAt witness.E out.r) := by
    rw [phaseClaims, hcomplete.tables 1, hcomplete.tables 2, hcomplete.tables 3,
      hcomplete.tables 4, ← hform _ hA, ← hform _ hB, ← hform _ hC]
    rfl
  refine ⟨out, ?_, hcomplete.randomness, hclaims, fun E' => ?_⟩
  · have hcons : shape.numCons ≠ 0 := by
      have hpos := Nat.two_pow_pos s
      rw [hshape.cons]
      omega
    have hlog : (log2 shape.numCons : Run E ℕ) = .ok s :=
      log2_eq_ok.mpr ⟨hcons, by rw [hshape.cons, clog_two_pow]⟩
    have hphase : (provePhaseOne T s ⟨s, eqEvals tau⟩ ⟨s, product shape.A.M z shape.numCons⟩
        ⟨s, product shape.B.M z shape.numCons⟩ ⟨s, product shape.C.M z shape.numCons⟩
        ⟨s, witness.E⟩ inst.u (T.challengeVector st "challenge_tau" s).2 : Run E _) = .ok out :=
      bind_eq_ok.mpr ⟨out, hout, bind_eq_ok.mpr ⟨(), assert_eq_ok.mpr hne, rfl⟩⟩
    exact bind_eq_ok.mpr ⟨_, denseNew_eq hE, bind_eq_ok.mpr ⟨s, hlog, bind_eq_ok.mpr
      ⟨_, denseNew_eq hpolyTau, bind_eq_ok.mpr ⟨_, multiplyVec_eq hshape hz, bind_eq_ok.mpr
      ⟨out, hphase, bind_eq_ok.mpr ⟨(), assert_eq_ok.mpr hone, rfl⟩⟩⟩⟩⟩⟩
  · have hrtau : out.r.length = tau.length := hcomplete.randomness.trans htau.symm
    have heq : valueAt (eqEvals tau) out.r =
        (List.zipWith (fun x t => x * t + (1 - x) * (1 - t)) out.r tau).prod := by
      rw [valueAt, Nova.dotProduct_comm, dotProduct_eqEvals hrtau]
    rw [verifySumcheck_of_completes hcomplete E', hclaims]
    show Except.ok ((valueAt (product shape.A.M z shape.numCons) out.r *
      valueAt (product shape.B.M z shape.numCons) out.r - inst.u *
      valueAt (product shape.C.M z shape.numCons) out.r - valueAt witness.E out.r) *
      valueAt (eqEvals tau) out.r, out.r, out.st) = _
    rw [hform _ hA, hform _ hB, hform _ hC, heq]

omit [DecidableEq F] in
/-- The combined table against a vector. -/
theorem dotProduct_combineEvals (r : F × F × F) {evalsA evalsB evalsC : List F}
    (hB : evalsA.length = evalsB.length) (hC : evalsA.length = evalsC.length) (w : List F) :
    Nova.dotProduct (combineEvals r evalsA evalsB evalsC) w =
      r.1 * Nova.dotProduct evalsA w + r.2.1 * Nova.dotProduct evalsB w +
        r.2.2 * Nova.dotProduct evalsC w := by
  have hlen : (combineEvals r evalsA evalsB evalsC).length = evalsA.length := by
    rw [combineEvals, List.length_map, List.length_range]
  rw [dotProduct_eq_sum, dotProduct_eq_sum, dotProduct_eq_sum, dotProduct_eq_sum, hlen, ← hB, ← hC,
    Finset.mul_sum, Finset.mul_sum, Finset.mul_sum, ← Finset.sum_add_distrib,
    ← Finset.sum_add_distrib]
  apply Finset.sum_congr rfl
  intro i hi
  rw [combineEvals, getD_map_range _ (Finset.mem_range.mp hi)]
  ring

/-- A combination of the three matrices. -/
def combinedForm (shape : R1CSInstance F) (r : F × F × F) (x y : List F) : F :=
  r.1 * SparseMatPolynomial.form shape.A.M x y + r.2.1 * SparseMatPolynomial.form shape.B.M x y +
    r.2.2 * SparseMatPolynomial.form shape.C.M x y

/-- **The second sumcheck** succeeds on the claims for a vector. -/
theorem proveSecond_complete {E : Type} (htwo : (2 : F) ≠ 0) (hshape : shape.Padded s m)
    {z rx : List F} (hz : z.length = 2 ^ (m + 1)) (hrx : rx.length = s) {claims : F × F × F}
    (hclaims : claims = (SparseMatPolynomial.form shape.A.M (eqEvals rx) z,
      SparseMatPolynomial.form shape.B.M (eqEvals rx) z,
      SparseMatPolynomial.form shape.C.M (eqEvals rx) z)) (r : F × F × F) (st : T.State) :
    ∃ out, (proveSecond shape z rx claims r st : Run E _) = .ok out ∧ out.r.length = m + 1 ∧
      ∀ E' : Type, (verifySumcheck T out.proof
          (r.1 * claims.1 + r.2.1 * claims.2.1 + r.2.2 * claims.2.2) (m + 1) 2 st : Run E' _) =
        .ok (valueAt z out.r * combinedForm shape r (eqEvals rx) (eqEvals out.r), out.r, out.st) := by
  obtain ⟨hA, hB, hC⟩ := hshape.inRange'
  have heqrx : (eqEvals rx).length = 2 ^ s := by rw [length_eqEvals, hrx]
  let table (poly : SparseMatPolynomial F) : List F :=
    SparseMatPolynomial.evalTable poly.M (eqEvals rx) z.length
  have htable : ∀ poly, (table poly).length = z.length :=
    fun poly => SparseMatPolynomial.length_evalTable _ _ _
  have htables : (shape.computeEvalTableSparse shape.numCons z.length (eqEvals rx) : Run E _) =
      .ok (table shape.A, table shape.B, table shape.C) := by
    have hlt : shape.numVars < z.length := by
      have hpos := Nat.two_pow_pos m
      rw [hz, hshape.vars, pow_succ]
      omega
    have hcompute : ∀ poly : SparseMatPolynomial F, poly.InRange (2 ^ s) (2 ^ (m + 1)) →
        (poly.computeEvalTableSparse (eqEvals rx) shape.numCons z.length : Run E _) =
          .ok (table poly) := by
      intro poly hpoly
      apply SparseMatPolynomial.computeEvalTableSparse_eq
      · rwa [hshape.cons, hz]
      · rw [heqrx, hshape.cons]
    exact bind_eq_ok.mpr ⟨(), assert_eq_ok.mpr rfl, bind_eq_ok.mpr ⟨(), assert_eq_ok.mpr hlt,
      bind_eq_ok.mpr ⟨_, hcompute _ hA, bind_eq_ok.mpr ⟨_, hcompute _ hB, bind_eq_ok.mpr
      ⟨_, hcompute _ hC, rfl⟩⟩⟩⟩⟩
  have hAB : (table shape.A).length = (table shape.B).length := by rw [htable, htable]
  have hAC : (table shape.A).length = (table shape.C).length := by rw [htable, htable]
  let evalsABC := combineEvals r (table shape.A) (table shape.B) (table shape.C)
  have hABC : evalsABC.length = 2 ^ (m + 1) := by
    show ((List.range _).map _).length = _
    rw [List.length_map, List.length_range, htable, hz]
  -- the combined table against a vector is the combination of the matrices
  have hform : ∀ w, Nova.dotProduct evalsABC w = combinedForm shape r (eqEvals rx) w := by
    intro w
    have hdot : ∀ poly : SparseMatPolynomial F, poly.InRange (2 ^ s) (2 ^ (m + 1)) →
        Nova.dotProduct (table poly) w = SparseMatPolynomial.form poly.M (eqEvals rx) w := by
      intro poly hpoly
      apply SparseMatPolynomial.dotProduct_evalTable
      intro e he
      rw [hz]
      exact (hpoly e he).2
    show Nova.dotProduct (combineEvals _ _ _ _) w = _
    rw [dotProduct_combineEvals r hAB hAC, hdot _ hA, hdot _ hB, hdot _ hC]
    rfl
  let polys : Fin 2 → DensePolynomial F := ![⟨m + 1, z⟩, ⟨m + 1, evalsABC⟩]
  have hpolys : ∀ j, (polys j).numVars = m + 1 ∧ (polys j).Z.length = 2 ^ (m + 1) := by
    intro j
    fin_cases j
    · exact ⟨rfl, hz⟩
    · exact ⟨rfl, hABC⟩
  have hclaim : tableSum (fun v : Fin 2 → F => v 0 * v 1) (fun j => (polys j).Z) (m + 1) =
      r.1 * claims.1 + r.2.1 * claims.2.1 + r.2.2 * claims.2.2 := by
    have hdot := hform z
    rw [Nova.dotProduct_comm, dotProduct_eq_sum, hz] at hdot
    rw [hclaims]
    exact hdot
  obtain ⟨out, hout, hcomplete⟩ := proveRounds_complete (E := E) (T := T) two_pos
    (interpolates_two htwo) lineDegree_product hpolys hclaim st
  have hne : ∀ j, (out.polys j).Z ≠ [] := by
    intro j
    rw [hcomplete.tables j]
    exact List.cons_ne_nil _ _
  refine ⟨out, ?_, hcomplete.randomness, fun E' => ?_⟩
  · have hpos := Nat.two_pow_pos (m + 1)
    have hlog : (log2 z.length : Run E ℕ) = .ok (m + 1) :=
      log2_eq_ok.mpr ⟨by omega, by rw [hz, clog_two_pow]⟩
    exact bind_eq_ok.mpr ⟨_, hlog, bind_eq_ok.mpr ⟨_, htables, bind_eq_ok.mpr ⟨(),
      assert_eq_ok.mpr hAB, bind_eq_ok.mpr ⟨(), assert_eq_ok.mpr hAC, bind_eq_ok.mpr
      ⟨_, denseNew_eq hz, bind_eq_ok.mpr ⟨_, denseNew_eq hABC, bind_eq_ok.mpr ⟨out, hout,
      bind_eq_ok.mpr ⟨(), assert_eq_ok.mpr hne, rfl⟩⟩⟩⟩⟩⟩⟩⟩
  · rw [verifySumcheck_of_completes hcomplete E', ← hform]
    rfl

end Phases

/-! ## Openings -/

section Openings

variable {F C : Type} [Field F] [DecidableEq F] {T : Transcript F C}

/-- What the openings of Zeromorph promise: a polynomial whose number of variables is not the one
of the key panics (`zeromorphScheme_panics`), any other opening is accepted. -/
structure PolyCommitmentScheme.OpensKeySize (PC : PolyCommitmentScheme F C T) : Prop where
  panics : ∀ {srs n keys}, PC.trim srs n = .ok keys → ∀ {poly : DensePolynomial F},
    poly.numVars ≠ n → ∀ c u v st, PC.prove c poly u v keys.1 st = .error .panic
  complete : ∀ {srs n keys}, PC.trim srs n = .ok keys → ∀ {Z : List F}, Z.length = 2 ^ n →
    ∀ {c}, PC.commit ⟨n, Z⟩ keys.1 = .ok c → ∀ {u : List F}, u.length = n → ∀ st,
      ∃ proof st', PC.prove (some c) ⟨n, Z⟩ u (valueAt Z u) keys.1 st = .ok (proof, st') ∧
        PC.verify c proof keys.2 st u (valueAt Z u) = .ok st'

/-- Zeromorph as the commitment scheme. -/
def zeromorphScheme {G1 G2 GT : Type} [AddCommGroup G1] [AddCommGroup G2] [AddCommGroup GT]
    [Module F G1] [Module F G2] [Module F GT] [DecidableEq GT] {U : UnivariatePolynomials F}
    (K : KzgGroups F G1 G2 GT U) (T : Transcript F G1) : PolyCommitmentScheme F G1 T where
  SRS := ZeromorphSRS G1 G2
  PolyCommitmentKey := ZeromorphCommitterKey G1
  EvalVerifierKey := ZeromorphVerifierKey G1 G2
  PolyCommitmentProof := ZeromorphProof G1
  commit := commit K
  prove := Spartan.prove K
  verify := Spartan.verify K
  trim := trim

/-- **The prover of Zeromorph panics** for a key of another number of variables. -/
theorem zeromorphScheme_panics {G1 G2 GT : Type} [AddCommGroup G1] [AddCommGroup G2]
    [AddCommGroup GT] [Module F G1] [Module F G2] [Module F GT] [DecidableEq GT]
    {U : UnivariatePolynomials F} (K : KzgGroups F G1 G2 GT U) (T : Transcript F G1) {srs n keys}
    (htrim : (zeromorphScheme K T).trim srs n = .ok keys) {poly : DensePolynomial F}
    (hpoly : poly.numVars ≠ n) (c : Option G1) (u : List F) (v : F) (st : T.State) :
    (zeromorphScheme K T).prove c poly u v keys.1 st = .error .panic := by
  have hkey : keys.1.numVars = n := by
    obtain ⟨_, -, htrim⟩ := bind_eq_ok.mp htrim
    obtain ⟨_, -, htrim⟩ := bind_eq_ok.mp htrim
    obtain rfl := Except.ok.inj htrim
    rfl
  cases hrun : (zeromorphScheme K T).prove c poly u v keys.1 st with
  | ok out =>
      -- the phase before the last challenge compares the numbers of variables
      obtain ⟨phase, hphase, -⟩ := bind_eq_ok.mp hrun
      cases c <;>
        · obtain ⟨_, -, hphase⟩ := bind_eq_ok.mp hphase
          obtain ⟨_, -, hphase⟩ := bind_eq_ok.mp hphase
          obtain ⟨_, hsize, -⟩ := bind_eq_ok.mp hphase
          exact absurd ((assert_eq_ok.mp hsize).trans hkey) hpoly
  | error e =>
      cases e with
      | panic => rfl
      | error e => exact e.elim

variable {PC : PolyCommitmentScheme F C T}

/-- The prover returns and the verifier accepts with the evaluations of the matrices, both with
the same points. -/
def ProvesAndVerifies (shape : R1CSInstance F) (inst : CRR1CSInstance F C)
    (witness : CRR1CSWitness F) (key : CRR1CSKey PC) (st : T.State) : Prop :=
  ∃ proof rx ry st', CRR1CSProof.prove shape inst witness key st = .ok (proof, rx, ry, st') ∧
    ∃ evals, (shape.evaluate rx ry : Run ProofVerifyError _) = .ok evals ∧
      proof.verify shape.numVars shape.numCons inst evals st key.vk = .ok (rx, ry, st')

variable {shape : R1CSInstance F} {inst : CRR1CSInstance F C} {witness : CRR1CSWitness F}
  {key : CRR1CSKey PC} {s m : ℕ}

/-- A proof contains openings of both vectors. -/
theorem of_prove_eq_ok (hW : witness.W.length = 2 ^ m) (hE : witness.E.length = 2 ^ s)
    {st : T.State} {res : CRR1CSProof PC × List F × List F × T.State}
    (h : CRR1CSProof.prove shape inst witness key st = .ok res) :
    (∃ c u v st out, PC.prove c ⟨m, witness.W⟩ u v key.ck st = .ok out) ∧
      ∃ c u v st out, PC.prove c ⟨s, witness.E⟩ u v key.ck st = .ok out := by
  obtain ⟨_, -, h⟩ := bind_eq_ok.mp h
  obtain ⟨polyVars, hvars, h⟩ := bind_eq_ok.mp h
  obtain ⟨polyError, herror, h⟩ := bind_eq_ok.mp h
  obtain ⟨phase1, -, h⟩ := bind_eq_ok.mp h
  obtain ⟨phase2, -, h⟩ := bind_eq_ok.mp h
  obtain ⟨_, -, h⟩ := bind_eq_ok.mp h
  obtain ⟨_, -, h⟩ := bind_eq_ok.mp h
  obtain ⟨_, hproveW, h⟩ := bind_eq_ok.mp h
  obtain ⟨_, hproveE, -⟩ := bind_eq_ok.mp h
  rw [denseNew_eq hW, Except.ok.injEq] at hvars
  rw [denseNew_eq hE, Except.ok.injEq] at herror
  subst hvars herror
  exact ⟨⟨_, _, _, _, _, hproveW⟩, ⟨_, _, _, _, _, hproveE⟩⟩

omit [DecidableEq F] in
/-- `R1CSInstance::evaluate` gives the evaluations of the three matrices. -/
theorem evaluate_shape_eq {E : Type} (hshape : shape.Padded s m) {rx ry : List F}
    (hrx : rx.length = s) (hry : ry.length = m + 1) : (shape.evaluate rx ry : Run E _) =
      .ok (SparseMatPolynomial.form shape.A.M (eqEvals rx) (eqEvals ry),
        SparseMatPolynomial.form shape.B.M (eqEvals rx) (eqEvals ry),
        SparseMatPolynomial.form shape.C.M (eqEvals rx) (eqEvals ry)) := by
  obtain ⟨hA, hB, hC⟩ := hshape.inRange'
  obtain ⟨hAX, hBX, hCX⟩ := hshape.varsX
  obtain ⟨hAY, hBY, hCY⟩ := hshape.varsY
  have hx : (eqEvals rx).length = 2 ^ s := by rw [length_eqEvals, hrx]
  have hy : (eqEvals ry).length = 2 ^ (m + 1) := by rw [length_eqEvals, hry]
  exact bind_eq_ok.mpr ⟨_, SparseMatPolynomial.evaluateWithTables_eq hA hx hy (by rw [hAX])
    (by rw [hAY]), bind_eq_ok.mpr ⟨_, SparseMatPolynomial.evaluateWithTables_eq hB hx hy
    (by rw [hBX]) (by rw [hBY]), bind_eq_ok.mpr ⟨_, SparseMatPolynomial.evaluateWithTables_eq hC hx
    hy (by rw [hCX]) (by rw [hCY]), rfl⟩⟩⟩

variable {srs : PC.SRS}

/-- **Completeness** of a satisfied pair for a key with the number of variables of both vectors. -/
theorem provesAndVerifies_of_size (hPC : PC.OpensKeySize) (hsix : (6 : F) ≠ 0)
    (hshape : shape.Padded s m) (heq : s = m) (h : Satisfied shape inst witness)
    (hkey : PC.trim srs m = .ok (key.ck, key.vk))
    (hcommW : PC.commit ⟨m, witness.W⟩ key.ck = .ok inst.comm_W)
    (hcommE : PC.commit ⟨s, witness.E⟩ key.ck = .ok inst.comm_E) (st : T.State) :
    ProvesAndVerifies shape inst witness key st := by
  subst heq
  have htwo : (2 : F) ≠ 0 := by
    intro hzero
    apply hsix
    linear_combination 3 * hzero
  have hinput := h.input_lt hshape
  have hW : witness.W.length = 2 ^ s := h.W.trans hshape.vars
  have hE : witness.E.length = 2 ^ s := h.E.trans hshape.cons
  let st0 := absorbInstance inst (T.appendProtocolName st "CRR1CS proof")
  obtain ⟨phase1, hphase1, hfirst⟩ := proveFirst_complete (E := Empty) hsix hshape h st0
  let z := paddedAssignment witness.W inst.input inst.u
  have hz : z.length = 2 ^ (s + 1) := length_paddedAssignment hW hinput inst.u
  let claims := (phaseClaims phase1).1
  have hclaims : claims = (SparseMatPolynomial.form shape.A.M (eqEvals phase1.r) z,
      SparseMatPolynomial.form shape.B.M (eqEvals phase1.r) z,
      SparseMatPolynomial.form shape.C.M (eqEvals phase1.r) z) := by
    show (phaseClaims phase1).1 = _
    rw [hfirst.claims]
  have heClaim : (phaseClaims phase1).2 = valueAt witness.E phase1.r := by rw [hfirst.claims]
  let r := (absorbClaims claims (phaseClaims phase1).2 phase1.st).1
  let st1 := (absorbClaims claims (phaseClaims phase1).2 phase1.st).2
  obtain ⟨phase2, hphase2, hry, hverified2⟩ := proveSecond_complete (E := Empty) htwo hshape hz
    hfirst.randomness hclaims r st1
  obtain ⟨ry0, rs, hcons⟩ : ∃ ry0 rs, phase2.r = ry0 :: rs :=
    List.exists_cons_of_length_eq_add_one hry
  have hrs : rs.length = s := by
    rw [hcons] at hry
    exact Nat.succ.inj hry
  have hne : phase2.r ≠ [] := by
    rw [hcons]
    exact List.cons_ne_nil ry0 rs
  have htail : phase2.r.tail = rs := by rw [hcons, List.tail_cons]
  have hevaluate : ((⟨s, witness.W⟩ : DensePolynomial F).evaluate phase2.r.tail : Run Empty F) =
      .ok (valueAt witness.W rs) := by
    rw [htail]
    exact evaluate_eq hrs hW
  obtain ⟨proofW, st2, hproveW, hverifyW⟩ := hPC.complete hkey hW hcommW hrs phase2.st
  obtain ⟨proofE, st3, hproveE, hverifyE⟩ :=
    hPC.complete hkey hE hcommE hfirst.randomness st2
  have hlogCons : ∀ E : Type, (log2 shape.numCons : Run E ℕ) = .ok s := by
    intro E
    have hpos := Nat.two_pow_pos s
    exact log2_eq_ok.mpr ⟨by rw [hshape.cons]; omega, by rw [hshape.cons, clog_two_pow]⟩
  have hlogVars : ∀ E : Type, (log2 shape.numVars : Run E ℕ) = .ok s := by
    intro E
    have hpos := Nat.two_pow_pos s
    exact log2_eq_ok.mpr ⟨by rw [hshape.vars]; omega, by rw [hshape.vars, clog_two_pow]⟩
  have hlogTwice : ∀ E : Type, (log2 (2 * shape.numVars) : Run E ℕ) = .ok (s + 1) := by
    intro E
    have hpow : 2 * shape.numVars = 2 ^ (s + 1) := by rw [hshape.vars, pow_succ, mul_comm]
    have hpos := Nat.two_pow_pos (s + 1)
    exact log2_eq_ok.mpr ⟨by omega, by rw [hpow, clog_two_pow]⟩
  let proof : CRR1CSProof PC :=
    { scProofPhase1 := phase1.proof, claimsPhase2 := claims, scProofPhase2 := phase2.proof
      evalVarsAtRy := valueAt witness.W rs, proofEvalVarsAtRy := proofW
      evalErrorAtRx := (phaseClaims phase1).2, proofEvalErrorAtRx := proofE }
  refine ⟨proof, phase1.r, phase2.r, st3, ?_, _, evaluate_shape_eq hshape hfirst.randomness hry, ?_⟩
  · have hproveW' : PC.prove (some inst.comm_W) ⟨s, witness.W⟩ phase2.r.tail
        (valueAt witness.W rs) key.ck phase2.st = .ok (proofW, st2) := by
      rw [htail]
      exact hproveW
    have hproveE' : PC.prove (some inst.comm_E) ⟨s, witness.E⟩ phase1.r (phaseClaims phase1).2
        key.ck st2 = .ok (proofE, st3) := by
      rw [heClaim]
      exact hproveE
    exact bind_eq_ok.mpr ⟨(), assert_eq_ok.mpr hinput, bind_eq_ok.mpr ⟨_, denseNew_eq hW,
      bind_eq_ok.mpr ⟨_, denseNew_eq hE, bind_eq_ok.mpr ⟨_, hphase1, bind_eq_ok.mpr ⟨_, hphase2,
      bind_eq_ok.mpr ⟨(), assert_eq_ok.mpr hne, bind_eq_ok.mpr ⟨_, hevaluate, bind_eq_ok.mpr
      ⟨(proofW, st2), hproveW', bind_eq_ok.mpr ⟨(proofE, st3), hproveE', rfl⟩⟩⟩⟩⟩⟩⟩⟩⟩
  · -- the verifier goes through the same states of the transcript
    have hopenW : ((PC.verify inst.comm_W proofW key.vk phase2.st phase2.r.tail
        (valueAt witness.W rs)).mapError fun _ => ProofVerifyError.internalError) = .ok st2 := by
      rw [htail]
      exact mapError_eq_ok.mpr hverifyW
    have hopenE : ((PC.verify inst.comm_E proofE key.vk st2 phase1.r
        (phaseClaims phase1).2).mapError fun _ => ProofVerifyError.internalError) = .ok st3 := by
      rw [heClaim]
      exact mapError_eq_ok.mpr hverifyE
    have hsparse : (SparsePolynomial.evaluate ⟨s, sparseInput inst.u inst.input⟩ phase2.r.tail :
        Run ProofVerifyError F) =
          .ok (valueAt (publicHalf witness.W.length inst.input inst.u) rs) := by
      rw [htail]
      exact evaluate_sparseInput hW hinput inst.u hrs
    have hfinal : ((1 - phase2.r.headD 0) * valueAt witness.W rs + phase2.r.headD 0 *
        valueAt (publicHalf witness.W.length inst.input inst.u) rs) *
          combinedForm shape r (eqEvals phase1.r) (eqEvals phase2.r) =
        valueAt z phase2.r * combinedForm shape r (eqEvals phase1.r) (eqEvals phase2.r) := by
      rw [hcons, List.headD_cons]
      congr 1
      exact (valueAt_paddedAssignment hW hinput inst.u ry0 hrs).symm
    exact bind_eq_ok.mpr ⟨s, hlogCons _, bind_eq_ok.mpr ⟨s + 1, hlogTwice _, bind_eq_ok.mpr
      ⟨_, hfirst.verified _, bind_eq_ok.mpr ⟨(), assert_eq_ok.mpr rfl, bind_eq_ok.mpr
      ⟨_, hverified2 _, bind_eq_ok.mpr ⟨(), assert_eq_ok.mpr hne, bind_eq_ok.mpr ⟨st2, hopenW,
      bind_eq_ok.mpr ⟨st3, hopenE, bind_eq_ok.mpr ⟨s, hlogVars _, bind_eq_ok.mpr ⟨_, hsparse,
      bind_eq_ok.mpr ⟨(), assert_eq_ok.mpr hfinal, rfl⟩⟩⟩⟩⟩⟩⟩⟩⟩⟩⟩

variable {w : CRR1CSWitness F}

omit [DecidableEq F] in
/-- **The padding of the prover** makes vectors of the sizes of the shape. -/
theorem padWitness_eq {E : Type} (h : Fits shape inst w) :
    (padWitness shape w : Run E _) = .ok ⟨padTo shape.numVars w.W, padTo shape.numCons w.E⟩ := by
  have hE : (if w.E.length < shape.numCons then padTo shape.numCons w.E else w.E) =
      padTo shape.numCons w.E := by
    by_cases hlt : w.E.length < shape.numCons
    · rw [if_pos hlt]
    · have heq : w.E.length = shape.numCons := le_antisymm h.E (Nat.not_lt.mp hlt)
      rw [if_neg hlt, ← heq, padTo_length]
  rw [← hE]
  exact bind_eq_ok.mpr ⟨_, padVars_eq h.W, rfl⟩

/-- The check of a pair only returns on vectors that fit the shape. -/
theorem fits_of_isSat {b : Bool} (h : relaxedR1csIsSat shape inst w = .ok b) :
    Fits shape inst w := by
  obtain ⟨_, hW, h⟩ := bind_eq_ok.mp h
  obtain ⟨_, hinput, h⟩ := bind_eq_ok.mp h
  obtain ⟨_, -, h⟩ := bind_eq_ok.mp h
  obtain ⟨_, -, h⟩ := bind_eq_ok.mp h
  obtain ⟨_, -, h⟩ := bind_eq_ok.mp h
  obtain ⟨_, -, h⟩ := bind_eq_ok.mp h
  obtain ⟨_, -, h⟩ := bind_eq_ok.mp h
  obtain ⟨_, -, h⟩ := bind_eq_ok.mp h
  obtain ⟨_, -, h⟩ := bind_eq_ok.mp h
  obtain ⟨_, hE, -⟩ := bind_eq_ok.mp h
  rw [failIf_eq_ok, not_lt] at hW
  rw [failIf_eq_ok, not_not] at hinput
  rw [assert_eq_ok] at hE
  refine ⟨hinput, hW, ?_⟩
  by_contra hlt
  rw [if_neg (by omega)] at hE
  omega

/-- A satisfied pair stays satisfied when it is padded. -/
theorem satisfied_of_isSat (hshape : shape.Padded s m)
    (h : relaxedR1csIsSat shape inst w = .ok true)
    (hpad : (padWitness shape w : Run Empty _) = .ok witness) : Satisfied shape inst witness := by
  have hfits := fits_of_isSat h
  rw [relaxedR1csIsSat_eq hshape.inRange hfits, Except.ok.injEq, all_rowHolds_iff] at h
  rw [padWitness_eq hfits, Except.ok.injEq] at hpad
  subst hpad
  have hW := length_padTo hfits.W
  refine ⟨hfits.input, hW, length_padTo hfits.E, fun i hi => ?_⟩
  have hz : assignment shape inst
      ⟨padTo shape.numVars w.W, padTo shape.numCons w.E⟩ = assignment shape inst w := by
    have hagain : padTo shape.numVars (padTo shape.numVars w.W) = padTo shape.numVars w.W := by
      have hlen := padTo_length (padTo shape.numVars w.W)
      rwa [hW] at hlen
    rw [assignment, assignment, hagain]
  rw [RowHolds, hz, getD_padTo hfits.E]
  exact h i hi

variable [DecidableEq C]

omit [Field F] [DecidableEq F] in
theorem of_checkCommitments (hW : witness.W.length = 2 ^ m) (hE : witness.E.length = 2 ^ s)
    (h : checkCommitments inst witness key = .ok true) :
    PC.commit ⟨m, witness.W⟩ key.ck = .ok inst.comm_W ∧
      PC.commit ⟨s, witness.E⟩ key.ck = .ok inst.comm_E := by
  obtain ⟨_, hpolyW, h⟩ := bind_eq_ok.mp h
  obtain ⟨_, hpolyE, h⟩ := bind_eq_ok.mp h
  obtain ⟨c, hc, h⟩ := bind_eq_ok.mp h
  obtain ⟨c', hc', heq⟩ := bind_eq_ok.mp h
  rw [denseNew_eq hW, Except.ok.injEq] at hpolyW
  rw [denseNew_eq hE, Except.ok.injEq] at hpolyE
  rw [Except.ok.injEq, decide_eq_true_iff] at heq
  obtain ⟨rfl, rfl⟩ := heq
  rw [hpolyW, hpolyE]
  exact ⟨hc, hc'⟩

omit [Field F] [DecidableEq F] [DecidableEq C] in
/-- **The key** is for the larger number of variables. -/
theorem of_keyNew {numCons numVars : ℕ} (hcons : numCons = 2 ^ s) (hvars : numVars = 2 ^ m)
    (h : CRR1CSKey.new srs numCons numVars = .ok key) :
    PC.trim srs (max s m) = .ok (key.ck, key.vk) := by
  obtain ⟨n, hn, h⟩ := bind_eq_ok.mp h
  obtain ⟨keys, hkeys, heq⟩ := bind_eq_ok.mp h
  have hmax : max numCons numVars = 2 ^ max s m := by
    rw [hcons, hvars]
    rcases Nat.le_total s m with hle | hle
    · rw [max_eq_right hle, max_eq_right (Nat.pow_le_pow_right two_pos hle)]
    · rw [max_eq_left hle, max_eq_left (Nat.pow_le_pow_right two_pos hle)]
  obtain ⟨-, hn⟩ := log2_eq_ok.mp hn
  rw [hmax, clog_two_pow] at hn
  rw [hn]
  cases heq
  exact hkeys

/-- **Proofs of committed relaxed R1CS are complete exactly for as many constraints as variables**,
both padded: the witness and the error vector are opened with one key. -/
theorem crr1cs_complete_iff (hPC : PC.OpensKeySize) (hsix : (6 : F) ≠ 0)
    {numCons numVars numInputs : ℕ} {A B M : List (ℕ × ℕ × F)}
    (hshape : Instance.new numCons numVars numInputs A B M = .ok shape)
    (hkey : CRR1CSKey.new srs shape.numCons shape.numVars = .ok key)
    (hsat : relaxedR1csIsSat shape inst w = .ok true)
    (hpad : (padWitness shape w : Run Empty _) = .ok witness)
    (hcomm : checkCommitments inst witness key = .ok true) (st : T.State) :
    ProvesAndVerifies shape inst witness key st ↔
      numConsPadded numCons = numVarsPadded numVars numInputs := by
  obtain ⟨hcons, hvars, s, m, hpadded⟩ := padded_of_instanceNew hshape
  have h := satisfied_of_isSat hpadded hsat hpad
  have hW : witness.W.length = 2 ^ m := h.W.trans hpadded.vars
  have hE : witness.E.length = 2 ^ s := h.E.trans hpadded.cons
  have htrim := of_keyNew hpadded.cons hpadded.vars hkey
  obtain ⟨hcommW, hcommE⟩ := of_checkCommitments hW hE hcomm
  rw [← hcons, ← hvars, hpadded.cons, hpadded.vars]
  constructor
  · rintro ⟨proof, rx, ry, st', hprove, -⟩
    obtain ⟨⟨_, _, _, _, _, hW'⟩, ⟨_, _, _, _, _, hE'⟩⟩ := of_prove_eq_ok hW hE hprove
    by_contra hne
    have hsm : s ≠ m := fun heq => hne (by rw [heq])
    rcases Nat.lt_or_ge s m with hlt | hge
    · have hsize : s ≠ max s m := by omega
      rw [hPC.panics htrim hsize] at hE'
      cases hE'
    · have hsize : m ≠ max s m := by omega
      rw [hPC.panics htrim hsize] at hW'
      cases hW'
  · intro heq
    have hsm : s = m := Nat.pow_right_injective (le_refl 2) heq
    rw [hsm, max_self] at htrim
    exact provesAndVerifies_of_size hPC hsix hpadded hsm h htrim hcommW hcommE st

end Openings

/-! ## A scheme in the clear -/

section Clear

variable (F : Type) [Field F] [DecidableEq F]

/-- The transcript that always answers `0`. -/
def zeroTranscript (C : Type) : Transcript F C where
  State := Unit
  appendMessage _ _ _ := ()
  challengeScalar _ _ := (0, ())

/-- Commitments are the evaluations; keys only know their number of variables. -/
def clearScheme : PolyCommitmentScheme F (List F) (zeroTranscript F (List F)) where
  SRS := ℕ
  PolyCommitmentKey := ℕ
  EvalVerifierKey := ℕ
  PolyCommitmentProof := Unit
  commit poly _ := .ok poly.Z
  prove _ poly _ _ ck st := do
    Run.assert (poly.numVars = ck)
    .ok ((), st)
  verify c _ vk st u v := do
    Run.assert (u.length = vk)
    Run.failIf (valueAt c u ≠ v) .evalVerifierFailure
    .ok st
  trim srs n := do
    Run.assert (n ≤ srs)
    .ok (n, n)

theorem opensKeySize_clearScheme : (clearScheme F).OpensKeySize where
  panics := by
    intro srs n keys hkeys poly hpoly c u v st
    obtain ⟨_, -, hkeys⟩ := bind_eq_ok.mp hkeys
    obtain rfl := (Except.ok.inj hkeys).symm
    show ((Run.assert (poly.numVars = n)) >>= _) = _
    rw [Run.assert, if_neg hpoly]
    rfl
  complete := by
    intro srs n keys hkeys Z hZ c hc u hu st
    obtain ⟨_, -, hkeys⟩ := bind_eq_ok.mp hkeys
    obtain rfl := (Except.ok.inj hkeys).symm
    obtain rfl := Except.ok.inj hc
    exact ⟨(), st, bind_eq_ok.mpr ⟨(), assert_eq_ok.mpr rfl, rfl⟩, bind_eq_ok.mpr ⟨(),
      assert_eq_ok.mpr hu, bind_eq_ok.mpr ⟨(), failIf_eq_ok.mpr (not_not_intro rfl), rfl⟩⟩⟩

end Clear

/-- `z0 * z0 = z1`, the first of `numCons` constraints. -/
def squareShape (numCons : ℕ) : R1CSInstance (ZMod fr) :=
  paddedInstance numCons 2 0 [(0, 0, 1)] [(0, 0, 1)] [(0, 1, 1)]

def squareWitness (numCons : ℕ) : CRR1CSWitness (ZMod fr) := ⟨[3, 9], List.replicate numCons 0⟩

def squareInstance (numCons : ℕ) : CRR1CSInstance (ZMod fr) (List (ZMod fr)) :=
  ⟨[], 1, [3, 9], List.replicate numCons 0⟩

/-- Any key in the clear is for its number of variables. -/
def clearKey (n : ℕ) : CRR1CSKey (clearScheme (ZMod fr)) := ⟨n, n⟩

theorem squareShape_eq {numCons : ℕ} (h : 0 < numCons) :
    Instance.new numCons 2 0 [(0, 0, 1)] [(0, 0, 1)] [(0, 1, 1)] = .ok (squareShape numCons) := by
  have hentry : ∀ col < 3, ∀ tup ∈ [((0, col, 1) : ℕ × ℕ × ZMod fr)],
      tup.1 < numCons ∧ tup.2.1 < 2 + 1 + 0 := by
    intro col hcol tup htup
    obtain rfl := List.mem_singleton.mp htup
    exact ⟨h, hcol⟩
  exact instanceNew_eq (hentry 0 (by decide)) (hentry 0 (by decide)) (hentry 1 (by decide))

theorem clearKey_eq {numCons n : ℕ} (hne : numConsPadded numCons ≠ 0)
    (h : Nat.clog 2 (max (numConsPadded numCons) 2) = n) :
    CRR1CSKey.new n (squareShape numCons).numCons (squareShape numCons).numVars =
      .ok (clearKey n) := by
  have hmax : max (numConsPadded numCons) (numVarsPadded 2 0) ≠ 0 := by omega
  refine bind_eq_ok.mpr ⟨n, log2_eq_ok.mpr ⟨hmax, h⟩, bind_eq_ok.mpr ⟨(n, n), ?_, rfl⟩⟩
  exact bind_eq_ok.mpr ⟨(), assert_eq_ok.mpr (le_refl n), rfl⟩

theorem squareWitness_eq (numCons : ℕ) : (padWitness (squareShape numCons) ⟨[3, 9], []⟩ :
    Run Empty _) = .ok (squareWitness (numConsPadded numCons)) := by
  have hfits : Fits (squareShape numCons) (squareInstance numCons) ⟨[3, 9], []⟩ :=
    ⟨rfl, le_refl 2, Nat.zero_le _⟩
  have hE : padTo (numConsPadded numCons) ([] : List (ZMod fr)) =
      List.replicate (numConsPadded numCons) 0 := by
    rw [padTo, List.take_nil]
    rfl
  rw [padWitness_eq hfits, squareWitness, ← hE]
  rfl

/-- Two constraints on two variables: the proof is accepted. -/
theorem square_accepted : ProvesAndVerifies (squareShape 2) (squareInstance 2) (squareWitness 2)
    (clearKey 1) () :=
  (crr1cs_complete_iff (opensKeySize_clearScheme (ZMod fr)) (by decide +kernel)
    (squareShape_eq two_pos) (clearKey_eq (by decide) (by decide)) (w := ⟨[3, 9], []⟩)
    (by decide +kernel) (squareWitness_eq 2) (by decide +kernel) ()).mpr (by decide)

/-- Four constraints on two variables: the key is for two variables, and the opening of the
witness, a polynomial in one variable, panics. -/
theorem square_panics : (clearScheme (ZMod fr)).OpensKeySize ∧
    Instance.new 4 2 0 [(0, 0, 1)] [(0, 0, 1)] [(0, 1, 1)] = .ok (squareShape 4) ∧
    CRR1CSKey.new (2 : ℕ) (squareShape 4).numCons (squareShape 4).numVars = .ok (clearKey 2) ∧
    relaxedR1csIsSat (squareShape 4) (squareInstance 4) ⟨[3, 9], []⟩ = .ok true ∧
    (padWitness (squareShape 4) ⟨[3, 9], []⟩ : Run Empty _) = .ok (squareWitness 4) ∧
    checkCommitments (squareInstance 4) (squareWitness 4) (clearKey 2) = .ok true ∧
    CRR1CSProof.prove (squareShape 4) (squareInstance 4) (squareWitness 4) (clearKey 2) () =
      .error .panic := by
  refine ⟨opensKeySize_clearScheme (ZMod fr), squareShape_eq four_pos,
    clearKey_eq (by decide) (by decide), by decide +kernel, squareWitness_eq 4,
    by decide +kernel, ?_⟩
  cases h : CRR1CSProof.prove (squareShape 4) (squareInstance 4) (squareWitness 4) (clearKey 2)
      () with
  | ok res =>
      obtain ⟨⟨c, u, v, st, out, hprove⟩, -⟩ := of_prove_eq_ok (m := 1) (s := 2) rfl rfl h
      have hsize : (1 : ℕ) = 2 := by
        obtain ⟨_, hsize, -⟩ := bind_eq_ok.mp hprove
        exact assert_eq_ok.mp hsize
      cases hsize
  | error e =>
      cases e with
      | panic => rfl
      | error e => cases e

end NexusVm.Spartan
