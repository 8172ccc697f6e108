import NexusVm.Nova.LccsFold
import NexusVm.Nova.Nimfs

/-!
# The reducer of the fold tree

`nova/src/tree_folding/hypernova_fold_reducer.rs` over the prover of
`nova/src/ccs/lccs_fold.rs`.  A leaf becomes a linearized instance whose point and
targets are zeros; every fold runs on a random oracle of its own.
-/

namespace NexusVm.Nova

section OracleRun

variable {F C B E α β : Type} {O : RandomOracle F C B}

/-- A call that may fail and that changes the oracle, also where it fails. -/
abbrev OracleRun (O : RandomOracle F C B) (E α : Type) : Type :=
  ExceptT (Failure E) (StateM O.State) α

/-- The outcome of a call from an oracle's state. -/
def OracleRun.exec (x : OracleRun O E α) (st : O.State) : Run E α × O.State := x.run.run st

/-- A call that leaves the oracle alone. -/
def OracleRun.lift (x : Run E α) : OracleRun O E α := fun st => (x, st)

/-- A challenge. -/
def OracleRun.squeeze (f : O.State → α × O.State) : OracleRun O E α :=
  fun st => (.ok (f st).1, (f st).2)

/-- A subprotocol, which only fails before it uses the oracle. -/
def OracleRun.subprotocol (f : O.State → Run E (α × O.State)) : OracleRun O E α :=
  fun st =>
    match f st with
    | .ok (a, st') => (.ok a, st')
    | .error e => (.error e, st)

theorem exec_bind (x : OracleRun O E α) (f : α → OracleRun O E β) (st : O.State) :
    OracleRun.exec (x >>= f) st =
      match x.exec st with
      | (.ok a, st') => OracleRun.exec (f a) st'
      | (.error e, st') => (.error e, st') := by
  show (match (x.run.run st) with
    | (a, st') => (ExceptT.bindCont f a).run st') = _
  show _ = match (x.run.run st) with
    | (.ok a, st') => OracleRun.exec (f a) st'
    | (.error e, st') => (.error e, st')
  cases x.run.run st with
  | mk a st' => cases a <;> rfl

/-- A call returns if its parts do. -/
theorem exec_bind_eq_ok {x : OracleRun O E α} {f : α → OracleRun O E β} {st st'' : O.State}
    {b : β} : OracleRun.exec (x >>= f) st = (.ok b, st'') ↔
      ∃ a st', x.exec st = (.ok a, st') ∧ OracleRun.exec (f a) st' = (.ok b, st'') := by
  rw [exec_bind]
  rcases x.exec st with ⟨a | a, st'⟩
  · simp
  · simp

theorem exec_subprotocol_eq_ok {f : O.State → Run E (α × O.State)} {st st' : O.State} {a : α} :
    OracleRun.exec (OracleRun.subprotocol f) st = (.ok a, st') ↔ f st = .ok (a, st') := by
  show (match f st with
    | .ok (a, st') => ((.ok a : Run E α), st')
    | .error e => (.error e, st)) = _ ↔ _
  cases f st with
  | ok r => simp [Prod.ext_iff]
  | error e => simp

/-- A property of the oracle that a call keeps. -/
def OracleRun.Keeps (P : O.State → Prop) (x : OracleRun O E α) : Prop :=
  ∀ st, P st → P (x.exec st).2

theorem keeps_lift (P : O.State → Prop) (x : Run E α) : (OracleRun.lift x).Keeps P :=
  fun _ h => h

/-- A subprotocol keeps what it keeps where it returns. -/
theorem keeps_subprotocol {P : O.State → Prop} {f : O.State → Run E (α × O.State)}
    (h : ∀ st a st', P st → f st = .ok (a, st') → P st') : (OracleRun.subprotocol f).Keeps P := by
  intro st hst
  show P (match f st with
    | .ok (a, st') => ((.ok a : Run E α), st')
    | .error e => (.error e, st)).2
  cases hf : f st with
  | ok r => exact h st r.1 r.2 hst hf
  | error e => exact hst

theorem keeps_bind {P : O.State → Prop} {x : OracleRun O E α} {f : α → OracleRun O E β}
    (hx : x.Keeps P) (hf : ∀ a, (f a).Keeps P) : OracleRun.Keeps P (x >>= f) := by
  intro st h
  have hst := hx st h
  rw [exec_bind]
  cases hrun : x.exec st with
  | mk a st' =>
      rw [hrun] at hst
      cases a with
      | ok a => exact hf a st' hst
      | error e => exact hst

end OracleRun

namespace Ccs

section Prover

variable {F C B : Type} [Field F] [DecidableEq F] [AddCommGroup C] [Module F C]
  (M : MultilinearExtensions F) (O : RandomOracle F C B)

/-- Both summands of a matrix. -/
def addMatrices (shape : CCSShape F) (z1 z2 : List F) (eq1 eq2 : M.Mle) (gamma : F)
    (polynomial : Sumcheck.ListOfProductsOfPolynomials M) (j : ℕ) :
    Run Error (Sumcheck.ListOfProductsOfPolynomials M) := do
  let M_j_z1 ← matrixMle M shape z1 j
  let polynomial ← polynomial.addProduct [eq1, M_j_z1] (gamma ^ j)
  let M_j_z2 ← matrixMle M shape z2 j
  polynomial.addProduct [eq2, M_j_z2] (gamma ^ (shape.numMatrices + j))

/-- `construct_sumcheck_polynomial`. -/
def constructSumcheckPolynomial (shape : CCSShape F) (lccs1 lccs2 : LCCSInstance F C)
    (witness1 witness2 : CCSWitness F) (gamma : F) :
    Run Error (Sumcheck.ListOfProductsOfPolynomials M) := do
  let eq1 ← vecToArkMle M (eqEvals lccs1.rs)
  let eq2 ← vecToArkMle M (eqEvals lccs2.rs)
  -- `[0]` and `[1..]` of both inputs
  Run.assert (0 < lccs1.X.length)
  Run.assert (0 < lccs2.X.length)
  let z1 := lccs1.X ++ witness1.W
  let z2 := lccs2.X ++ witness2.W
  (List.range shape.numMatrices).foldlM (addMatrices M shape z1 z2 eq1 eq2 gamma)
    (.new lccs1.rs.length)

/-- `compute_sigmas`. -/
def computeSigmas (shape : CCSShape F) (lccs : LCCSInstance F C) (witness : CCSWitness F)
    (evalPoint : List F) : Run Error (List F) :=
  evaluations shape (lccs.X ++ witness.W) evalPoint

/-- `generate_folding_challenge`: the instances are not used. -/
def generateFoldingChallenge (st : O.State) : F × O.State := O.squeezeOne st

/-- `prove_folding`: the proof and the folded pair. -/
def proveFolding (shape : CCSShape F) (acc1 acc2 : LCCSInstance F C × CCSWitness F) :
    OracleRun O Error (LCCSFoldingProof F × LCCSInstance F C × CCSWitness F) := do
  let gamma ← OracleRun.squeeze (generateGammaChallenge O)
  let poly ← OracleRun.lift (constructSumcheckPolynomial M shape acc1.1 acc2.1 acc1.2 acc2.2 gamma)
  let (sumcheckProof, mergedRs) ← OracleRun.subprotocol fun st => do
    let (msgs, rs, st) ← Sumcheck.proveAsSubprotocol O poly st
    .ok ((msgs, rs), st)
  let sigmas1 ← OracleRun.lift (computeSigmas shape acc1.1 acc1.2 mergedRs)
  let sigmas2 ← OracleRun.lift (computeSigmas shape acc2.1 acc2.2 mergedRs)
  let rho ← OracleRun.squeeze (generateFoldingChallenge O)
  let foldedLccs ← OracleRun.lift (acc1.1.foldLccs acc2.1 rho sigmas1 sigmas2 mergedRs)
  let foldedWitness ← OracleRun.lift (acc1.2.fold acc2.2 rho)
  return (⟨sumcheckProof, poly.info, sigmas1, sigmas2, mergedRs, rho⟩, foldedLccs, foldedWitness)

end Prover

inductive HypernovaFoldError
  | ccs (e : Error)
  | foldingFailed (e : Error)
  | linearizationFailed (e : Error)
deriving DecidableEq

section Reducer

variable {F C B CK I : Type} [Field F] [DecidableEq F] [AddCommGroup C] [Module F C]
  (M : MultilinearExtensions F) {O : RandomOracle F C B}

/-- `HypernovaFoldReducer`.  `assignments` is the step circuit: the public input and
the witness of the constraint system that it synthesizes. -/
structure HypernovaFoldReducer (O : RandomOracle F C B) (CK I : Type) where
  shape : CCSShape F
  S : PolyCommitmentScheme F C CK
  ck : CK
  assignments : I → Run Error (List F × List F)
  newRandomOracle : O.State

variable (R : HypernovaFoldReducer O CK I)

/-- `synthesize_step_circuit_with_params`. -/
def HypernovaFoldReducer.synthesize (input : I) : Run Error (CCSInstance F C × CCSWitness F) := do
  let (public_assignment, witness_assignment) ← R.assignments input
  let witness ← CCSWitness.new R.shape witness_assignment
  let commitment_W ← witness.commit R.S R.ck
  let ccs_instance ← CCSInstance.new R.shape commitment_W public_assignment
  .ok (ccs_instance, witness)

/-- `strict_to_acc`: the point and the targets are placeholders. -/
def HypernovaFoldReducer.strictToAcc (input : I) :
    Run HypernovaFoldError (LCCSInstance F C × CCSWitness F) := do
  let (ccs_instance, witness) ← (R.synthesize input).mapError .linearizationFailed
  let commitment_W ← (witness.commit R.S R.ck).mapError .ccs
  let dummy_rs := List.replicate (safeLoglike R.shape.numConstraints) 0
  let dummy_vs := List.replicate R.shape.numMatrices 0
  let lccs_instance ← (LCCSInstance.new R.shape commitment_W ccs_instance.X dummy_rs
    dummy_vs).mapError .ccs
  .ok (lccs_instance, witness)

/-- `fold_acc_acc`, with the last state of the oracle that it creates. -/
def HypernovaFoldReducer.foldAccAcc (acc1 acc2 : LCCSInstance F C × CCSWitness F) :
    Run HypernovaFoldError ((LCCSInstance F C × CCSWitness F) × LCCSFoldingProof F) × O.State :=
  let (result, st) := (proveFolding M O R.shape acc1 acc2).exec R.newRandomOracle
  (do
    let (proof, foldedLccs, foldedWitness) ← result.mapError .foldingFailed
    .ok ((foldedLccs, foldedWitness), proof), st)

end Reducer

/-! ## What is absorbed before the first challenge and the polynomial of a fold -/

section Transcript

variable {F C B : Type}

/-- What an oracle has absorbed before its first challenge. -/
structure Transcript (F C : Type) where
  absorbed : List (Element F C)
  squeezed : Bool

/-- An oracle that keeps its transcript. -/
def recording (O : RandomOracle F C B) : RandomOracle F C B where
  State := O.State × Transcript F C
  absorb st elements :=
    (O.absorb st.1 elements,
      if st.2.squeezed then st.2 else { st.2 with absorbed := st.2.absorbed ++ elements })
  squeeze st n := ((O.squeeze st.1 n).1, (O.squeeze st.1 n).2, { st.2 with squeezed := true })
  squeezeTruncated st :=
    ((O.squeezeTruncated st.1).1, (O.squeezeTruncated st.1).2, { st.2 with squeezed := true })
  length_squeeze st n := O.length_squeeze st.1 n

/-- A recorded state after the first challenge. -/
def Recorded (O : RandomOracle F C B) (absorbed : List (Element F C))
    (st : (recording O).State) : Prop :=
  st.2 = ⟨absorbed, true⟩

variable {O : RandomOracle F C B} {absorbed : List (Element F C)}

variable {st : (recording O).State}

theorem Recorded.absorb (h : Recorded O absorbed st) (elements : List (Element F C)) :
    Recorded O absorbed ((recording O).absorb st elements) := by
  show (if st.2.squeezed then st.2 else _) = _
  rw [show st.2 = ⟨absorbed, true⟩ from h, if_pos rfl]

theorem Recorded.squeezeOne [Zero F] (h : Recorded O absorbed st) :
    Recorded O absorbed ((recording O).squeezeOne st).2 := by
  show { st.2 with squeezed := true } = _
  rw [show st.2 = ⟨absorbed, true⟩ from h]

variable [Field F] {M : MultilinearExtensions F}

theorem Recorded.proveRounds {degree n : ℕ} {products : List (F × List M.Mle)}
    (h : Recorded O absorbed st) :
    Recorded O absorbed (Sumcheck.proveRounds (recording O) degree n products st).2.2 := by
  induction n generalizing products st with
  | zero => exact h
  | succ n ih => exact ih (((h.absorb _).squeezeOne).absorb _)

end Transcript

section Binding

variable {F C B CK I : Type} [Field F] [DecidableEq F] [AddCommGroup C] [Module F C]
  (M : MultilinearExtensions F) {O : RandomOracle F C B}

/-- The same reducer with an oracle that keeps its transcript. -/
def HypernovaFoldReducer.recorded (R : HypernovaFoldReducer (F := F) (C := C) O CK I) :
    HypernovaFoldReducer (F := F) (C := C) (recording O) CK I :=
  { R with newRandomOracle := (R.newRandomOracle, ⟨[], false⟩) }

/-- What `fold_acc_acc` absorbs before its first challenge. -/
def HypernovaFoldReducer.absorbedBeforeChallenge (R : HypernovaFoldReducer (F := F) (C := C) O CK I)
    (children : (LCCSInstance F C × CCSWitness F) × (LCCSInstance F C × CCSWitness F)) :
    List (Element F C) :=
  (R.recorded.foldAccAcc M children.1 children.2).2.2.absorbed

variable {M}

omit [DecidableEq F] in
/-- After the first challenge a fold keeps the transcript. -/
theorem recorded_proveFolding (shape : CCSShape F) (acc1 acc2 : LCCSInstance F C × CCSWitness F)
    (st : (recording O).State) :
    Recorded O st.2.absorbed ((proveFolding M (recording O) shape acc1 acc2).exec st).2 := by
  have hrest : ∀ f : F → OracleRun (recording O) Error
      (LCCSFoldingProof F × LCCSInstance F C × CCSWitness F),
      (∀ gamma, (f gamma).Keeps (Recorded O st.2.absorbed)) →
      Recorded O st.2.absorbed (OracleRun.exec
        (OracleRun.squeeze (generateGammaChallenge (recording O)) >>= f) st).2 := by
    intro f hf
    rw [exec_bind]
    exact hf _ _ rfl
  apply hrest
  intro gamma
  refine keeps_bind (keeps_lift _ _) fun poly => ?_
  refine keeps_bind ?_ ?_
  · apply keeps_subprotocol
    intro st' a st'' h hrun
    obtain ⟨r, hprove, heq⟩ := bind_eq_ok.mp hrun
    obtain ⟨-, -, hrounds⟩ := bind_eq_ok.mp hprove
    obtain rfl := Except.ok.inj hrounds
    obtain ⟨-, rfl⟩ := Prod.ext_iff.mp (Except.ok.inj heq)
    exact (h.absorb _).proveRounds
  rintro ⟨sumcheckProof, mergedRs⟩
  refine keeps_bind (keeps_lift _ _) fun sigmas1 => ?_
  refine keeps_bind (keeps_lift _ _) fun sigmas2 => ?_
  refine keeps_bind (fun st' h => h.squeezeOne) fun rho => ?_
  refine keeps_bind (keeps_lift _ _) fun foldedLccs => ?_
  refine keeps_bind (keeps_lift _ _) fun foldedWitness => ?_
  intro st' h
  exact h

omit [DecidableEq F] in
/-- The first challenge of a fold comes from an oracle that has absorbed nothing. -/
theorem absorbedBeforeChallenge_eq_nil
    (R : HypernovaFoldReducer (F := F) (C := C) O CK I)
    (children : (LCCSInstance F C × CCSWitness F) × (LCCSInstance F C × CCSWitness F)) :
    R.absorbedBeforeChallenge M children = [] := by
  have h := recorded_proveFolding (M := M) R.shape children.1 children.2
    (R.recorded.newRandomOracle)
  exact congrArg Transcript.absorbed h

variable (M) in
/-- Children that differ leave different transcripts before the first challenge. -/
def HypernovaFoldReducer.Binds (R : HypernovaFoldReducer (F := F) (C := C) O CK I)
    (children children' : (LCCSInstance F C × CCSWitness F) × (LCCSInstance F C × CCSWitness F)) :
    Prop :=
  (children.1.1, children.2.1) ≠ (children'.1.1, children'.2.1) →
    R.absorbedBeforeChallenge M children ≠ R.absorbedBeforeChallenge M children'

omit [DecidableEq F] in
/-- **Folds are never bound to their children.**  The transcript tells no two
different pairs of instances apart. -/
theorem fold_binds_iff (M : MultilinearExtensions F)
    (R : HypernovaFoldReducer (F := F) (C := C) O CK I)
    (children children' :
      (LCCSInstance F C × CCSWitness F) × (LCCSInstance F C × CCSWitness F)) :
    R.Binds M children children' ↔
      (children.1.1, children.2.1) = (children'.1.1, children'.2.1) := by
  unfold HypernovaFoldReducer.Binds
  rw [absorbedBeforeChallenge_eq_nil, absorbedBeforeChallenge_eq_nil]
  constructor
  · intro h
    by_contra hne
    exact h hne rfl
  · intro heq hne
    exact absurd heq hne

end Binding

section Polynomial

variable {F : Type} [Field F] {M : MultilinearExtensions F} {shape : CCSShape F}

/-- The products of a fold, for the extensions of the matrix products. -/
def foldProducts (t : ℕ) (gamma : F) (eq1 eq2 : M.Mle) (L1 L2 : ℕ → M.Mle) (js : List ℕ) :
    List (F × List M.Mle) :=
  js.flatMap fun j => [(gamma ^ j, [eq1, L1 j]), (gamma ^ (t + j), [eq2, L2 j])]

variable {L1 L2 : ℕ → M.Mle}

/-- The loop over the matrices. -/
theorem foldlM_addMatrices {z1 z2 : List F} {eq1 eq2 : M.Mle} {s : ℕ} (gamma : F) {js : List ℕ}
    (h1 : ∀ j ∈ js, matrixMle M shape z1 j = .ok (L1 j) ∧ M.numVars (L1 j) = s)
    (h2 : ∀ j ∈ js, matrixMle M shape z2 j = .ok (L2 j) ∧ M.numVars (L2 j) = s)
    (heq1 : M.numVars eq1 = s) (heq2 : M.numVars eq2 = s)
    {g : Sumcheck.ListOfProductsOfPolynomials M} (hg : g.numVariables = s) :
    js.foldlM (addMatrices M shape z1 z2 eq1 eq2 gamma) g =
      .ok ⟨if js = [] then g.maxMultiplicands else max g.maxMultiplicands 2, s,
        g.products ++ foldProducts shape.numMatrices gamma eq1 eq2 L1 L2 js⟩ := by
  induction js generalizing g with
  | nil =>
      rw [foldProducts, List.flatMap_nil, List.append_nil, if_pos rfl, ← hg]
      rfl
  | cons j js ih =>
      rw [List.forall_mem_cons] at h1 h2
      let g₁ : Sumcheck.ListOfProductsOfPolynomials M :=
        ⟨max g.maxMultiplicands 2, s, g.products ++ [(gamma ^ j, [eq1, L1 j])]⟩
      let g₂ : Sumcheck.ListOfProductsOfPolynomials M :=
        ⟨max g₁.maxMultiplicands 2, s,
          g₁.products ++ [(gamma ^ (shape.numMatrices + j), [eq2, L2 j])]⟩
      have hadd₁ : (g.addProduct [eq1, L1 j] (gamma ^ j) : Run Error _) = .ok g₁ := by
        rw [Sumcheck.addProduct_eq_ok, List.forall_mem_cons, List.forall_mem_singleton, hg]
        exact ⟨List.cons_ne_nil _ _, ⟨heq1, h1.1.2⟩, rfl⟩
      have hadd₂ : (g₁.addProduct [eq2, L2 j] (gamma ^ (shape.numMatrices + j)) : Run Error _) =
          .ok g₂ := by
        rw [Sumcheck.addProduct_eq_ok, List.forall_mem_cons, List.forall_mem_singleton]
        exact ⟨List.cons_ne_nil _ _, ⟨heq2, h2.1.2⟩, rfl⟩
      have hstep : addMatrices M shape z1 z2 eq1 eq2 gamma g j = .ok g₂ :=
        bind_eq_ok.mpr ⟨_, h1.1.1, bind_eq_ok.mpr ⟨_, hadd₁,
          bind_eq_ok.mpr ⟨_, h2.1.1, hadd₂⟩⟩⟩
      have hrest := ih h1.2 h2.2 (g := g₂) rfl
      rw [List.foldlM_cons]
      refine bind_eq_ok.mpr ⟨g₂, hstep, ?_⟩
      rw [hrest, if_neg (List.cons_ne_nil j js)]
      have hmax : (if js = [] then g₂.maxMultiplicands else max g₂.maxMultiplicands 2) =
          max g.maxMultiplicands 2 := by
        simp [g₂, g₁]
      rw [hmax]
      simp [g₂, g₁, foldProducts]

theorem sized_foldProducts {t s : ℕ} {gamma : F} {eq1 eq2 : M.Mle} {js : List ℕ}
    (h1 : ∀ j ∈ js, M.numVars (L1 j) = s) (h2 : ∀ j ∈ js, M.numVars (L2 j) = s)
    (heq1 : M.numVars eq1 = s) (heq2 : M.numVars eq2 = s) :
    Sumcheck.Sized 2 s (foldProducts t gamma eq1 eq2 L1 L2 js) := by
  intro product hproduct
  obtain ⟨j, hj, hproduct⟩ := List.mem_flatMap.mp hproduct
  rcases List.mem_cons.mp hproduct with rfl | hproduct
  · rw [List.forall_mem_cons, List.forall_mem_singleton]
    exact ⟨le_refl 2, heq1, h1 j hj⟩
  · rw [List.mem_singleton.mp hproduct, List.forall_mem_cons, List.forall_mem_singleton]
    exact ⟨le_refl 2, heq2, h2 j hj⟩

theorem combine_foldProducts (t : ℕ) (gamma : F) (eq1 eq2 : M.Mle) (L1 L2 : ℕ → M.Mle)
    (js : List ℕ) (value : M.Mle → F) :
    Sumcheck.combine (foldProducts t gamma eq1 eq2 L1 L2 js) value =
      (js.map fun j => gamma ^ j * (value (L1 j) * value eq1) +
        gamma ^ (t + j) * (value (L2 j) * value eq2)).sum := by
  induction js with
  | nil => rfl
  | cons j js ih =>
      have hcons : foldProducts t gamma eq1 eq2 L1 L2 (j :: js) =
          [(gamma ^ j, [eq1, L1 j]), (gamma ^ (t + j), [eq2, L2 j])] ++
            foldProducts t gamma eq1 eq2 L1 L2 js := rfl
      rw [hcons, Sumcheck.combine_append, ih, List.map_cons, List.sum_cons]
      simp [Sumcheck.combine, Sumcheck.productOf]
      ring

/-- **The claimed sum.**  Over the hypercube the products of a fold are the
evaluations of both instances, each at its own point. -/
theorem hypercubeSum_foldProducts {z1 z2 rs1 rs2 : List F} {gamma : F} {eq1 eq2 : M.Mle}
    (hm : 2 ≤ shape.numConstraints) (hrs1 : rs1.length = safeLoglike shape.numConstraints)
    (hrs2 : rs2.length = safeLoglike shape.numConstraints)
    (h1 : ∀ j < shape.numMatrices, matrixMle M shape z1 j = .ok (L1 j))
    (h2 : ∀ j < shape.numMatrices, matrixMle M shape z2 j = .ok (L2 j))
    (heq1 : (vecToArkMle M (eqEvals rs1) : Run Error M.Mle) = .ok eq1)
    (heq2 : (vecToArkMle M (eqEvals rs2) : Run Error M.Mle) = .ok eq2) :
    Sumcheck.hypercubeSum (safeLoglike shape.numConstraints)
        (foldProducts shape.numMatrices gamma eq1 eq2 L1 L2 (List.range shape.numMatrices)) =
      ∑ j ∈ Finset.range shape.numMatrices,
        (gamma ^ j * mleAt (matrixProduct shape z1 j) rs1 +
          gamma ^ (shape.numMatrices + j) * mleAt (matrixProduct shape z2 j) rs2) := by
  have hsum : ∀ {z rs : List F} {j : ℕ} {m eqrs : M.Mle}, j < shape.numMatrices →
      rs.length = safeLoglike shape.numConstraints → matrixMle M shape z j = .ok m →
      (vecToArkMle M (eqEvals rs) : Run Error M.Mle) = .ok eqrs →
      ∑ b ∈ Finset.range (2 ^ safeLoglike shape.numConstraints), M.index m b * M.index eqrs b =
        mleAt (matrixProduct shape z j) rs := by
    intro z rs j m eqrs hj hrs hmle heq
    have hlen := length_matrixProduct z hj
    rw [← hlen] at hrs ⊢
    exact sum_index_mul_eq (by rw [hlen]; exact hm) hrs ((matrixMle_eq_ok hj).mp hmle).2 heq
  have hvalue : ∀ b ∈ Finset.range (2 ^ safeLoglike shape.numConstraints),
      Sumcheck.combine (foldProducts shape.numMatrices gamma eq1 eq2 L1 L2
          (List.range shape.numMatrices)) (fun m => M.index m b) =
        ∑ j ∈ Finset.range shape.numMatrices,
          (gamma ^ j * (M.index (L1 j) b * M.index eq1 b) +
            gamma ^ (shape.numMatrices + j) * (M.index (L2 j) b * M.index eq2 b)) :=
    fun b _ => combine_foldProducts _ _ _ _ _ _ _ _
  rw [Sumcheck.hypercubeSum, Finset.sum_congr rfl hvalue, Finset.sum_comm]
  apply Finset.sum_congr rfl
  intro j hj
  rw [Finset.mem_range] at hj
  rw [Finset.sum_add_distrib, ← Finset.mul_sum, ← Finset.mul_sum,
    hsum hj hrs1 (h1 j hj) heq1, hsum hj hrs2 (h2 j hj) heq2]

end Polynomial

/-! ## Completeness of a fold and leaves -/

section Complete

variable {p : ℕ} [Fact p.Prime] {C B CK : Type} [AddCommGroup C] [Module (ZMod p) C]
  {S : PolyCommitmentScheme (ZMod p) C CK} {shape : CCSShape (ZMod p)} {ck : CK}

/-- **A fold is complete.**  Two satisfied pairs with points and targets of the
shape's sizes are folded into a satisfied one, and the proof is accepted. -/
theorem exists_fold (M : MultilinearExtensions (ZMod p)) (O : RandomOracle (ZMod p) C B)
    (hm : 2 ≤ shape.numConstraints) (ht : 0 < shape.numMatrices)
    {acc1 acc2 : LCCSInstance (ZMod p) C × CCSWitness (ZMod p)}
    (h1 : LinearizedSatisfied S shape acc1.1 acc1.2 ck)
    (h2 : LinearizedSatisfied S shape acc2.1 acc2.2 ck)
    (hs1 : acc1.1.Sized shape (safeLoglike shape.numConstraints))
    (hs2 : acc2.1.Sized shape (safeLoglike shape.numConstraints)) (st : O.State) :
    ∃ proof U W st', (proveFolding M O shape acc1 acc2).exec st = (.ok (proof, U, W), st') ∧
      LinearizedSatisfied S shape U W ck ∧ U.Sized shape (safeLoglike shape.numConstraints) ∧
      ∃ out, verifyFolding O shape acc1.1 acc2.1 proof st = .ok out := by
  have ho1 := h1.opened
  have ho2 := h2.opened
  have hz1 : (acc1.1.X ++ acc1.2.W).length = shape.numIo + shape.numVars := by
    rw [List.length_append, h1.lengthX, h1.lengthW]
  have hz2 : (acc2.1.X ++ acc2.2.W).length = shape.numIo + shape.numVars := by
    rw [List.length_append, h2.lengthX, h2.lengthW]
  have hs : 0 < safeLoglike shape.numConstraints := safeLoglike_pos (by omega)
  obtain ⟨eq1, heq1⟩ := exists_eqMle (M := M) (E := Error).mpr (hs1.rs ▸ hs)
  obtain ⟨eq2, heq2⟩ := exists_eqMle (M := M) (E := Error).mpr (hs2.rs ▸ hs)
  have hvars1 : M.numVars eq1 = safeLoglike shape.numConstraints :=
    (numVars_eqMle heq1).trans hs1.rs
  have hvars2 : M.numVars eq2 = safeLoglike shape.numConstraints :=
    (numVars_eqMle heq2).trans hs2.rs
  have : Nonempty M.Mle := ⟨eq1⟩
  have hL1 : ∀ j < shape.numMatrices, ∃ m, matrixMle M shape (acc1.1.X ++ acc1.2.W) j = .ok m :=
    fun j hj => (exists_matrixMle hj).mpr ⟨hz1, hm⟩
  have hL2 : ∀ j < shape.numMatrices, ∃ m, matrixMle M shape (acc2.1.X ++ acc2.2.W) j = .ok m :=
    fun j hj => (exists_matrixMle hj).mpr ⟨hz2, hm⟩
  choose! L1 hL1 using hL1
  choose! L2 hL2 using hL2
  have hnum1 : ∀ j ∈ List.range shape.numMatrices,
      M.numVars (L1 j) = safeLoglike shape.numConstraints := fun j hj =>
    numVars_matrixMle (List.mem_range.mp hj) (hL1 j (List.mem_range.mp hj))
  have hnum2 : ∀ j ∈ List.range shape.numMatrices,
      M.numVars (L2 j) = safeLoglike shape.numConstraints := fun j hj =>
    numVars_matrixMle (List.mem_range.mp hj) (hL2 j (List.mem_range.mp hj))
  let gamma := (generateGammaChallenge O st).1
  let st₁ := (generateGammaChallenge O st).2
  let products := foldProducts shape.numMatrices gamma eq1 eq2 L1 L2
    (List.range shape.numMatrices)
  let g : Sumcheck.ListOfProductsOfPolynomials M :=
    ⟨2, safeLoglike shape.numConstraints, products⟩
  have hrange : List.range shape.numMatrices ≠ [] := by
    rw [ne_eq, List.range_eq_nil]
    omega
  have hloop := foldlM_addMatrices gamma
    (fun j hj => ⟨hL1 j (List.mem_range.mp hj), hnum1 j hj⟩)
    (fun j hj => ⟨hL2 j (List.mem_range.mp hj), hnum2 j hj⟩) hvars1 hvars2
    (g := .new (safeLoglike shape.numConstraints)) rfl
  rw [if_neg hrange] at hloop
  have hpoly : constructSumcheckPolynomial M shape acc1.1 acc2.1 acc1.2 acc2.2 gamma = .ok g := by
    refine bind_eq_ok.mpr ⟨eq1, heq1, bind_eq_ok.mpr ⟨eq2, heq2, bind_eq_ok.mpr ⟨(),
      assert_eq_ok.mpr ho1.pos, bind_eq_ok.mpr ⟨(), assert_eq_ok.mpr ho2.pos, ?_⟩⟩⟩⟩
    rw [hs1.rs]
    exact hloop
  obtain ⟨msgs, rs, st₂, hprove, hlen, hverify⟩ :=
    Sumcheck.sumcheck_complete O (E := Error) (g := g)
    (sized_foldProducts hnum1 hnum2 hvars1 hvars2) Nat.two_pos hs
    (fun _ => Sumcheck.factorial_ne_zero_of_point) st₁
  have hlen' : rs.length = safeLoglike shape.numConstraints := hlen
  -- the claimed sum is the sum over the hypercube
  have hclaim : claimedSum shape acc1.1 acc2.1 gamma =
      Sumcheck.hypercubeSum (safeLoglike shape.numConstraints) products := by
    rw [hypercubeSum_foldProducts hm hs1.rs hs2.rs hL1 hL2 heq1 heq2, claimedSum]
    show _ = ((List.range shape.numMatrices).map _).sum
    congr 1
    apply List.map_congr_left
    intro j hj
    rw [List.mem_range] at hj
    rw [← (h1.targets j hj).2, ← (h2.targets j hj).2, Nimfs.getD_matrixEvals _ _ hj,
      Nimfs.getD_matrixEvals _ _ hj]
  have hnum : g.numVariables = safeLoglike shape.numConstraints := rfl
  rw [hnum, ← hclaim] at hverify
  have heval : CanEvaluate shape rs.length :=
    fun _ => ⟨by omega, by rw [hlen', mleVars_eq_safeLoglike hm]⟩
  let rho := (generateFoldingChallenge O st₂).1
  have hvs : (matrixEvals shape (acc1.1.X ++ acc1.2.W) rs).length =
      (matrixEvals shape (acc2.1.X ++ acc2.2.W) rs).length := by
    rw [length_matrixEvals, length_matrixEvals]
  have hfold : acc1.1.foldLccs acc2.1 rho _ _ rs = .ok _ := foldLccs_eq_ok.mpr
    ⟨⟨hs1.rs.trans hs2.rs.symm, hs1.rs.trans hlen'.symm⟩, ⟨hvs, hs1.vs.trans hs2.vs.symm⟩,
      h1.lengthX.trans h2.lengthX.symm, ho1.pos, ho2.pos, rfl⟩
  have hWfold : acc1.2.fold acc2.2 rho = .ok _ := witnessFold_eq_ok.mpr
    ⟨h1.lengthW.trans h2.lengthW.symm, rfl⟩
  let U := folded acc1.1.commitment_W acc2.1.commitment_W acc1.1.X acc2.1.X rs
    (matrixEvals shape (acc1.1.X ++ acc1.2.W) rs) (matrixEvals shape (acc2.1.X ++ acc2.2.W) rs) rho
  have hsized : U.Sized shape rs.length := sized_folded rho
  rw [hlen'] at hsized
  refine ⟨⟨msgs, g.info, matrixEvals shape (acc1.1.X ++ acc1.2.W) rs,
    matrixEvals shape (acc2.1.X ++ acc2.2.W) rs, rs, rho⟩, U, _,
    (generateFoldingChallenge O st₂).2, ?_, linearizedSatisfied_folded ho1 ho2 heval rho,
    hsized, (U, rho, st₂), ?_⟩
  · refine exec_bind_eq_ok.mpr ⟨gamma, st₁, rfl, ?_⟩
    refine exec_bind_eq_ok.mpr ⟨g, st₁, congrArg (·, st₁) hpoly, ?_⟩
    refine exec_bind_eq_ok.mpr ⟨(msgs, rs), st₂,
      exec_subprotocol_eq_ok.mpr (bind_eq_ok.mpr ⟨_, hprove, rfl⟩), ?_⟩
    refine exec_bind_eq_ok.mpr ⟨_, st₂, congrArg (·, st₂) (ho1.evaluations heval), ?_⟩
    refine exec_bind_eq_ok.mpr ⟨_, st₂, congrArg (·, st₂) (ho2.evaluations heval), ?_⟩
    refine exec_bind_eq_ok.mpr ⟨rho, _, rfl, ?_⟩
    refine exec_bind_eq_ok.mpr ⟨_, _, congrArg (·, (generateFoldingChallenge O st₂).2) hfold, ?_⟩
    exact exec_bind_eq_ok.mpr ⟨_, _, congrArg (·, (generateFoldingChallenge O st₂).2) hWfold, rfl⟩
  · exact verifyFolding_eq_ok.mpr ⟨⟨hs1.vs.ge, hs2.vs.ge⟩, _, hverify, rfl, hfold, rfl⟩

end Complete

section Leaves

variable {F C B CK I : Type} [Field F] [DecidableEq F] [AddCommGroup C] [Module F C]
  [DecidableEq C] {O : RandomOracle F C B}

omit [DecidableEq F] in
theorem getD_eqEvals_zeros (s i : ℕ) :
    (eqEvals (List.replicate s (0 : F))).getD i 0 = if i = 0 then 1 else 0 := by
  induction s generalizing i with
  | zero => cases i <;> simp [eqEvals]
  | succ s ih =>
      have hlow : (eqEvals (List.replicate s (0 : F))).map ((1 - 0) * ·) =
          eqEvals (List.replicate s (0 : F)) := by
        simp
      have hlen := length_eqEvals (List.replicate s (0 : F))
      rw [List.replicate_succ, eqEvals_cons, hlow]
      rcases Nat.lt_or_ge i (eqEvals (List.replicate s (0 : F))).length with hi | hi
      · rw [List.getD_append _ _ _ _ hi, ih]
      · have hpos : i ≠ 0 := by
          have := Nat.two_pow_pos (List.replicate s (0 : F)).length
          omega
        rw [List.getD_append_right _ _ _ _ hi, getD_map_mul, zero_mul, if_neg hpos]

omit [DecidableEq F] in
/-- At the point of zeros the extension has the first entry. -/
theorem mleAt_zeros {z : List F} (h : 2 ≤ z.length) (s : ℕ) :
    mleAt z (List.replicate s 0) = z.getD 0 0 := by
  rw [mleAt_eq_sum h, Finset.sum_eq_single 0]
  · rw [getD_eqEvals_zeros, if_pos rfl, mul_one]
  · intro i _ hi
    rw [getD_eqEvals_zeros, if_neg hi, mul_zero]
  · intro h0
    exact absurd (Finset.mem_range.mpr (Nat.two_pow_pos _)) h0

variable (R : HypernovaFoldReducer (F := F) (C := C) O CK I)

/-- The step circuit gives a satisfied CCS pair. -/
def HypernovaFoldReducer.Satisfied (input : I) : Prop :=
  ∃ U W, R.synthesize input = .ok (U, W) ∧ R.shape.isSatisfied R.S U W R.ck = .ok ()

omit [DecidableEq F] [DecidableEq C] in
/-- All matrix products have a zero in the first row. -/
def HypernovaFoldReducer.FirstRowZero (input : I) : Prop :=
  ∀ U W, R.synthesize input = .ok (U, W) →
    ∀ j < R.shape.numMatrices, (matrixProduct R.shape (U.X ++ W.W) j).getD 0 0 = 0

/-- An accumulator is satisfied. -/
def HypernovaFoldReducer.AccSatisfied (acc : LCCSInstance F C × CCSWitness F) : Prop :=
  R.shape.isSatisfiedLinearized R.S acc.1 acc.2 R.ck = .ok ()

variable {R}

/-- The accumulator of a satisfied leaf. -/
theorem strictToAcc_of_satisfied {input : I} {U : CCSInstance F C} {W : CCSWitness F}
    (hsyn : R.synthesize input = .ok (U, W)) (h : R.shape.isSatisfied R.S U W R.ck = .ok ()) :
    R.strictToAcc input = .ok (⟨U.commitment_W, U.X,
      List.replicate (safeLoglike R.shape.numConstraints) 0,
      List.replicate R.shape.numMatrices 0⟩, W) := by
  obtain ⟨-, hX, hcommit⟩ := of_isSatisfied h
  refine bind_eq_ok.mpr ⟨(U, W), mapError_eq_ok.mpr hsyn, bind_eq_ok.mpr ⟨_,
    mapError_eq_ok.mpr hcommit, bind_eq_ok.mpr ⟨_, mapError_eq_ok.mpr
      (linearizedNew_eq_ok.mpr ⟨hX.symm, ?_, ?_, rfl⟩), rfl⟩⟩⟩
  · rw [List.length_replicate]
  · rw [List.length_replicate]

/-- **The placeholders of a leaf.**  They are a linearization exactly where the first
row of all matrix products is zero. -/
theorem strictToAcc_satisfied_iff {input : I} (h : R.Satisfied input) :
    (∃ acc, R.strictToAcc input = .ok acc ∧ R.AccSatisfied acc) ↔
      R.FirstRowZero input ∧ (0 < R.shape.numMatrices → 2 ≤ R.shape.numConstraints) := by
  obtain ⟨U, W, hsyn, hsat⟩ := h
  obtain ⟨hW, hX, hcommit⟩ := of_isSatisfied hsat
  have hacc := strictToAcc_of_satisfied hsyn hsat
  have hmle : ∀ j < R.shape.numMatrices, 2 ≤ R.shape.numConstraints →
      (matrixEvals R.shape (U.X ++ W.W)
        (List.replicate (safeLoglike R.shape.numConstraints) 0)).getD j 0 =
          (matrixProduct R.shape (U.X ++ W.W) j).getD 0 0 := by
    intro j hj hm
    rw [Nimfs.getD_matrixEvals _ _ hj, mleAt_zeros (by rw [length_matrixProduct _ hj]; exact hm)]
  have hzero : ∀ j, (List.replicate R.shape.numMatrices (0 : F)).getD j 0 = 0 := fun j => by
    rw [List.getD_eq_getElem?_getD, List.getElem?_getD_replicate_default_eq]
  constructor
  · rintro ⟨acc, hrun, hsatisfied⟩
    rw [hacc] at hrun
    obtain rfl := Except.ok.inj hrun
    have hlin := isSatisfiedLinearized_iff.mp hsatisfied
    have hm : 0 < R.shape.numMatrices → 2 ≤ R.shape.numConstraints := by
      intro ht
      rw [← R.shape.matrices] at ht
      obtain ⟨hpos, hlen⟩ := hlin.evaluate (List.ne_nil_of_length_pos ht)
      by_contra hlt
      have hone : R.shape.numConstraints = 1 := by omega
      rw [List.length_replicate, hone] at hlen
      exact absurd hlen (by decide)
    constructor
    · intro U' W' hsyn' j hj
      rw [hsyn] at hsyn'
      obtain ⟨rfl, rfl⟩ := Prod.ext_iff.mp (Except.ok.inj hsyn')
      have htarget := (hlin.targets j hj).2
      rwa [hmle j hj (hm (by omega)), hzero] at htarget
    · exact hm
  · rintro ⟨hrow, hm⟩
    refine ⟨_, hacc, isSatisfiedLinearized_iff.mpr ?_⟩
    constructor
    · exact hW
    · exact hX
    · intro hMs
      have ht : 0 < R.shape.numMatrices := by
        rw [← R.shape.matrices]
        exact List.length_pos_of_ne_nil hMs
      have htwo := hm ht
      exact ⟨by omega, by rw [List.length_replicate, mleVars_eq_safeLoglike htwo]⟩
    · intro j hj
      constructor
      · rw [List.length_replicate]
        exact hj
      · rw [hmle j hj (hm (by omega)), hrow U W hsyn j hj, hzero]
    · exact hcommit

end Leaves

/-! ## Trees and two step circuits -/

/-- A binary tree of folds. -/
inductive FoldTree (I : Type)
  | leaf (input : I)
  | node (left right : FoldTree I)

def FoldTree.inputs {I : Type} : FoldTree I → List I
  | .leaf input => [input]
  | .node left right => left.inputs ++ right.inputs

theorem FoldTree.length_inputs_pos {I : Type} (tree : FoldTree I) : 0 < tree.inputs.length := by
  induction tree with
  | leaf input => exact Nat.one_pos
  | node left right ihl _ =>
      rw [FoldTree.inputs, List.length_append]
      omega

section Trees

variable {F C B CK I : Type} [Field F] [DecidableEq F] [AddCommGroup C] [Module F C]
  [DecidableEq C] (M : MultilinearExtensions F) {O : RandomOracle F C B}
  (R : HypernovaFoldReducer (F := F) (C := C) O CK I)

/-- The accumulator at the root. -/
def HypernovaFoldReducer.foldTree :
    FoldTree I → Run HypernovaFoldError (LCCSInstance F C × CCSWitness F)
  | .leaf input => R.strictToAcc input
  | .node left right => do
      let acc1 ← foldTree left
      let acc2 ← foldTree right
      let (acc, _) ← (R.foldAccAcc M acc1 acc2).1
      .ok acc

/-- Every leaf and every fold has a satisfied accumulator, and the proof of every
fold is accepted. -/
def HypernovaFoldReducer.Correct : FoldTree I → Prop
  | .leaf input => ∃ acc, R.strictToAcc input = .ok acc ∧ R.AccSatisfied acc
  | .node left right => Correct left ∧ Correct right ∧
      ∃ acc1 acc2 acc proof, R.foldTree M left = .ok acc1 ∧ R.foldTree M right = .ok acc2 ∧
        (R.foldAccAcc M acc1 acc2).1 = .ok (acc, proof) ∧ R.AccSatisfied acc ∧
        ∃ out, verifyFolding O R.shape acc1.1 acc2.1 proof R.newRandomOracle = .ok out

variable {M R}

omit [DecidableEq F] [DecidableEq C] in
/-- A fold without matrices has no product. -/
theorem maxMultiplicands_of_fold (ht : R.shape.numMatrices = 0)
    {acc1 acc2 acc : LCCSInstance F C × CCSWitness F} {proof : LCCSFoldingProof F}
    (h : (R.foldAccAcc M acc1 acc2).1 = .ok (acc, proof)) :
    proof.polyInfo.maxMultiplicands = 0 := by
  obtain ⟨⟨proof', U, W⟩, hrun, heq⟩ := bind_eq_ok.mp h
  obtain ⟨-, rfl⟩ := Prod.ext_iff.mp (Except.ok.inj heq)
  have hexec : (proveFolding M O R.shape acc1 acc2).exec R.newRandomOracle =
      (.ok (proof', U, W), _) := Prod.ext_iff.mpr ⟨mapError_eq_ok.mp hrun, rfl⟩
  obtain ⟨gamma, st₁, -, hexec⟩ := exec_bind_eq_ok.mp hexec
  obtain ⟨poly, st₂, hpoly, hexec⟩ := exec_bind_eq_ok.mp hexec
  obtain ⟨⟨msgs, rs⟩, st₃, -, hexec⟩ := exec_bind_eq_ok.mp hexec
  obtain ⟨sigmas1, st₄, -, hexec⟩ := exec_bind_eq_ok.mp hexec
  obtain ⟨sigmas2, st₅, -, hexec⟩ := exec_bind_eq_ok.mp hexec
  obtain ⟨rho, st₆, -, hexec⟩ := exec_bind_eq_ok.mp hexec
  obtain ⟨U', st₇, -, hexec⟩ := exec_bind_eq_ok.mp hexec
  obtain ⟨W', st₈, -, hexec⟩ := exec_bind_eq_ok.mp hexec
  obtain ⟨rfl, -, -⟩ := Prod.ext_iff.mp (Except.ok.inj (Prod.ext_iff.mp hexec).1)
  have hconstruct : constructSumcheckPolynomial M R.shape acc1.1 acc2.1 acc1.2 acc2.2 gamma =
      .ok poly := (Prod.ext_iff.mp hpoly).1
  simp only [constructSumcheckPolynomial, bind_eq_ok, assert_eq_ok, exists_const, ht,
    List.range_zero, List.foldlM_nil] at hconstruct
  obtain ⟨eq1, -, eq2, -, -, -, hpoly⟩ := hconstruct
  obtain rfl := Except.ok.inj hpoly
  rfl

end Trees

section PrimeTrees

variable {p : ℕ} [Fact p.Prime] {C B CK I : Type} [AddCommGroup C] [Module (ZMod p) C]
  [DecidableEq C] {M : MultilinearExtensions (ZMod p)} {O : RandomOracle (ZMod p) C B}
  {R : HypernovaFoldReducer (F := ZMod p) (C := C) O CK I}

/-- Leaves that are linearizations are folded into satisfied accumulators. -/
theorem exists_foldTree {tree : FoldTree I} (hsat : ∀ x ∈ tree.inputs, R.Satisfied x)
    (hrow : ∀ x ∈ tree.inputs, R.FirstRowZero x)
    (hm : 0 < R.shape.numMatrices → 2 ≤ R.shape.numConstraints)
    (ht : 1 < tree.inputs.length → 0 < R.shape.numMatrices) :
    ∃ acc, R.foldTree M tree = .ok acc ∧
      LinearizedSatisfied R.S R.shape acc.1 acc.2 R.ck ∧
      acc.1.Sized R.shape (safeLoglike R.shape.numConstraints) ∧ R.Correct M tree := by
  induction tree with
  | leaf input =>
      have hmem : input ∈ (FoldTree.leaf input).inputs := List.mem_singleton_self input
      have hleaf := (strictToAcc_satisfied_iff (hsat input hmem)).mpr ⟨hrow input hmem, hm⟩
      obtain ⟨acc, hrun, hacc⟩ := hleaf
      refine ⟨acc, hrun, isSatisfiedLinearized_iff.mp hacc, ?_, acc, hrun, hacc⟩
      obtain ⟨U, W, hsyn, h⟩ := hsat input hmem
      rw [strictToAcc_of_satisfied hsyn h] at hrun
      obtain rfl := Except.ok.inj hrun
      constructor
      · exact List.length_replicate
      · exact List.length_replicate
  | node left right ihl ihr =>
      have hleft : ∀ x ∈ left.inputs, x ∈ (FoldTree.node left right).inputs :=
        fun x hx => List.mem_append_left _ hx
      have hright : ∀ x ∈ right.inputs, x ∈ (FoldTree.node left right).inputs :=
        fun x hx => List.mem_append_right _ hx
      have hpos : 0 < R.shape.numMatrices := by
        apply ht
        rw [FoldTree.inputs, List.length_append]
        have := left.length_inputs_pos
        have := right.length_inputs_pos
        omega
      obtain ⟨acc1, hrun1, hacc1, hsized1, hcorrect1⟩ := ihl (fun x hx => hsat x (hleft x hx))
        (fun x hx => hrow x (hleft x hx)) (fun _ => hpos)
      obtain ⟨acc2, hrun2, hacc2, hsized2, hcorrect2⟩ := ihr (fun x hx => hsat x (hright x hx))
        (fun x hx => hrow x (hright x hx)) (fun _ => hpos)
      obtain ⟨proof, U, W, st', hexec, hlin, hsized, haccept⟩ := exists_fold M O (hm hpos) hpos
        hacc1 hacc2 hsized1 hsized2 R.newRandomOracle
      have hfold : (R.foldAccAcc M acc1 acc2).1 = .ok ((U, W), proof) :=
        bind_eq_ok.mpr ⟨_, mapError_eq_ok.mpr (congrArg Prod.fst hexec), rfl⟩
      refine ⟨(U, W), ?_, hlin, hsized, hcorrect1, hcorrect2, acc1, acc2, (U, W), proof, hrun1,
        hrun2, hfold, isSatisfiedLinearized_iff.mpr hlin, haccept⟩
      exact bind_eq_ok.mpr ⟨acc1, hrun1, bind_eq_ok.mpr ⟨acc2, hrun2,
        bind_eq_ok.mpr ⟨_, hfold, rfl⟩⟩⟩

/-- **Trees of folds.**  Over satisfied leaves, every leaf and every fold has a
satisfied accumulator with an accepted proof exactly where the first row of all
matrix products of every leaf is zero. -/
theorem folds_correct_iff (M : MultilinearExtensions (ZMod p))
    (R : HypernovaFoldReducer (F := ZMod p) (C := C) O CK I) (tree : FoldTree I)
    (hsat : ∀ x ∈ tree.inputs, R.Satisfied x) :
    R.Correct M tree ↔ (∀ x ∈ tree.inputs, R.FirstRowZero x) ∧
      (0 < R.shape.numMatrices → 2 ≤ R.shape.numConstraints) ∧
      (1 < tree.inputs.length → 0 < R.shape.numMatrices) := by
  constructor
  · intro hcorrect
    induction tree with
    | leaf input =>
        have hmem : input ∈ (FoldTree.leaf input).inputs := List.mem_singleton_self input
        obtain ⟨hrow, hm⟩ := (strictToAcc_satisfied_iff (hsat input hmem)).mp hcorrect
        refine ⟨?_, hm, fun h => absurd h (lt_irrefl 1)⟩
        intro x hx
        rw [List.mem_singleton.mp hx]
        exact hrow
    | node left right ihl ihr =>
        obtain ⟨hleft, hright, acc1, acc2, acc, proof, -, -, hfold, -, out, haccept⟩ := hcorrect
        obtain ⟨hrow1, hm, -⟩ := ihl (fun x hx => hsat x (List.mem_append_left _ hx)) hleft
        obtain ⟨hrow2, -, -⟩ := ihr (fun x hx => hsat x (List.mem_append_right _ hx)) hright
        refine ⟨?_, hm, ?_⟩
        · intro x hx
          rcases List.mem_append.mp hx with hx | hx
          · exact hrow1 x hx
          · exact hrow2 x hx
        · intro _
          by_contra ht
          have hmax := maxMultiplicands_of_fold (Nat.eq_zero_of_not_pos ht) hfold
          obtain ⟨-, subclaim, hsub, -⟩ := verifyFolding_eq_ok.mp haccept
          exact absurd (Sumcheck.maxMultiplicands_pos hsub) (by omega)
  · rintro ⟨hrow, hm, ht⟩
    obtain ⟨acc, -, -, -, hcorrect⟩ := exists_foldTree (M := M) hsat hrow hm ht
    exact hcorrect

end PrimeTrees

section Circuits

/-- Two equal matrices, whose difference every assignment satisfies. -/
def copyShape : CCSShape (ZMod 3) where
  numConstraints := 2
  numVars := 1
  numIo := 1
  numMatrices := 2
  numMultisets := 2
  Ms := [⟨[1], [0], [0, 1, 1], 2⟩, ⟨[1], [0], [0, 1, 1], 2⟩]
  cSs := [(1, [0]), (-1, [1])]
  numIo_pos := Nat.one_pos
  dims := by
    intro A hA
    have heq : A = ⟨[1], [0], [0, 1, 1], 2⟩ := by simpa using hA
    subst heq
    constructor <;> decide
  matrices := rfl
  multisets := rfl
  selectors := by decide

/-- A reducer over one of the shapes, whose step circuit allocates its input. -/
def inputReducer (shape : CCSShape (ZMod 3)) (one : ZMod 3) :
    HypernovaFoldReducer (F := ZMod 3) (C := ZMod 3) (zeroOracle (ZMod 3) (ZMod 3) (ZMod 3)) Unit
      (ZMod 3) where
  shape := shape
  S := sumScheme
  ck := ()
  assignments x := .ok ([one], [x])
  newRandomOracle := ()

/-- Two leaves whose only row is zero. -/
theorem folds_correct_iff_row :
    (inputReducer rowShape 0).Correct (tables (ZMod 3)) (.node (.leaf 1) (.leaf 2)) := by
  have hsyn : ∀ x : ZMod 3, (inputReducer rowShape 0).synthesize x = .ok (⟨x, [0]⟩, ⟨[x]⟩) := by
    decide
  have hsat : ∀ x : ZMod 3, rowShape.isSatisfied sumScheme ⟨x, [0]⟩ ⟨[x]⟩ () = .ok () := by
    decide
  have hrow : ∀ (x : ZMod 3) (j : ℕ), j < 1 →
      (matrixProduct rowShape ([0] ++ [x]) j).getD 0 0 = 0 := by
    decide
  apply (folds_correct_iff (tables (ZMod 3)) (inputReducer rowShape 0) _
    fun x _ => ⟨_, _, hsyn x, hsat x⟩).mpr
  refine ⟨?_, fun _ => le_refl 2, fun _ => Nat.one_pos⟩
  intro x _ U W hrun
  rw [hsyn x] at hrun
  obtain ⟨rfl, rfl⟩ := Prod.ext_iff.mp (Except.ok.inj hrun)
  exact hrow x

/-- **A satisfied leaf whose accumulator is not.**  Both matrices give the constant
wire in the first row, where the placeholders say zero. -/
theorem leaf_not_linearized : (inputReducer copyShape 1).Satisfied 1 ∧
    ¬ (inputReducer copyShape 1).Correct (tables (ZMod 3)) (.leaf 1) := by
  have hsyn : (inputReducer copyShape 1).synthesize 1 = .ok (⟨1, [1]⟩, ⟨[1]⟩) := by decide
  have hsat : copyShape.isSatisfied sumScheme ⟨1, [1]⟩ ⟨[1]⟩ () = .ok () := by decide
  constructor
  · exact ⟨⟨1, [1]⟩, ⟨[1]⟩, hsyn, hsat⟩
  · rintro ⟨acc, hrun, hacc⟩
    rw [strictToAcc_of_satisfied hsyn hsat] at hrun
    obtain rfl := Except.ok.inj hrun
    exact absurd hacc (by
      show copyShape.isSatisfiedLinearized sumScheme ⟨1, [1], [0], [0, 0]⟩ ⟨[1]⟩ () ≠ .ok ()
      decide)

/-- Two different pairs of children with one transcript. -/
theorem transcript_same_children :
    ¬ (inputReducer rowShape 0).Binds (tables (ZMod 3)) ((falseTarget, ⟨[0]⟩), (trueTarget, ⟨[0]⟩))
      ((trueTarget, ⟨[0]⟩), (trueTarget, ⟨[0]⟩)) := by
  intro hbinds
  apply hbinds
  · decide
  · rw [absorbedBeforeChallenge_eq_nil, absorbedBeforeChallenge_eq_nil]

end Circuits

end Ccs

end NexusVm.Nova
