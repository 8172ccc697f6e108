import NexusVm.Nova.Circuits.SupernovaRun

/-!
# What the non-uniform verifier accepts

`NIVCProof::verify` numbers the accumulators after it has removed the missing ones.  An accumulator
is checked against its own shape if none is missing before it; a run that uses its circuits in
another order is rejected.
-/

namespace NexusVm.Nova.Circuits.Supernova

open R1cs Cyclefold Synth NexusVm.Nova.Circuits.Sequential

section Verify

variable {n b : ℕ} {G1 G2 PP1 PP2 : Type} [Fact n.Prime] [Fact b.Prime] [AddCommGroup G1]
  [Module (ZMod n) G1] [AddCommGroup G2] [Module (ZMod b) G2]
  {c : Setting n b G1 G2 PP1 PP2} {SC : NonUniformCircuit (ZMod n)}
  {systems : (pc : Fin SC.numCircuits) → System c SC pc} {params : PublicParams (ZMod n) PP1 PP2}
  {z_0 : List (ZMod n)} {non_base : NIVCProofNonBase n b G1 G2}

/-- Each pair is satisfied for the shape of its count.  The source numbers the pairs after it has
dropped what is missing, so the count may differ from the circuit. -/
def Counted (c : Setting n b G1 G2 PP1 PP2) (params : PublicParams (ZMod n) PP1 PP2)
    (non_base : NIVCProofNonBase n b G1 G2) : Prop :=
  ∀ entry ∈ (present non_base.U non_base.W).zipIdx, ∃ shape, params.shapes[entry.2]? = some shape ∧
    RelaxedSatisfied c.C1 shape entry.1.1 entry.1.2 params.pp

/-- What a run keeps is accepted, if the counts do no harm. -/
theorem Honest.verified_iff
    (hshapes : ∀ pc : Fin SC.numCircuits, params.shapes[(pc : ℕ)]? = some (systems pc).shape)
    {m : ℕ} (h : Honest c SC params z_0 m non_base) :
    Verified c SC.numCircuits params z_0 non_base ↔ Counted c params non_base := by
  constructor
  · intro hverified
    exact hverified.primary
  · intro hcounted
    constructor
    · exact h.slots.lengthU
    · exact h.slots.lengthW
    · exact h.slots.lengthU_secondary
    · exact h.slots.lengthW_secondary
    · intro entry hentry _
      have hget := List.mem_zipIdx_iff_getElem?.mp hentry
      have hlt : entry.2 < SC.numCircuits :=
        h.slots.lengthU ▸ (List.getElem?_eq_some_iff.mp hget).1
      exact (List.getElem?_eq_some_iff.mp (hshapes ⟨entry.2, hlt⟩)).1
    · exact h.hash
    · exact h.length
    · exact hcounted
    · intro pair hpair
      obtain ⟨⟨U, W⟩, hmem, hbind⟩ := List.mem_filterMap.mp hpair
      obtain ⟨U, rfl, hmap⟩ := Option.bind_eq_some_iff.mp hbind
      obtain ⟨W, rfl, rfl⟩ := Option.map_eq_some_iff.mp hmap
      obtain ⟨k, hk⟩ := List.mem_iff_getElem?.mp hmem
      obtain ⟨hU, hW⟩ := present_entry hk
      have hlt : k < SC.numCircuits :=
        h.slots.lengthU_secondary ▸ (List.getElem?_eq_some_iff.mp hU).1
      obtain ⟨W', hW', hsecondary⟩ := (h.slots.slot k hlt).secondary hU
      obtain rfl := Option.some.inj (Option.some.inj (hW.symm.trans hW'))
      exact hsecondary
    · exact h.strict

/-- Without a gap each pair is counted as its own circuit. -/
theorem Honest.counted {m : ℕ} (h : Honest c SC params z_0 m non_base)
    (hgap : NoGap non_base.U) : Counted c params non_base := by
  have hprimary : ∀ (k : ℕ) (U : RelaxedR1CSInstance (ZMod n) G1),
      non_base.U[k]? = some (some U) → ∃ shape W, params.shapes[k]? = some shape ∧
        non_base.W[k]? = some (some W) ∧ RelaxedSatisfied c.C1 shape U W params.pp := by
    intro k U hU
    have hlt : k < SC.numCircuits := h.slots.lengthU ▸ (List.getElem?_eq_some_iff.mp hU).1
    exact (h.slots.slot k hlt).primary hU
  intro entry hentry
  obtain ⟨hU, hW⟩ := exists_of_present (fun k hU _ j hj => by
    obtain ⟨U, hU⟩ := hgap k hU j hj
    obtain ⟨-, W, -, hW, -⟩ := hprimary j U hU
    exact ⟨⟨U, hU⟩, W, hW⟩) (List.mem_zipIdx_iff_getElem?.mp hentry)
  obtain ⟨shape, W, hshape, hW', hsat⟩ := hprimary _ _ hU
  obtain rfl := Option.some.inj (Option.some.inj (hW.symm.trans hW'))
  exact ⟨shape, hshape, hsat⟩

/-- Each accumulator that is present is satisfied for the shape of its own circuit. -/
def Aligned (c : Setting n b G1 G2 PP1 PP2) (params : PublicParams (ZMod n) PP1 PP2)
    (non_base : NIVCProofNonBase n b G1 G2) : Prop :=
  ∀ (k : ℕ) (U : RelaxedR1CSInstance (ZMod n) G1), non_base.U[k]? = some (some U) →
    ∃ W, non_base.W[k]? = some (some W) ∧ ∃ shape, params.shapes[k]? = some shape ∧
      RelaxedSatisfied c.C1 shape U W params.pp

/-- The instance and the witness of a circuit are both present. -/
def PairPresent (non_base : NIVCProofNonBase n b G1 G2) (j : ℕ) : Prop :=
  (∃ U, non_base.U[j]? = some (some U)) ∧ ∃ W, non_base.W[j]? = some (some W)

variable {numCircuits : ℕ}

/-- Which accepted accumulators the verifier has not checked against their shapes: those without a
witness, and those behind a missing pair. -/
theorem Verified.aligned_iff (h : Verified c numCircuits params z_0 non_base) :
    Aligned c params non_base ↔
      ∀ (k : ℕ) (U : RelaxedR1CSInstance (ZMod n) G1), non_base.U[k]? = some (some U) →
        ∃ W, non_base.W[k]? = some (some W) ∧ ((∃ j < k, ¬ PairPresent non_base j) →
          ∃ shape, params.shapes[k]? = some shape ∧ RelaxedSatisfied c.C1 shape U W params.pp) := by
  constructor
  · intro haligned k U hU
    obtain ⟨W, hW, hsat⟩ := haligned k U hU
    exact ⟨W, hW, fun _ => hsat⟩
  · intro hcondition k U hU
    obtain ⟨W, hW, hsat⟩ := hcondition k U hU
    refine ⟨W, hW, ?_⟩
    by_cases hmissing : ∃ j < k, ¬ PairPresent non_base j
    · exact hsat hmissing
    · push Not at hmissing
      exact h.primary ((U, W), k)
        (List.mem_zipIdx_iff_getElem?.mpr (present_getElem? hmissing hU hW))

variable [DecidableEq G1] [DecidableEq G2]

/-- `NIVCProof::verify`, up to the look-up of the last shape. -/
def verifyAccumulators (c : Setting n b G1 G2 PP1 PP2) (numCircuits : ℕ)
    (params : PublicParams (ZMod n) PP1 PP2) (proof : NIVCProof n b G1 G2) (num_steps : UInt64) :
    Run Cyclefold.Error (NIVCProofNonBase n b G1 G2) :=
  match proof.non_base with
  | none => .error (.error (.r1cs .notSatisfied))
  | some non_base => do
      Run.assert (non_base.U.length = numCircuits)
      Run.assert (non_base.W.length = numCircuits)
      Run.assert (non_base.U_secondary.length = numCircuits)
      Run.assert (non_base.W_secondary.length = numCircuits)
      Run.failIf (num_steps ≠ non_base.i) (.r1cs .notSatisfied)
      Run.assert (∀ entry ∈ non_base.U.zipIdx, entry.1.isNone → entry.2 < params.shapes.length)
      let hash := hash c (transcriptNative c params proof.z_0 non_base)
      Run.assert (1 < non_base.u.X.length)
      Run.failIf (hash ≠ non_base.u.X.getD 1 0) (.r1cs .notSatisfied)
      (present non_base.U non_base.W).zipIdx.forM fun entry => do
        let shape ← index params.shapes entry.2
        (shape.isRelaxedSatisfied c.C1 entry.1.1 entry.1.2 params.pp).mapError .r1cs
      (present non_base.U_secondary non_base.W_secondary).forM fun pair =>
        (c.secondary.shape.isRelaxedSatisfied c.C2 pair.1 pair.2 params.pp_secondary).mapError .r1cs
      .ok non_base

variable {proof : NIVCProof n b G1 G2} {num_steps : UInt64}

/-- The last shape is looked up when everything else is checked. -/
theorem verify_eq_bind :
    verify c numCircuits params proof num_steps =
      verifyAccumulators c numCircuits params proof num_steps >>= fun non_base =>
        index params.shapes non_base.pc.toNat >>= fun shape =>
          (shape.isSatisfied c.C1 non_base.u non_base.w params.pp).mapError .r1cs := by
  rw [verify, verifyAccumulators]
  cases proof.non_base with
  | none => rfl
  | some non_base =>
      simp only [bind_assoc]
      rfl

/-- It is not looked up in another proof. -/
theorem verifyAccumulators_eq_ok {non_base : NIVCProofNonBase n b G1 G2}
    (h : verifyAccumulators c numCircuits params proof num_steps = .ok non_base) :
    proof.non_base = some non_base := by
  rw [verifyAccumulators] at h
  cases hproof : proof.non_base with
  | none =>
      rw [hproof] at h
      cases h
  | some non_base' =>
      rw [hproof] at h
      simp only [bind_eq_ok, Except.ok.injEq] at h
      obtain ⟨-, -, -, -, -, -, -, -, -, -, -, -, -, -, -, -, -, -, -, -, -, -, rfl⟩ := h
      rfl

/-- A program counter out of range makes the verifier panic, if no earlier check fails. -/
theorem verify_out_of_range (hproof : proof.non_base = some non_base)
    (hpc : params.shapes.length ≤ non_base.pc.toNat) :
    verify c numCircuits params proof num_steps =
      verifyAccumulators c numCircuits params proof num_steps >>= fun _ => .error .panic := by
  rw [verify_eq_bind]
  cases hrun : verifyAccumulators c numCircuits params proof num_steps with
  | error e => rfl
  | ok non_base' =>
      obtain rfl := Option.some.inj (hproof.symm.trans (verifyAccumulators_eq_ok hrun))
      have hnone := List.getElem?_eq_none hpc
      show (index params.shapes non_base.pc.toNat >>= _) = _
      rw [index, hnone]
      rfl

/-- **What verification says.**  Runs return while the selector chooses one of the circuits.  A run
is accepted exactly if its accumulators are satisfied for the shapes of their counts, as they are
when it uses the circuits in order.  In an accepted proof the last instance satisfies the shape of
its program counter; an accumulator was checked for its own shape unless it has no witness or is
behind a missing pair.  With a program counter out of range, an error comes from an earlier
check. -/
theorem nivc_verify (hnum : SC.numCircuits < 2 ^ 64) (hn : 2 ^ 64 ≤ n) (hb : 2 ^ 127 ≤ b)
    (systems : (pc : Fin SC.numCircuits) → System c SC pc) (params : PublicParams (ZMod n) PP1 PP2)
    (hlength : params.shapes.length = SC.numCircuits)
    (hshapes : ∀ pc : Fin SC.numCircuits, params.shapes[(pc : ℕ)]? = some (systems pc).shape)
    (hSC : SC.Complete) (habsorb : AbsorbsAppend c.ro) :
    ((∀ i z, z.length = SC.arity →
        (SC.computeSelector (SC.hint i z) i z).value.val < SC.numCircuits) →
      ∀ z_0 : List (ZMod n), z_0.length = SC.arity → ∀ m < 2 ^ 64,
        ∃ proof, proveSteps systems params z_0 m = .ok proof) ∧
    (∀ z_0 : List (ZMod n), z_0.length = SC.arity → ∀ m, 1 ≤ m → m < 2 ^ 64 → ∀ proof,
      proveSteps systems params z_0 m = .ok proof →
      ∃ non_base, proof.non_base = some non_base ∧
        (∀ num_steps, verify c SC.numCircuits params proof num_steps = .ok () ↔
          num_steps.toNat = m ∧ Counted c params non_base) ∧
        ((∀ t < m, ∀ prev, proveSteps systems params z_0 t = .ok prev → InOrder prev) →
          Counted c params non_base)) ∧
    ∀ (proof : NIVCProof n b G1 G2) (num_steps : UInt64) (non_base : NIVCProofNonBase n b G1 G2),
      proof.non_base = some non_base →
      (verify c SC.numCircuits params proof num_steps = .ok () →
        (∃ shape, params.shapes[non_base.pc.toNat]? = some shape ∧
          Satisfied c.C1 shape non_base.u non_base.w params.pp) ∧
        (Aligned c params non_base ↔
          ∀ (k : ℕ) (U : RelaxedR1CSInstance (ZMod n) G1), non_base.U[k]? = some (some U) →
            ∃ W, non_base.W[k]? = some (some W) ∧ ((∃ j < k, ¬ PairPresent non_base j) →
              ∃ shape, params.shapes[k]? = some shape ∧
                RelaxedSatisfied c.C1 shape U W params.pp))) ∧
      (SC.numCircuits ≤ non_base.pc.toNat →
        verify c SC.numCircuits params proof num_steps ≠ .ok () ∧
        ((∃ e, verify c SC.numCircuits params proof num_steps = .error (.error e)) ↔
          ∃ e,
            verifyAccumulators c SC.numCircuits params proof num_steps = .error (.error e))) := by
  refine ⟨?_, ?_, ?_⟩
  · intro hselector z_0 hz m hlt
    exact exists_proveSteps hnum hn hb habsorb hshapes hSC hz hselector hlt
  · intro z_0 hz m hm hlt proof hrun
    obtain ⟨non_base, rfl, hhonest, hgap⟩ :=
      proveSteps_honest (hnum.le.trans hn) hn hb habsorb hshapes hSC hz hm hlt hrun
    refine ⟨non_base, rfl, ?_, fun horder => hhonest.counted (hgap horder)⟩
    intro num_steps
    rw [verify_eq_ok, ← hhonest.verified_iff hshapes]
    constructor
    · rintro ⟨_, ⟨⟩, rfl, hverified⟩
      exact ⟨hhonest.i, hverified⟩
    · rintro ⟨hsteps, hverified⟩
      exact ⟨non_base, rfl, UInt64.toNat.inj (hsteps.trans hhonest.i.symm), hverified⟩
  · intro proof num_steps non_base hproof
    constructor
    · intro h
      obtain ⟨non_base', hproof', -, hverified⟩ := (verify_eq_ok c).mp h
      obtain rfl := Option.some.inj (hproof.symm.trans hproof')
      exact ⟨hverified.strict, hverified.aligned_iff⟩
    · intro hpc
      rw [verify_out_of_range hproof (hlength.trans_le hpc)]
      cases verifyAccumulators c SC.numCircuits params proof num_steps with
      | ok non_base' =>
          constructor
          · nofun
          · constructor
            · nofun
            · nofun
      | error e =>
          constructor
          · nofun
          · constructor
            · rintro ⟨e', h⟩
              exact ⟨e', congrArg Except.error (Except.error.inj h)⟩
            · rintro ⟨e', h⟩
              exact ⟨e', congrArg Except.error (Except.error.inj h)⟩

end Verify

/-! ## Circuits in turn and another variable -/

section InTurn

open Bn254

theorem absorbsAppend_countOracle : AbsorbsAppend countSetting.ro := fun s as bs =>
  List.append_assoc s as bs

/-- The prover runs the two circuits in turn, and fills the accumulators in their order. -/
theorem exists_turns {m : ℕ} (hm : m + 1 < 2 ^ 64) : ∃ non_base,
    proveSteps turnSystems turnParams [0] (m + 1) = .ok ⟨[0], some non_base⟩ ∧
      Honest countSetting inTurn turnParams [0] (m + 1) non_base ∧ non_base.pc.toNat = m % 2 ∧
      ∀ k < 2, k < m → ∃ U, non_base.U[k]? = some (some U) := by
  have hn : 2 ^ 64 ≤ fr := by norm_num [fr]
  have hnum : inTurn.numCircuits < 2 ^ 64 := by norm_num [inTurn]
  -- the circuit of a step
  have hpc : ∀ {m : ℕ} {prepared : Prepared fr fq (ZMod fr) (ZMod fq)}, m < 2 ^ 64 →
      Ready countSetting inTurn turnParams [0] m prepared →
      ∃ out, synthesize turnSystems turnParams prepared.input = .ok out ∧
        out.2.2.1.toNat = m % 2 := by
    intro m prepared hlt hready
    have hval : ((prepared.input.i.val % 2 : ℕ) : ZMod fr).val = m % 2 := by
      rw [hready.i, ZMod.val_cast_of_lt (hlt.trans_le hn),
        ZMod.val_cast_of_lt ((mod_two_lt m).trans (by norm_num [fr]))]
    obtain ⟨out, hout⟩ := exists_synthesize turnSystems turnParams hnum
      (hval.trans_lt (mod_two_lt m))
    refine ⟨out, hout, ?_⟩
    obtain ⟨hlt_out, hselector, -⟩ :=
      synthesize_eq_ok shapes_turn hready.valid hready.accepted hout
    have hselected := congrArg ZMod.val hselector
    rw [ZMod.val_cast_of_lt (hlt_out.trans (hnum.trans_le hn))] at hselected
    exact hselected.symm.trans hval
  induction m with
  | zero =>
      obtain ⟨prepared, hprepared, hready, -⟩ := exists_prepare_new (c := countSetting) turnParams
        (hnum.le.trans hn) inTurn_complete (show ([0] : List (ZMod fr)).length = 1 from rfl)
      obtain ⟨out, hout, hout_pc⟩ := hpc (by norm_num) hready
      refine ⟨_, bind_eq_ok.mpr ⟨_, rfl, proveStep_eq_ok.mpr ⟨prepared, hprepared, out, hout,
        rfl⟩⟩, hready.honest absorbsAppend_countOracle shapes_turn hout, hout_pc, ?_⟩
      intro k _ hk
      exact absurd hk (Nat.not_lt_zero k)
  | succ m ih =>
      obtain ⟨non_base, hrun, hhonest, hturn, hfilled⟩ := ih (by omega)
      obtain ⟨prepared, U, hprepared, hready, hset⟩ := hhonest.exists_prepare
        (hnum.le.trans hn) hn (by norm_num [fq]) absorbsAppend_countOracle shapes_turn
        inTurn_complete rfl m.succ_pos hm
      obtain ⟨out, hout, hout_pc⟩ := hpc (by omega) hready
      refine ⟨_, bind_eq_ok.mpr ⟨_, hrun, proveStep_eq_ok.mpr ⟨prepared, hprepared, out, hout,
        rfl⟩⟩, hready.honest absorbsAppend_countOracle shapes_turn hout, hout_pc, ?_⟩
      intro k hk hlt
      show ∃ U, prepared.U[k]? = some (some U)
      rw [hset, hturn]
      by_cases hslot : m % 2 = k
      · subst hslot
        exact ⟨U, List.getElem?_set_self (hk.trans_eq hhonest.slots.lengthU.symm)⟩
      · rw [List.getElem?_set_ne hslot]
        exact hfilled k hk (by omega)

/-- The proof of four steps that use the two circuits in turn is accepted: both accumulators are
present, and each is checked against its own shape. -/
theorem nivc_verify_turns : ∃ proof, proveSteps turnSystems turnParams [0] 4 = .ok proof ∧
    (∀ non_base ∈ proof.non_base, ∀ k < 2, ∃ U, non_base.U[k]? = some (some U)) ∧
    verify countSetting inTurn.numCircuits turnParams proof 4 = .ok () := by
  obtain ⟨non_base, hrun, -, -, hfilled⟩ := exists_turns (m := 3) (by norm_num)
  obtain ⟨_, ⟨⟩, hverify, horder⟩ :=
    (nivc_verify (by norm_num [inTurn]) (by norm_num [fr]) (by norm_num [fq]) turnSystems
      turnParams rfl shapes_turn inTurn_complete absorbsAppend_countOracle).2.1 [0] rfl 4
      (by norm_num) (by norm_num) _ hrun
  refine ⟨_, hrun, ?_, (hverify 4).mpr ⟨rfl, horder ?_⟩⟩
  · rintro _ ⟨⟩ k hk
    exact hfilled k hk (by omega)
  · intro t ht prev hprev
    cases t with
    | zero =>
        obtain rfl := Except.ok.inj hprev
        intro _ h
        cases h
    | succ t =>
        obtain ⟨non_base', hrun', -, hturn, hfilled'⟩ := exists_turns (m := t) (by omega)
        obtain rfl := Except.ok.inj (hprev.symm.trans hrun')
        rintro _ ⟨⟩ j hj
        -- the second circuit is used after the first one is folded
        exact hfilled' j (by omega) (by omega)

end InTurn

section Padding

variable {F : Type} [Field F]

variable {M : SparseMatrix F}

/-- A matrix sees only its own columns of a vector. -/
theorem entry_congr {z z' : List F} (h : ∀ j ∈ M.indices, z.getD j 0 = z'.getD j 0) (i : ℕ) :
    M.entry z i = M.entry z' i := by
  have hrow : ∀ lo hi, SparseMatrix.rowProduct (M.getRowUnchecked lo hi) z =
      SparseMatrix.rowProduct (M.getRowUnchecked lo hi) z' := by
    intro lo hi
    unfold SparseMatrix.rowProduct
    congr 1
    apply List.map_congr_left
    rintro ⟨val, col⟩ hmem
    have hcol : col ∈ M.indices :=
      (List.of_mem_zip (List.mem_of_mem_take (List.mem_of_mem_drop hmem))).2
    show val * z.getD col 0 = val * z'.getD col 0
    rw [h col hcol]
  have hall : M.multiplyVecUnchecked z = M.multiplyVecUnchecked z' := by
    apply List.map_congr_left
    rintro ⟨lo, hi⟩ _
    exact hrow lo hi
  rw [SparseMatrix.entry, hall, SparseMatrix.entry]

/-- The matrix with one more column. -/
def widen (M : SparseMatrix F) : SparseMatrix F := { M with cols := M.cols + 1 }

omit [Field F] in
theorem hasDims_widen {m n : ℕ} (h : M.HasDims m n) :
    (widen M).HasDims m (n + 1) where
  rows := h.rows
  cols := congrArg (· + 1) h.cols
  indices j hj := (h.indices j hj).trans (Nat.lt_succ_self n)
  lengths := h.lengths
  sorted := h.sorted
  bound := h.bound

theorem entry_widen {m n : ℕ} (h : M.HasDims m n) {z : List F} (hz : z.length = n) (y : F) (i : ℕ) :
    (widen M).entry (z ++ [y]) i = M.entry z i := by
  show M.entry (z ++ [y]) i = M.entry z i
  apply entry_congr
  intro j hj
  have hlt : j < z.length := by
    rw [hz]
    exact h.indices j hj
  rw [List.getD_append _ _ _ _ hlt]

/-- The shape with a variable that occurs in no constraint. -/
def padShape (shape : R1CSShape F) : R1CSShape F where
  numConstraints := shape.numConstraints
  numVars := shape.numVars + 1
  numIo := shape.numIo
  A := widen shape.A
  B := widen shape.B
  C := widen shape.C
  numIo_pos := shape.numIo_pos
  dimsA := hasDims_widen shape.dimsA
  dimsB := hasDims_widen shape.dimsB
  dimsC := hasDims_widen shape.dimsC

theorem rowsHold_padShape {shape : R1CSShape F} {z : List F}
    (hz : z.length = shape.numIo + shape.numVars) (y : F) :
    RowsHold (padShape shape) (z ++ [y]) ↔ RowsHold shape z := by
  unfold RowsHold
  simp only [padShape, entry_widen shape.dimsA hz, entry_widen shape.dimsB hz,
    entry_widen shape.dimsC hz]

variable {In : Type} {Valid : In → Prop} {holds : In → F → Prop}

/-- The circuit with a variable that it does not use. -/
def pad (system : Arithmetization F In Valid holds) : Arithmetization F In Valid holds where
  shape := padShape system.shape
  isAugmented := ⟨system.isAugmented.numIo, system.isAugmented.hash_B, system.isAugmented.hash_C⟩
  witness input := system.witness input ++ [0]
  length_witness input hvalid := by
    rw [List.length_append, system.length_witness input hvalid]
    rfl
  rows_iff input x hvalid := by
    have hlen : ([1, x] ++ system.witness input).length =
        system.shape.numIo + system.shape.numVars := by
      rw [List.length_append, system.length_witness input hvalid, system.isAugmented.numIo]
      rfl
    rw [← List.append_assoc, rowsHold_padShape hlen, system.rows_iff input x hvalid]
  decode W := system.decode (W.take system.shape.numVars)
  decode_holds x W hlen hrows := by
    have htake : (W.take system.shape.numVars).length = system.shape.numVars := by
      rw [List.length_take, hlen]
      exact min_eq_left (Nat.le_succ _)
    have hdrop : (W.drop system.shape.numVars).length = 1 := by
      rw [List.length_drop, hlen]
      exact Nat.add_sub_cancel_left _ _
    obtain ⟨y, hy⟩ := List.length_eq_one_iff.mp hdrop
    have hz : ([1, x] ++ W.take system.shape.numVars).length =
        system.shape.numIo + system.shape.numVars := by
      rw [List.length_append, htake, system.isAugmented.numIo]
      rfl
    rw [← List.take_append_drop system.shape.numVars W, hy, ← List.append_assoc,
      rowsHold_padShape hz] at hrows
    exact system.decode_holds x _ htake hrows

end Padding

/-! ## The second of two circuits -/

section Example

open Bn254

section Systems

variable {SC : NonUniformCircuit (ZMod fr)} {z_0 : List (ZMod fr)}

/-- The output of a first step with the key zero. -/
def newHash (SC : NonUniformCircuit (ZMod fr)) (z_0 : List (ZMod fr)) (pc : ℕ) : ZMod fr :=
  hash sumSetting (body sumSetting SC (SC.hint 0 z_0) pc (newInput sumSetting SC 0 z_0)).value.1

/-- The outputs of first steps differ by their keys. -/
theorem hash_newInput (hz : z_0.length = SC.arity) (pc : ℕ) (vk : ZMod fr) :
    hash sumSetting
        (body sumSetting SC (SC.hint 0 z_0) pc (newInput sumSetting SC vk z_0)).value.1 =
      vk + newHash SC z_0 pc := by
  rw [newHash, value_body_zero sumSetting _ pc (valid_newInput hz) rfl,
    value_body_zero sumSetting _ pc (valid_newInput hz) rfl, hash_sumOracle, hash_sumOracle]
  simp [transcript, newInput]

variable (z_0) in
/-- Two rows for each circuit. -/
noncomputable def newSystem (hSC : SC.Complete) (hz : z_0.length = SC.arity)
    (pc : Fin SC.numCircuits) : System sumSetting SC pc :=
  outcomeArithmetization (fun v => hash sumSetting (body sumSetting _ v.1 pc v.2).value.1)
    (fun x => (SC.hint 0 z_0, newInput sumSetting SC (x - newHash SC z_0 pc) z_0))
    (fun _ _ h => (holds_iff.mp h).hash_input)
    (fun x => ⟨valid_newInput hz, holds_iff.mpr (accepted_newInput hSC hz pc.isLt
      ((sub_add_cancel x (newHash SC z_0 pc)).symm.trans (hash_newInput hz pc _).symm))⟩)

theorem absorbsAppend_sumOracle : AbsorbsAppend (sumSetting).ro := by
  have hsum : ∀ (s : ZMod fr) (as bs : List (ZMod fr)),
      s + as.sum + bs.sum = s + (as ++ bs).sum := by
    intro s as bs
    rw [List.sum_append, add_assoc]
  exact hsum

end Systems

/-- Two circuits without a state; the selector always chooses the second. -/
def secondOnly : NonUniformCircuit (ZMod fr) where
  arity := 0
  numCircuits := 2
  numCircuits_pos := Nat.two_pos
  Aux := Unit
  hint _ _ := ()
  computeSelector _ _ _ := ⟨1, True⟩
  generateConstraints _ _ _ z := ⟨z, True⟩
  length_value _ _ _ _ h := h

theorem secondOnly_complete : secondOnly.Complete :=
  ⟨fun _ _ _ => trivial, fun _ _ _ _ _ => trivial⟩

/-- The second circuit has one more variable. -/
noncomputable def secondSystems :
    (pc : Fin secondOnly.numCircuits) → System sumSetting secondOnly pc
  | ⟨0, _⟩ => newSystem [] secondOnly_complete rfl _
  | ⟨_ + 1, _⟩ => pad (newSystem [] secondOnly_complete rfl _)

noncomputable def secondParams : PublicParams (ZMod fr) Unit Unit :=
  ⟨[outcomeRows _, padShape (outcomeRows _)], (), (), 7⟩

theorem shapes_second (pc : Fin secondOnly.numCircuits) :
    secondParams.shapes[(pc : ℕ)]? = some (secondSystems pc).shape := by
  match pc with
  | ⟨0, _⟩ => rfl
  | ⟨1, _⟩ => rfl

theorem selector_lt : (1 : ZMod fr).val < secondOnly.numCircuits :=
  (ZMod.val_one fr).trans_lt Nat.one_lt_two

/-- The first step runs the second circuit. -/
theorem exists_first : ∃ non_base, proveSteps secondSystems secondParams [] 1 =
      .ok ⟨[], some non_base⟩ ∧
    Honest sumSetting secondOnly secondParams [] 1 non_base ∧ non_base.U = [none, none] ∧
    non_base.pc.toNat = 1 := by
  have hnum : secondOnly.numCircuits < 2 ^ 64 := by norm_num [secondOnly]
  have hn : 2 ^ 64 ≤ fr := by norm_num [fr]
  have hz : ([] : List (ZMod fr)).length = secondOnly.arity := rfl
  obtain ⟨prepared, hprepared, hready, hU⟩ := exists_prepare_new (c := sumSetting) secondParams
    (hnum.le.trans hn) secondOnly_complete hz
  obtain ⟨out, hout⟩ := exists_synthesize secondSystems secondParams hnum selector_lt
  refine ⟨_, bind_eq_ok.mpr ⟨_, rfl, proveStep_eq_ok.mpr ⟨prepared, hprepared, out, hout, rfl⟩⟩,
    hready.honest absorbsAppend_sumOracle shapes_second hout, hU, ?_⟩
  obtain ⟨hpc, hselector, -⟩ :=
    synthesize_eq_ok shapes_second hready.valid hready.accepted hout
  have hval := congrArg ZMod.val hselector
  rw [ZMod.val_cast_of_lt (hpc.trans (hnum.trans_le hn))] at hval
  exact hval.symm.trans (ZMod.val_one fr)

/-- The second step folds into the accumulator of the second circuit. -/
theorem exists_second : ∃ non_base U, proveSteps secondSystems secondParams [] 2 =
      .ok ⟨[], some non_base⟩ ∧
    Honest sumSetting secondOnly secondParams [] 2 non_base ∧ non_base.U = [none, some U] := by
  have hnum : secondOnly.numCircuits < 2 ^ 64 := by norm_num [secondOnly]
  have hn : 2 ^ 64 ≤ fr := by norm_num [fr]
  obtain ⟨non_base, hrun, hhonest, hU, hpc⟩ := exists_first
  obtain ⟨prepared, U, hprepared, hready, hset⟩ := hhonest.exists_prepare (hnum.le.trans hn) hn
    (by norm_num [fq]) absorbsAppend_sumOracle shapes_second secondOnly_complete rfl (le_refl 1)
    (by norm_num)
  obtain ⟨out, hout⟩ := exists_synthesize secondSystems secondParams hnum selector_lt
  refine ⟨_, U, bind_eq_ok.mpr ⟨_, hrun, proveStep_eq_ok.mpr ⟨prepared, hprepared, out, hout,
    rfl⟩⟩, hready.honest absorbsAppend_sumOracle shapes_second hout, ?_⟩
  show prepared.U = _
  rw [hset, hU, hpc]
  rfl

/-- A proof of one step without witnesses for its accumulators. -/
def forgedNonBase (pc : UInt64) (U : List (Option (RelaxedR1CSInstance (ZMod fr) Unit)))
    (hash : ZMod fr) : NIVCProofNonBase fr fq Unit Unit where
  U := U
  W := [none, none]
  U_secondary := [none, none]
  W_secondary := [none, none]
  u := ⟨(), [1, hash]⟩
  w := ⟨[0, hash]⟩
  i := 1
  pc := pc
  z_i := []

/-- Its hash. -/
noncomputable def forgedHash (pc : UInt64)
    (U : List (Option (RelaxedR1CSInstance (ZMod fr) Unit))) : ZMod fr :=
  hash sumSetting (transcriptNative sumSetting secondParams [] (forgedNonBase pc U 0))

/-- The proof with its hash. -/
noncomputable def forgedProof (pc : UInt64)
    (U : List (Option (RelaxedR1CSInstance (ZMod fr) Unit))) : NIVCProof fr fq Unit Unit where
  z_0 := []
  non_base := some (forgedNonBase pc U (forgedHash pc U))

/-- The hash does not absorb itself. -/
theorem hash_forgedNonBase (pc : UInt64)
    (U : List (Option (RelaxedR1CSInstance (ZMod fr) Unit))) (x : ZMod fr) :
    hash sumSetting (transcriptNative sumSetting secondParams [] (forgedNonBase pc U x)) =
      forgedHash pc U := by
  rw [forgedHash, transcriptNative, transcriptNative]
  rfl

/-- An accumulator without a witness is accepted, whatever it is. -/
theorem verify_forgedProof (U : RelaxedR1CSInstance (ZMod fr) Unit) :
    verify sumSetting secondOnly.numCircuits secondParams (forgedProof 0 [none, some U]) 1 =
      .ok () := by
  refine (verify_eq_ok sumSetting).mpr ⟨_, rfl, rfl, ?_⟩
  constructor
  · rfl
  · rfl
  · rfl
  · rfl
  · intro entry hentry _
    exact (List.getElem?_eq_some_iff.mp (List.mem_zipIdx_iff_getElem?.mp hentry)).1
  · exact hash_forgedNonBase _ _ _
  · exact Nat.one_lt_two
  · intro entry hentry
    exact absurd hentry List.not_mem_nil
  · intro pair hpair
    exact absurd hpair List.not_mem_nil
  · refine ⟨outcomeRows _, rfl, ?_⟩
    constructor
    · rfl
    · rfl
    · exact rowsHold_outcomeRows.mpr ⟨rfl, rfl⟩
    · rfl

/-- A program counter that is out of range is not reported as an error. -/
theorem verify_forgedProof_out_of_range :
    verify sumSetting secondOnly.numCircuits secondParams (forgedProof 2 [none, none]) 1 =
      .error .panic := by
  have hchecked : verifyAccumulators sumSetting secondOnly.numCircuits secondParams
      (forgedProof 2 [none, none]) 1 =
        .ok (forgedNonBase 2 [none, none] (forgedHash 2 [none, none])) := by
    simp only [verifyAccumulators, forgedProof, bind_eq_ok, assert_eq_ok, failIf_eq_ok, forM_eq_ok,
      hash_forgedNonBase, exists_const]
    refine ⟨rfl, rfl, rfl, rfl, not_not.mpr rfl, ?_, Nat.one_lt_two, not_not.mpr rfl, ?_, ?_,
      trivial⟩
    · intro entry hentry _
      exact (List.getElem?_eq_some_iff.mp (List.mem_zipIdx_iff_getElem?.mp hentry)).1
    · intro entry hentry
      exact absurd hentry List.not_mem_nil
    · intro pair hpair
      exact absurd hpair List.not_mem_nil
  rw [verify_out_of_range rfl (le_refl 2), hchecked]
  rfl

/-- The second step is rejected, though it never used the first circuit: its one accumulator is
checked against the first shape.  An accumulator without a witness is accepted, and a program
counter out of range panics. -/
theorem nivc_verify_second :
    (∃ proof, proveSteps secondSystems secondParams [] 2 = .ok proof ∧
      ∀ num_steps, verify sumSetting secondOnly.numCircuits secondParams proof num_steps ≠ .ok ()) ∧
    (∃ proof non_base, proof.non_base = some non_base ∧
      verify sumSetting secondOnly.numCircuits secondParams proof 1 = .ok () ∧
      ¬ Aligned sumSetting secondParams non_base) ∧
    ∃ proof non_base, proof.non_base = some non_base ∧
      secondOnly.numCircuits ≤ non_base.pc.toNat ∧
      verify sumSetting secondOnly.numCircuits secondParams proof 1 = .error .panic := by
  refine ⟨?_, ⟨forgedProof 0 [none, some ⟨(), (), []⟩], _, rfl, verify_forgedProof _, ?_⟩,
    forgedProof 2 [none, none], _, rfl, le_refl 2, verify_forgedProof_out_of_range⟩
  · obtain ⟨non_base, U, hrun, hhonest, hU⟩ := exists_second
    refine ⟨_, hrun, ?_⟩
    intro num_steps h
    obtain ⟨_, ⟨⟩, -, hverified⟩ := (verify_eq_ok sumSetting).mp h
    have hget : non_base.U[1]? = some (some U) := by
      rw [hU]
      rfl
    obtain ⟨shape, W, hshape, hW, hprimary⟩ := (hhonest.slots.slot 1 Nat.one_lt_two).primary hget
    obtain rfl := Option.some.inj hshape
    obtain ⟨first, last, hWs⟩ := List.length_eq_two.mp hhonest.slots.lengthW
    rw [hWs] at hW
    obtain rfl : last = some W := Option.some.inj hW
    -- the one pair is counted as the first
    have hpresent : ((U, W), 0) ∈ (present non_base.U non_base.W).zipIdx := by
      rw [hU, hWs]
      exact List.mem_cons_self
    obtain ⟨shape, hshape, hcounted⟩ := hverified.primary _ hpresent
    obtain rfl := Option.some.inj hshape
    have hlength : (3 : ℕ) = 2 := hprimary.lengthW.symm.trans hcounted.lengthW
    exact absurd hlength (by decide)
  · intro haligned
    obtain ⟨W, hW, -⟩ := haligned 1 _ rfl
    cases hW

end Example

end NexusVm.Nova.Circuits.Supernova
