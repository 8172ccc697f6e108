import NexusVm.Builder.Scope

/-!
# From columns to names

Three theorems connect the matrices that a well-scoped program builds with
`Along`, its reading as conditions on the values of names:

* `along_of_sat` — an assignment of the columns that satisfies every row
  satisfies every constraint of the program, read by names;
* `exists_sat_of_along` — values of the global names that fit the program
  extend to a satisfying assignment of the columns;
* `Witnessed.run` — if the values the builder computes are the given values
  of the names, and these fit the program, then the builder runs through and
  its own witness satisfies every row.
-/

namespace NexusVm.Builder

variable {N F : Type} [DecidableEq N] [Field F]

variable [ScopedName N]

variable {redo : N → Bool} {ops : List (Op N F)} {cs cs' : R1CS N F} {S S' : Scope}

theorem Matches.run (hm : Matches S cs) (hs : Scope.steps redo ops S = some S')
    (hrun : R1CS.run ops cs = some cs') : Matches S' cs' := by
  induction ops generalizing S cs with
  | nil =>
      obtain rfl := Option.some.inj hs
      obtain rfl := Option.some.inj hrun
      exact hm
  | cons op ops ih =>
      rw [Scope.steps, Option.bind_eq_some_iff] at hs
      rw [R1CS.run_cons, Option.bind_eq_some_iff] at hrun
      obtain ⟨S₁, hstep, hs⟩ := hs
      obtain ⟨cs₁, he, hrun⟩ := hrun
      exact ih (hm.exec hstep he) hs hrun

theorem Matches.vars_run {n : N} {j : ℕ} (hm : Matches S cs) (hs : Scope.steps redo ops S = some S')
    (hrun : R1CS.run ops cs = some cs') (hn : isLocal n = false) (h : cs.vars n = some j) :
    cs'.vars n = some j :=
  hm.shaped.vars_run (hm.tidy hs) hrun hn h

variable {z : ℕ → F}

/-- What one call adds to the conditions on an assignment of the columns. -/
theorem Matches.sat_exec {op : Op N F} (hm : Matches S cs) (hs : S.step redo op = some S')
    (he : cs.exec op = some cs') (hq : cs.witnessOnly = false) (hz : z 0 = 1) :
    cs'.Sat z ↔ cs.Sat z ∧ op.Sat fun n => z (cs.var n) := by
  rw [← R1CS.satFrom_zero, ← R1CS.satFrom_zero]
  exact hm.shaped.satFrom_exec (hm.tidy_step hs) he hq hz (Nat.zero_le _)

/-- A satisfying assignment of the columns satisfies the program read by names. -/
theorem along_of_sat (hz : z 0 = 1) (hm : Matches S cs) (hs : Scope.steps redo ops S = some S')
    (hrun : R1CS.run ops cs = some cs') (hq : cs.witnessOnly = false) (hsat : cs'.Sat z) :
    cs.Sat z ∧ Along Op.Sat (fun n => z (cs'.var n)) ops fun n => z ((cs.atSeal ops).var n) := by
  rw [← R1CS.satFrom_zero] at hsat ⊢
  exact along_of_satFrom hz hm.shaped (hm.tidy hs) hrun hq (Nat.zero_le _) hsat

variable {ρ l : N → F}

/-- Values of the global names that fit the program extend to a satisfying
assignment of the columns. -/
theorem exists_sat_of_along (hm : Matches S cs) (hs : Scope.steps redo ops S = some S')
    (hrun : R1CS.run ops cs = some cs') (hq : cs.witnessOnly = false) (hfit : Along Op.Sat ρ ops l)
    (hz : z 0 = 1) (hval : ∀ n j, cs.vars n = some j → z j = glue ρ l n) (hsat : cs.Sat z) :
    ∃ z', z' 0 = 1 ∧ cs'.Sat z' ∧
      ∀ n j, isLocal n = false → cs'.vars n = some j → z' j = ρ n := by
  rw [← R1CS.satFrom_zero] at hsat
  obtain ⟨z', hz', hsat', -, hglob⟩ := exists_satFrom_of_along hm.shaped (hm.tidy hs) hrun hq
    (Nat.zero_le _) hfit hz hval hsat
  exact ⟨z', hz', R1CS.satFrom_zero.mp hsat', hglob⟩

/-- Off the columns in `U`, the builder's witness holds the values of the
names; if the rows are tracked, they are satisfied once the global names that
still have columns in `U` get their values. -/
structure Witnessed (rows : Prop) (S : Scope) (cs : R1CS N F) (U : Set ℕ) (ρ l : N → F) :
    Prop where
  agrees : Matches S cs
  one : cs.w.getD 0 0 = 1
  notOne : 0 ∉ U
  known : ∀ n, S.isWritten n = true → (cs.vars n).isSome
  written : ∀ n j, cs.vars n = some j → (S.isWritten n = true ↔ j ∉ U)
  value : ∀ n j, cs.vars n = some j → j ∉ U → cs.w.getD j 0 = glue ρ l n
  stable : rows → ∀ z, (∀ j < cs.w.length, j ∉ U → z j = cs.w.getD j 0) →
    (∀ n j, isLocal n = false → cs.vars n = some j → z j = ρ n) → cs.Sat z

theorem witnessed_empty (rows : Prop) (arity : ℕ) (ρ l : N → F) :
    Witnessed rows Scope.empty { (default : R1CS N F) with arity := arity } ∅ ρ l where
  agrees := matches_empty arity
  one := rfl
  notOne := by simp
  known n h := by
    by_cases hl : isLocal n <;> simp [Scope.isWritten, Scope.empty, hl] at h
  written n j h := by simp [default] at h
  value n j h := by simp [default] at h
  stable _ z _ _ := by simp [R1CS.Sat, default]

variable {U : Set ℕ} {rows : Prop} {S : Scope} {cs : R1CS N F}

/-- Once every global name has its value, the builder's witness satisfies its rows. -/
theorem Witnessed.isSat (h : Witnessed rows S cs U ρ l) (hc : S.complete = true) (hrows : rows) :
    cs.IsSat := by
  refine h.stable hrows _ (fun _ _ _ => rfl) fun n j hl hj => ?_
  have ha : S.isAllocated n = true := (h.agrees.allocated n).mpr (by simp [hj])
  have hU := (h.written n j hj).mp (Scope.isWritten_of_complete hc hl ha)
  rw [h.value n j hj hU, glue_global hl]

/-- While no local name is allocated, the values of local names are arbitrary. -/
theorem Witnessed.relocal (h : Witnessed rows S cs U ρ l) (hS : S.localAllocated = 0) (l' : N → F) :
    Witnessed rows S cs U ρ l' := by
  refine ⟨h.agrees, h.one, h.notOne, h.known, h.written, fun n j hj hU => ?_, h.stable⟩
  have hl : isLocal n = false := by
    rw [Bool.eq_false_iff]
    intro hl
    have ha : S.isAllocated n = true := (h.agrees.allocated n).mpr (by simp [hj])
    simp [Scope.isAllocated, hl, hS] at ha
  rw [h.value n j hj hU, glue_global hl, glue_global hl]

/-- The values that a written name is read with. -/
private theorem Witnessed.value_of_written (h : Witnessed rows S cs U ρ l) {n : N}
    (hn : S.isWritten n = true) :
    ∃ j, cs.vars n = some j ∧ j ∉ U ∧ cs.w.getD j 0 = glue ρ l n := by
  obtain ⟨j, hj⟩ := Option.isSome_iff_exists.mp (h.known n hn)
  have hU := (h.written n j hj).mp hn
  exact ⟨j, hj, hU, h.value n j hj hU⟩

private theorem Witnessed.view_eq (h : Witnessed rows S cs U ρ l) {reads : List N}
    (hr : reads.all S.isWritten = true) :
    (reads.all fun m => (cs.vars m).isSome) = true ∧
      view reads cs.value = view reads (glue ρ l) := by
  rw [List.all_eq_true] at hr
  refine ⟨List.all_eq_true.mpr fun m hm => h.known m (hr m hm), ?_⟩
  funext m
  by_cases hm : m ∈ reads
  · obtain ⟨j, hj, -, hv⟩ := h.value_of_written (hr m hm)
    simp only [view, hm, if_true, R1CS.value, R1CS.var_eq hj, hv]
  · simp [view, hm]

/-- A fresh column joins the columns without a value. -/
private theorem Witnessed.fresh (h : Witnessed rows S cs U ρ l) {n : N} (hn : cs.vars n = none)
    {ls : List N} (hm : Matches (S.allocate n) { cs.newVar n with locals := ls }) :
    Witnessed rows (S.allocate n) { cs.newVar n with locals := ls } (insert cs.w.length U) ρ l := by
  have hpos := h.agrees.columns.pos
  have hw : (cs.newVar n).w = cs.w ++ [0] := by rw [R1CS.newVar_of_none hn]
  have hget : ∀ j < cs.w.length, (cs.w ++ [0]).getD j 0 = cs.w.getD j 0 := by
    intro j hj
    simp [List.getElem?_append, hj]
  have hvars : ∀ m j, (cs.newVar n).vars m = some j →
      (m = n ∧ j = cs.w.length) ∨ (m ≠ n ∧ cs.vars m = some j ∧ j < cs.w.length) := by
    intro m j hj
    rw [R1CS.newVar_of_none hn] at hj
    simp only [Function.update_apply] at hj
    split_ifs at hj with hmn
    · exact Or.inl ⟨hmn, by simpa using hj.symm⟩
    · exact Or.inr ⟨hmn, hj, (h.agrees.columns.bound m j hj).2⟩
  refine ⟨hm, ?_, ?_, ?_, ?_, ?_, ?_⟩
  · simp only [hw]
    rw [hget 0 hpos, h.one]
  · simp only [Set.mem_insert_iff, not_or]
    exact ⟨by omega, h.notOne⟩
  · intro m hwr
    rw [Scope.isWritten_allocate] at hwr
    obtain ⟨j, hj⟩ := Option.isSome_iff_exists.mp (h.known m hwr)
    rw [R1CS.newVar_of_none hn]
    by_cases hmn : m = n
    · simp [hmn]
    · simp [hmn, hj]
  · intro m j hj
    rw [Scope.isWritten_allocate]
    rcases hvars m j hj with ⟨rfl, rfl⟩ | ⟨hmn, hj', hlt⟩
    · have hnw : S.isWritten m = false := by
        rw [Bool.eq_false_iff]
        intro hwr
        simpa [hn] using h.known m hwr
      simp [hnw]
    · rw [h.written m j hj', Set.mem_insert_iff]
      have hne : j ≠ cs.w.length := by omega
      simp [hne]
  · intro m j hj hU
    rw [Set.mem_insert_iff, not_or] at hU
    rcases hvars m j hj with ⟨-, hjl⟩ | ⟨-, hj', hlt⟩
    · exact absurd hjl hU.1
    · simp only [hw]
      rw [hget j hlt, h.value m j hj' hU.2]
  · intro hrows z hz hglob
    have hsat : cs.Sat z := by
      refine h.stable hrows z (fun j hj hU => ?_) fun m j hl hj => ?_
      swap
      · refine hglob m j hl ?_
        have hmn : m ≠ n := by
          rintro rfl
          simp [hn] at hj
        simp only
        rw [R1CS.newVar_of_none hn]
        simpa [Function.update_apply, hmn] using hj
      have hne : j ≠ cs.w.length := by omega
      have := hz j (by simp only [hw, List.length_append, List.length_singleton]; omega)
        (by simp [hU, hne])
      simp only [hw] at this
      rw [this, hget j hj]
    rw [← R1CS.satFrom_zero] at hsat ⊢
    simpa [R1CS.SatFrom] using (R1CS.satFrom_newVar cs n 0 z).mpr hsat

/-- One call of a program whose computed values are the values of the names. -/
private theorem Witnessed.exec {op : Op N F} (h : Witnessed rows S cs U ρ l)
    (hs : S.step redo op = some S') (hop : op.Tracked rows redo (glue ρ l))
    (hseal : op ≠ .sealLocals) :
    ∃ cs' U', cs.exec op = some cs' ∧ Witnessed rows S' cs' U' ρ l := by
  cases op with
  | newVar n =>
      cases hv : cs.vars n with
      | some j =>
          have ha : S.isAllocated n = true := (h.agrees.allocated n).mpr (by simp [hv])
          obtain rfl : S = S' := by simpa [Scope.step, ha] using hs
          exact ⟨cs, U, by simp [R1CS.exec, R1CS.newVar_of_some hv], h⟩
      | none =>
          have he : cs.exec (.newVar n) = some (cs.newVar n) := rfl
          have hm := h.agrees.exec hs he
          have ha : S.isAllocated n = false := by
            rw [Bool.eq_false_iff]
            intro ha
            simpa [hv] using (h.agrees.allocated n).mp ha
          simp only [Scope.step, ha, Bool.false_eq_true, if_false] at hs
          split_ifs at hs
          obtain rfl := Option.some.inj hs
          exact ⟨_, _, he, h.fresh hv hm⟩
  | newLocalVar n =>
      have hS : S.allocate n = S' ∧ S.isAllocated n = false := by
        simp only [Scope.step] at hs
        split_ifs at hs with hc
        simp only [Bool.and_eq_true, Bool.not_eq_true'] at hc
        exact ⟨Option.some.inj hs, hc.2⟩
      have hv : cs.vars n = none := by
        rw [← Option.not_isSome_iff_eq_none, ← h.agrees.allocated n, hS.2]
        simp
      have he : cs.exec (.newLocalVar n) =
          some { cs.newVar n with locals := cs.locals ++ [n] } := by
        simp [R1CS.exec, hv]
      have hm := h.agrees.exec hs he
      obtain ⟨rfl, -⟩ := hS
      exact ⟨_, _, he, h.fresh hv hm⟩
  | set n reads f =>
      have hcheck : S.isAllocated n = true ∧ reads.all S.isWritten = true := by
        simp only [Scope.step] at hs
        split_ifs at hs with hc <;> simpa using hc
      obtain ⟨hknown, hview⟩ := h.view_eq hcheck.2
      obtain ⟨j, hj⟩ := Option.isSome_iff_exists.mp ((h.agrees.allocated n).mp hcheck.1)
      obtain ⟨hjpos, hjlt⟩ := h.agrees.columns.bound n j hj
      have he : cs.exec (.set n reads f) =
          some { cs with w := cs.w.set j (f (view reads (glue ρ l))) } := by
        simp only [R1CS.exec, hj, hknown, if_true, hview]
      have hm := h.agrees.exec hs he
      have hone : (cs.w.set j (f (view reads (glue ρ l)))).getD 0 0 = 1 := by
        rw [getD_set_ne (by omega), h.one]
      simp only [Scope.step, hcheck, Bool.and_self, if_true] at hs
      split_ifs at hs with hredo hwr
      · -- a preliminary value: the column stays in `U`
        obtain rfl := Option.some.inj hs
        have hjU : j ∈ U := by
          by_contra hU
          exact hwr ((h.written n j hj).mpr hU)
        have hget : ∀ i ∉ U, (cs.w.set j (f (view reads (glue ρ l)))).getD i 0 =
            cs.w.getD i 0 := fun i hi => getD_set_ne (by rintro rfl; exact hi hjU) _
        refine ⟨_, U, he, hm, hone, h.notOne, h.known, h.written, ?_, ?_⟩
        · intro m i hi hU
          simp only at hi ⊢
          rw [hget i hU, h.value m i hi hU]
        · intro hrows z hz hglob
          refine h.stable hrows z (fun i hi hU => ?_) hglob
          rw [← hget i hU]
          exact hz i (by simpa using hi) hU
      · -- the final value
        obtain rfl := Option.some.inj hs
        have hval : f (view reads (glue ρ l)) = glue ρ l n := by
          rcases hop.1 with hr | hv
          · exact absurd hr hredo
          · exact hv
        rw [hval] at he hm hone
        have hslot := Scope.slotted_of_isAllocated hcheck.1
        refine ⟨_, U \ {j}, he, hm, hone, fun h0 => h.notOne h0.1, ?_, ?_, ?_, ?_⟩
        · intro m hm'
          rw [Scope.isWritten_write hslot, Bool.or_eq_true, decide_eq_true_eq] at hm'
          rcases hm' with rfl | hm'
          · simp [hj]
          · exact h.known m hm'
        · intro m i hi
          simp only at hi
          rw [Scope.isWritten_write hslot, Bool.or_eq_true, decide_eq_true_eq, h.written m i hi]
          have hmn : m = n ↔ i = j := by
            constructor
            · rintro rfl
              simpa [hi] using hj
            · rintro rfl
              exact h.agrees.columns.inj m n i hi hj
          rw [hmn]
          simp only [Set.mem_sdiff, Set.mem_singleton_iff]
          tauto
        · intro m i hi hU
          simp only at hi ⊢
          by_cases hij : i = j
          · subst hij
            rw [getD_set_self hjlt, h.agrees.columns.inj m n i hi hj]
          · rw [getD_set_ne hij]
            exact h.value m i hi fun hiU => hU ⟨hiU, hij⟩
        · intro hrows z hz hglob
          refine h.stable hrows z (fun i hi hU => ?_) hglob
          have hzi := hz i (by simpa using hi) fun hd => hU hd.1
          simp only at hzi
          by_cases hij : i = j
          · subst hij
            rw [hzi, getD_set_self hi, h.value n i hj hU]
          · rw [hzi, getD_set_ne hij]
  | check reads q =>
      have hcheck : reads.all S.isWritten = true ∧ S = S' := by
        simp only [Scope.step] at hs
        split_ifs at hs with hc
        exact ⟨hc, Option.some.inj hs⟩
      obtain ⟨hknown, hview⟩ := h.view_eq hcheck.1
      obtain ⟨-, rfl⟩ := hcheck
      refine ⟨cs, U, ?_, h⟩
      have hq : q (view reads (glue ρ l)) = true := hop.1
      simp [R1CS.exec, hknown, hview, hq]
  | constraint a b c =>
      have hcheck : (S.rowOk false 0 a = true ∧ S.rowOk false 0 b = true ∧
          S.rowOk false 0 c = true) ∧ S = S' := by
        simp only [Scope.step] at hs
        split_ifs at hs with hc
        simp only [Bool.and_eq_true] at hc
        exact ⟨⟨hc.1.1, hc.1.2, hc.2⟩, Option.some.inj hs⟩
      obtain ⟨⟨hra, hrb, hrc⟩, rfl⟩ := hcheck
      have hknown : ∀ n, S.isKnown n = true → (cs.vars n).isSome := by
        intro n hn
        unfold Scope.isKnown at hn
        split_ifs at hn with hl
        · exact h.known n (by simpa [Scope.isWritten, hl] using hn)
        · exact (h.agrees.allocated n).mp (by simpa [Scope.isAllocated, hl] using hn)
      have hex : ∀ ts : List (Term N F), S.rowOk false 0 ts = true →
          ∃ r, writeRow cs.vars ts (List.replicate cs.w.length 0) = some r := by
        intro ts hok
        exact writeRow_isSome _ fun t ht n hn => hknown n (Scope.rowOk_known hok t ht n hn)
      obtain ⟨ra, ha⟩ := hex a hra
      obtain ⟨rb, hb⟩ := hex b hrb
      obtain ⟨rc, hc⟩ := hex c hrc
      cases hq : cs.witnessOnly with
      | true => exact ⟨cs, U, by simp [R1CS.exec, hq], h⟩
      | false =>
          have he : cs.exec (.constraint a b c) =
              some { cs with a := cs.a ++ [ra], b := cs.b ++ [rb], c := cs.c ++ [rc] } := by
            simp [R1CS.exec, hq, ha, hb, hc]
          refine ⟨_, U, he, h.agrees.exec hs he, h.one, h.notOne, h.known, h.written, h.value, ?_⟩
          intro hrows z hz hglob
          have hz0 : z 0 = 1 := by rw [hz 0 h.agrees.columns.pos h.notOne, h.one]
          rw [h.agrees.sat_exec hs he hq hz0]
          refine ⟨h.stable hrows z hz hglob, ?_⟩
          have hlc : ∀ ts : List (Term N F), S.rowOk false 0 ts = true →
              lc (fun n => z (cs.var n)) ts = lc (glue ρ l) ts := by
            intro ts hok
            refine lc_congr fun t ht n hn => ?_
            have hkn := Scope.rowOk_known hok t ht n hn
            by_cases hl : isLocal n = true
            · have hwr : S.isWritten n = true := by
                simpa [Scope.isKnown, Scope.isWritten, hl] using hkn
              obtain ⟨j, hj, hU, hv⟩ := h.value_of_written hwr
              rw [R1CS.var_eq hj, hz j (h.agrees.columns.bound n j hj).2 hU, hv]
            · obtain ⟨j, hj⟩ := Option.isSome_iff_exists.mp (hknown n hkn)
              have hl' : isLocal n = false := by simpa using hl
              rw [R1CS.var_eq hj, hglob n j hl' hj, glue_global hl']
          have hrow : lc (glue ρ l) a * lc (glue ρ l) b = lc (glue ρ l) c := hop.2 hrows
          rw [Op.Sat, hlc a hra, hlc b hrb, hlc c hrc, hrow]
  | sealLocals => exact absurd rfl hseal

/-- **The builder's own witness.**  If every computed value is the value of
its name, then the builder runs through; if the values also fit the rows, the
witness stays one that satisfies them. -/
theorem Witnessed.run (h : Witnessed rows S cs U ρ l) (hs : Scope.steps redo ops S = some S')
    (hfit : Along (Op.Tracked rows redo) ρ ops l) :
    ∃ cs' U' l', R1CS.run ops cs = some cs' ∧ Witnessed rows S' cs' U' ρ l' := by
  induction ops generalizing S cs U l with
  | nil =>
      obtain rfl : S = S' := by simpa [Scope.steps] using hs
      exact ⟨cs, U, l, rfl, h⟩
  | cons op ops ih =>
      rw [Scope.steps, Option.bind_eq_some_iff] at hs
      obtain ⟨S₁, hstep, hs⟩ := hs
      by_cases hseal : op = .sealLocals
      · subst hseal
        obtain ⟨l', hrest⟩ := along_seal.mp hfit
        obtain rfl := Option.some.inj hstep
        have he : cs.exec .sealLocals = some _ := rfl
        have hm := h.agrees.exec hstep he
        have hglob : ∀ n j, (if n ∈ cs.locals then none else cs.vars n) = some j →
            cs.vars n = some j ∧ isLocal n = false := by
          intro n j hj
          split_ifs at hj with hmem
          refine ⟨hj, ?_⟩
          rw [Bool.eq_false_iff]
          exact fun hl => hmem (h.agrees.localsMem n (by simp [hj]) hl)
        have hw : Witnessed rows S.close { cs with
            vars := fun n => if n ∈ cs.locals then none else cs.vars n, locals := [] } U ρ l' := by
          refine ⟨hm, h.one, h.notOne, ?_, ?_, ?_, ?_⟩
          · intro n hn
            rw [Scope.isWritten_close, Bool.and_eq_true, Bool.not_eq_true'] at hn
            have hmem : n ∉ cs.locals := fun hmem => by
              simp [h.agrees.localsLocal n hmem] at hn
            simpa [hmem] using h.known n hn.2
          · intro n j hj
            obtain ⟨hj', hl⟩ := hglob n j hj
            rw [Scope.isWritten_close, hl]
            simpa using h.written n j hj'
          · intro n j hj hU
            obtain ⟨hj', hl⟩ := hglob n j hj
            simp only
            rw [h.value n j hj' hU, glue_global hl, glue_global hl]
          · intro hrows z hz hz'
            refine h.stable hrows z hz fun n j hl hj => hz' n j hl ?_
            have hmem : n ∉ cs.locals := fun hmem => by
              simp [h.agrees.localsLocal n hmem] at hl
            simpa [hmem] using hj
        obtain ⟨cs', U', l'', hrun, hfin⟩ := ih hw hs hrest
        exact ⟨cs', U', l'', hrun, hfin⟩
      · obtain ⟨hop, hrest⟩ := (along_cons hseal).mp hfit
        obtain ⟨cs₁, U₁, he, h₁⟩ := h.exec hstep hop hseal
        obtain ⟨cs', U', l'', hrun, hfin⟩ := ih h₁ hs hrest
        exact ⟨cs', U', l'', by rw [R1CS.run_cons, he]; exact hrun, hfin⟩

end NexusVm.Builder
