import NexusVm.Builder.Dense

/-!
# Builders in order

Every call keeps the columns and the matrices of a builder in order (`Shaped`), if it
allocates local names as locals and overwrites no entry of its rows (`Tidy`).  Then the
matrices can be read by names, whatever the names are:

* `along_of_satFrom` — an assignment of the columns that satisfies the rows of a program
  satisfies its constraints, read by names;
* `exists_satFrom_of_along` — values of the global names that fit the program extend to
  an assignment of the columns that satisfies its rows.

Both speak about the rows from a given one on, so that a gadget may start from any builder.
-/

namespace NexusVm.Builder

variable {N F : Type} [DecidableEq N] [Field F]

namespace R1CS

variable {cs : R1CS N F}

omit [DecidableEq N] [Field F] in
theorem var_eq {n : N} {j : ℕ} (h : cs.vars n = some j) : cs.var n = j := by
  simp [var, h]

variable {cs cs' : R1CS N F}

variable {op : Op N F}

theorem exec_witnessOnly (h : cs.exec op = some cs') :
    cs'.witnessOnly = cs.witnessOnly := by
  have hnew : ∀ n, (cs.newVar n).witnessOnly = cs.witnessOnly := by
    intro n
    cases hv : cs.vars n with
    | some j => rw [newVar_of_some hv]
    | none => rw [newVar_of_none hv]
  cases op with
  | newVar n =>
      obtain rfl : cs.newVar n = cs' := by simpa [exec] using h
      exact hnew n
  | newLocalVar n =>
      simp only [exec] at h
      split at h
      · simp at h
      · obtain rfl := Option.some.inj h
        exact hnew n
  | set n reads f =>
      simp only [exec] at h
      split at h
      · split_ifs at h
        obtain rfl := Option.some.inj h
        rfl
      · simp at h
  | check reads q =>
      simp only [exec] at h
      split_ifs at h
      obtain rfl := Option.some.inj h
      rfl
  | constraint a b c =>
      simp only [exec] at h
      split_ifs at h
      · obtain rfl := Option.some.inj h
        rfl
      · split at h
        · obtain rfl := Option.some.inj h
          rfl
        · simp at h
  | sealLocals =>
      obtain rfl := Option.some.inj h
      rfl

variable {ops : List (Op N F)}

theorem run_witnessOnly (h : run ops cs = some cs') :
    cs'.witnessOnly = cs.witnessOnly := by
  induction ops generalizing cs with
  | nil => rw [Option.some.inj h]
  | cons op ops ih =>
      rw [run_cons, Option.bind_eq_some_iff] at h
      obtain ⟨cs₁, h₁, h₂⟩ := h
      rw [ih h₂, exec_witnessOnly h₁]

/-- Until the next seal, a name keeps its column. -/
theorem vars_exec {n : N} {j : ℕ} (he : cs.exec op = some cs') (hop : op ≠ .sealLocals)
    (h : cs.vars n = some j) :
    cs'.vars n = some j := by
  have hnew : ∀ m, (cs.newVar m).vars n = some j := by
    intro m
    cases hv : cs.vars m with
    | some i => rwa [newVar_of_some hv]
    | none =>
        have hne : n ≠ m := by
          rintro rfl
          simp [hv] at h
        rw [newVar_of_none hv]
        simpa [Function.update_apply, hne] using h
  cases op with
  | newVar m =>
      obtain rfl : cs.newVar m = cs' := by simpa [exec] using he
      exact hnew m
  | newLocalVar m =>
      simp only [exec] at he
      split at he
      · simp at he
      · obtain rfl := Option.some.inj he
        exact hnew m
  | set m reads f =>
      simp only [exec] at he
      split at he
      · split_ifs at he
        obtain rfl := Option.some.inj he
        exact h
      · simp at he
  | check reads q =>
      simp only [exec] at he
      split_ifs at he
      obtain rfl := Option.some.inj he
      exact h
  | constraint a b c =>
      simp only [exec] at he
      split_ifs at he
      · obtain rfl := Option.some.inj he
        exact h
      · split at he
        · obtain rfl := Option.some.inj he
          exact h
        · simp at he
  | sealLocals => exact absurd rfl hop

/-- The builder's state just before the next seal. -/
def atSeal : List (Op N F) → R1CS N F → R1CS N F
  | [], cs => cs
  | .sealLocals :: _, cs => cs
  | op :: ops, cs =>
      match cs.exec op with
      | some cs' => atSeal ops cs'
      | none => cs

theorem atSeal_cons (he : cs.exec op = some cs') (hop : op ≠ .sealLocals) :
    atSeal (op :: ops) cs = atSeal ops cs' := by
  cases op with
  | sealLocals => exact absurd rfl hop
  | _ => simp only [atSeal, he]

theorem vars_atSeal {n : N} {j : ℕ} (h : cs.vars n = some j) : (atSeal ops cs).vars n = some j := by
  induction ops generalizing cs with
  | nil => exact h
  | cons op ops ih =>
      by_cases hop : op = .sealLocals
      · subst hop
        exact h
      · cases he : cs.exec op with
        | none =>
            cases op with
            | sealLocals => exact absurd rfl hop
            | _ => simpa only [atSeal, he] using h
        | some cs' =>
            rw [atSeal_cons he hop]
            exact ih (vars_exec he hop h)

/-- An assignment of the columns satisfies the rows from the `m`-th on. -/
def SatFrom (cs : R1CS N F) (m : ℕ) (z : ℕ → F) : Prop :=
  ∀ i, m ≤ i → i < cs.a.length →
    dot (cs.a.getD i []) z * dot (cs.b.getD i []) z = dot (cs.c.getD i []) z

omit [DecidableEq N] in
theorem satFrom_zero {z : ℕ → F} : cs.SatFrom 0 z ↔ cs.Sat z :=
  ⟨fun h i hi => h i (Nat.zero_le i) hi, fun h i _ hi => h i hi⟩

omit [DecidableEq N] in
/-- There are no rows past the last one. -/
theorem satFrom_length (cs : R1CS N F) (z : ℕ → F) : cs.SatFrom cs.a.length z :=
  fun _ hge hlt => absurd hlt (Nat.not_lt.mpr hge)

theorem satFrom_newVar (cs : R1CS N F) (n : N) (m : ℕ) (z : ℕ → F) :
    (cs.newVar n).SatFrom m z ↔ cs.SatFrom m z := by
  cases hv : cs.vars n with
  | some j => rw [newVar_of_some hv]
  | none =>
      have hpad : ∀ (rows : List (List F)) (i : ℕ),
          dot ((rows.map (· ++ [0])).getD i []) z = dot (rows.getD i []) z := by
        intro rows i
        by_cases hi : i < rows.length
        · simp [hi, dot_append_zero]
        · simp [hi]
      rw [newVar_of_none hv]
      simp only [SatFrom, hpad, List.length_map]

omit [DecidableEq N] in
/-- Adding a row adds its condition. -/
theorem satFrom_push {ra rb rc : List F} {m : ℕ} (hm : m ≤ cs.a.length)
    (hb : cs.b.length = cs.a.length) (hc : cs.c.length = cs.a.length) (z : ℕ → F) :
    SatFrom { cs with a := cs.a ++ [ra], b := cs.b ++ [rb], c := cs.c ++ [rc] } m z ↔
      cs.SatFrom m z ∧ dot ra z * dot rb z = dot rc z := by
  have hold : ∀ i < cs.a.length,
      (cs.a ++ [ra]).getD i [] = cs.a.getD i [] ∧ (cs.b ++ [rb]).getD i [] = cs.b.getD i [] ∧
        (cs.c ++ [rc]).getD i [] = cs.c.getD i [] := by
    intro i hi
    simp [List.getElem?_append, hb, hc, hi]
  have hnew : (cs.a ++ [ra]).getD cs.a.length [] = ra ∧
      (cs.b ++ [rb]).getD cs.a.length [] = rb ∧ (cs.c ++ [rc]).getD cs.a.length [] = rc := by
    simp [hb, hc]
  simp only [SatFrom, List.length_append, List.length_singleton]
  constructor
  · intro h
    constructor
    · intro i hge hi
      have hrow := h i hge (Nat.lt_succ_of_lt hi)
      rwa [(hold i hi).1, (hold i hi).2.1, (hold i hi).2.2] at hrow
    · have hrow := h cs.a.length hm (Nat.lt_succ_self _)
      rwa [hnew.1, hnew.2.1, hnew.2.2] at hrow
  · rintro ⟨h, hlast⟩ i hge hi
    rcases Nat.lt_succ_iff_lt_or_eq.mp hi with hlt | rfl
    · rw [(hold i hlt).1, (hold i hlt).2.1, (hold i hlt).2.2]
      exact h i hge hlt
    · rwa [hnew.1, hnew.2.1, hnew.2.2]

end R1CS

variable [ScopedName N]

/-! ## Order -/

/-- **A builder in order**: the columns of the names, the names that are local, and the
sizes of the matrices. -/
structure Shaped (cs : R1CS N F) : Prop where
  columns : Columns cs.vars cs.w.length
  localsLocal : ∀ n ∈ cs.locals, isLocal n = true
  localsMem : ∀ n, (cs.vars n).isSome → isLocal n = true → n ∈ cs.locals
  lengthB : cs.b.length = cs.a.length
  lengthC : cs.c.length = cs.a.length
  rowsA : ∀ r ∈ cs.a, r.length = cs.w.length
  rowsB : ∀ r ∈ cs.b, r.length = cs.w.length
  rowsC : ∀ r ∈ cs.c, r.length = cs.w.length

omit [DecidableEq N] in
theorem shaped_empty (arity : ℕ) : Shaped { (default : R1CS N F) with arity := arity } where
  columns := ⟨by simp [default], by simp [default], by simp [default]⟩
  localsLocal := by simp [default]
  localsMem := by simp [default]
  lengthB := rfl
  lengthC := rfl
  rowsA := by simp [default]
  rowsB := by simp [default]
  rowsC := by simp [default]

/-- **A tidy call** allocates names according to their kind, and its rows overwrite nothing. -/
def Op.Tidy (cs : R1CS N F) : Op N F → Prop
  | .newVar n => isLocal n = true → (cs.vars n).isSome
  | .newLocalVar n => isLocal n = true
  | .constraint a b c => freshRow [] a = true ∧ freshRow [] b = true ∧ freshRow [] c = true
  | _ => True

/-- Every call of a program is tidy when it is made. -/
def Tidy : List (Op N F) → R1CS N F → Prop
  | [], _ => True
  | op :: ops, cs => op.Tidy cs ∧ ∀ cs', cs.exec op = some cs' → Tidy ops cs'

/-- Allocating a fresh column, with the list of locals given separately. -/
private theorem Shaped.newVar {cs : R1CS N F} (h : Shaped cs) {n : N} (hn : cs.vars n = none)
    {ls : List N} (hls : ∀ m ∈ ls, isLocal m = true) (hsub : ∀ m ∈ cs.locals, m ∈ ls)
    (hmem : isLocal n = true → n ∈ ls) : Shaped { cs.newVar n with locals := ls } := by
  rw [R1CS.newVar_of_none hn]
  have hrows : ∀ rows : List (List F), (∀ r ∈ rows, r.length = cs.w.length) →
      ∀ r ∈ rows.map (· ++ [0]), r.length = (cs.w ++ [0]).length := by
    intro rows hr r hmem
    obtain ⟨r', hr', rfl⟩ := List.mem_map.mp hmem
    simp [hr r' hr']
  constructor
  · simpa using h.columns.update n
  · exact hls
  · intro m hsome hloc
    by_cases hmn : m = n
    · exact hmn ▸ hmem (hmn ▸ hloc)
    · refine hsub m (h.localsMem m ?_ hloc)
      simpa [Function.update_apply, hmn] using hsome
  · simp [h.lengthB]
  · simp [h.lengthC]
  · exact hrows _ h.rowsA
  · exact hrows _ h.rowsB
  · exact hrows _ h.rowsC

variable {op : Op N F} {cs cs' : R1CS N F}

/-- A tidy call keeps the builder in order. -/
theorem Shaped.exec (h : Shaped cs) (ht : op.Tidy cs) (he : cs.exec op = some cs') :
    Shaped cs' := by
  cases op with
  | newVar n =>
      obtain rfl : cs.newVar n = cs' := by simpa [R1CS.exec] using he
      cases hv : cs.vars n with
      | some j => rwa [R1CS.newVar_of_some hv]
      | none =>
          have hnew := h.newVar hv h.localsLocal (fun m hm => hm) fun hl => by
            have hsome := ht hl
            rw [hv] at hsome
            cases hsome
          rw [R1CS.newVar_of_none hv] at hnew ⊢
          exact hnew
  | newLocalVar n =>
      cases hv : cs.vars n with
      | some j => simp [R1CS.exec, hv] at he
      | none =>
          simp only [R1CS.exec, hv, Option.some.injEq] at he
          subst he
          have hlocal : isLocal n = true := ht
          refine h.newVar hv ?_ (fun m hm => List.mem_append_left _ hm) fun _ => by simp
          intro m hmem
          rcases List.mem_append.mp hmem with hm | hm
          · exact h.localsLocal m hm
          · obtain rfl : m = n := by simpa using hm
            exact hlocal
  | set n reads f =>
      simp only [R1CS.exec] at he
      split at he
      · split_ifs at he
        simp only [Option.some.injEq] at he
        subst he
        exact ⟨by simpa using h.columns, h.localsLocal, h.localsMem, h.lengthB, h.lengthC,
          by simpa using h.rowsA, by simpa using h.rowsB, by simpa using h.rowsC⟩
      · simp at he
  | check reads q =>
      simp only [R1CS.exec] at he
      split_ifs at he
      obtain rfl := Option.some.inj he
      exact h
  | constraint a b c =>
      simp only [R1CS.exec] at he
      split_ifs at he with hw
      · obtain rfl := Option.some.inj he
        exact h
      · split at he
        case h_2 => simp at he
        case h_1 ra rb rc ha hb hc =>
          simp only [Option.some.injEq] at he
          subst he
          have hrows : ∀ (rows : List (List F)) (ts : List (Term N F)) (r : List F),
              (∀ r ∈ rows, r.length = cs.w.length) →
              writeRow cs.vars ts (List.replicate cs.w.length 0) = some r →
              ∀ r' ∈ rows ++ [r], r'.length = cs.w.length := by
            intro rows ts r hr hwr r' hmem
            rcases List.mem_append.mp hmem with hr' | hr'
            · exact hr r' hr'
            · obtain rfl : r' = r := by simpa using hr'
              simpa using writeRow_length hwr
          exact ⟨h.columns, h.localsLocal, h.localsMem, by simp [h.lengthB], by simp [h.lengthC],
            hrows _ _ _ h.rowsA ha, hrows _ _ _ h.rowsB hb, hrows _ _ _ h.rowsC hc⟩
  | sealLocals =>
      simp only [R1CS.exec, Option.some.injEq] at he
      subst he
      refine ⟨⟨h.columns.pos, ?_, ?_⟩, by simp, ?_, h.lengthB, h.lengthC, h.rowsA, h.rowsB,
        h.rowsC⟩
      · intro n m j hn hn'
        simp only at hn hn'
        split_ifs at hn hn'
        exact h.columns.inj n m j hn hn'
      · intro n j hn
        simp only at hn
        split_ifs at hn
        exact h.columns.bound n j hn
      · intro n hn hl
        simp only at hn
        split_ifs at hn with hmem
        · simp at hn
        · exact absurd (h.localsMem n hn hl) hmem

variable {ops : List (Op N F)}

theorem Shaped.run (h : Shaped cs) (ht : Tidy ops cs) (hrun : R1CS.run ops cs = some cs') :
    Shaped cs' := by
  induction ops generalizing cs with
  | nil =>
      obtain rfl := Option.some.inj hrun
      exact h
  | cons op ops ih =>
      rw [R1CS.run_cons, Option.bind_eq_some_iff] at hrun
      obtain ⟨cs₁, he, hrun⟩ := hrun
      exact ih (h.exec ht.1 he) (ht.2 cs₁ he) hrun

/-- A global name keeps its column for good. -/
theorem Shaped.vars_exec {n : N} {j : ℕ} (h : Shaped cs) (he : cs.exec op = some cs')
    (hn : isLocal n = false) (hj : cs.vars n = some j) :
    cs'.vars n = some j := by
  by_cases hop : op = .sealLocals
  · subst hop
    obtain rfl := Option.some.inj he
    have hmem : n ∉ cs.locals := fun hmem => by simp [h.localsLocal n hmem] at hn
    simpa [hmem] using hj
  · exact R1CS.vars_exec he hop hj

theorem Shaped.vars_run {n : N} {j : ℕ} (h : Shaped cs) (ht : Tidy ops cs)
    (hrun : R1CS.run ops cs = some cs') (hn : isLocal n = false) (hj : cs.vars n = some j) :
    cs'.vars n = some j := by
  induction ops generalizing cs with
  | nil =>
      obtain rfl : cs = cs' := by simpa using hrun
      exact hj
  | cons op ops ih =>
      rw [R1CS.run_cons, Option.bind_eq_some_iff] at hrun
      obtain ⟨cs₁, he, hrun⟩ := hrun
      exact ih (h.exec ht.1 he) (ht.2 cs₁ he) hrun (h.vars_exec he hn hj)

/-! ## Rows by names -/

variable {z : ℕ → F}

variable {m : ℕ}

/-- What one call adds to the conditions on an assignment of the columns. -/
theorem Shaped.satFrom_exec (h : Shaped cs) (ht : op.Tidy cs) (he : cs.exec op = some cs')
    (hq : cs.witnessOnly = false) (hz : z 0 = 1) (hm : m ≤ cs.a.length) :
    cs'.SatFrom m z ↔ cs.SatFrom m z ∧ op.Sat fun n => z (cs.var n) := by
  cases op with
  | newVar n =>
      obtain rfl : cs.newVar n = cs' := by simpa [R1CS.exec] using he
      simp [R1CS.satFrom_newVar, Op.Sat]
  | newLocalVar n =>
      simp only [R1CS.exec] at he
      split at he
      · simp at he
      · obtain rfl := Option.some.inj he
        simpa [Op.Sat, R1CS.SatFrom] using R1CS.satFrom_newVar cs n m z
  | set n reads f =>
      simp only [R1CS.exec] at he
      split at he
      · split_ifs at he
        obtain rfl := Option.some.inj he
        simp [Op.Sat, R1CS.SatFrom]
      · simp at he
  | check reads q =>
      simp only [R1CS.exec] at he
      split_ifs at he
      obtain rfl := Option.some.inj he
      simp [Op.Sat]
  | constraint a b c =>
      obtain ⟨hfa, hfb, hfc⟩ := ht
      simp only [R1CS.exec] at he
      rw [if_neg (by simp [hq])] at he
      split at he
      · rename_i ra rb rc ha hb hc
        obtain rfl := Option.some.inj he
        have hrow : ∀ (ts : List (Term N F)) (r : List F), freshRow [] ts = true →
            writeRow cs.vars ts (List.replicate cs.w.length 0) = some r →
            dot r z = lc (fun n => z (cs.var n)) ts := by
          intro ts r hfresh hw
          have hcols : Columns cs.vars (List.replicate cs.w.length (0 : F)).length := by
            simpa using h.columns
          have hzero : ∀ i, (∀ o ∈ ([] : List (Option N)), column cs.vars o ≠ some i) →
              (List.replicate cs.w.length (0 : F)).getD i 0 = 0 := by
            intro i _
            by_cases hi : i < cs.w.length <;> simp [hi]
          rw [(dot_writeRow hz hcols hfresh hzero hw).2, dot_replicate_zero, zero_add]
          rfl
        rw [R1CS.satFrom_push hm h.lengthB h.lengthC, hrow a ra hfa ha, hrow b rb hfb hb,
          hrow c rc hfc hc, Op.Sat]
      · simp at he
  | sealLocals =>
      obtain rfl := Option.some.inj he
      simp [Op.Sat, R1CS.SatFrom]

omit [ScopedName N] in
/-- The condition of a call depends only on the names of its rows. -/
theorem op_sat_congr {σ τ : N → F} (he : cs.exec op = some cs') (hq : cs.witnessOnly = false)
    (h : ∀ n j, cs.vars n = some j → σ n = τ n) : op.Sat σ ↔ op.Sat τ := by
  cases op with
  | constraint a b c =>
      simp only [R1CS.exec, hq, Bool.false_eq_true, if_false] at he
      split at he
      · rename_i ra rb rc ha hb hc
        have hlc : ∀ (ts : List (Term N F)) (r : List F),
            writeRow cs.vars ts (List.replicate cs.w.length 0) = some r → lc σ ts = lc τ ts := by
          intro ts r hw
          refine lc_congr fun t ht n hn => ?_
          obtain ⟨j, hj⟩ := Option.isSome_iff_exists.mp (writeRow_defined hw t ht n hn)
          exact h n j hj
        rw [Op.Sat, Op.Sat, hlc a ra ha, hlc b rb hb, hlc c rc hc]
      · simp at he
  | _ => exact Iff.rfl

omit [ScopedName N] in
/-- No row is lost. -/
theorem length_exec (he : cs.exec op = some cs') :
    cs.a.length ≤ cs'.a.length := by
  have hnew : ∀ n, (cs.newVar n).a.length = cs.a.length := by
    intro n
    cases hv : cs.vars n with
    | some j => rw [R1CS.newVar_of_some hv]
    | none => simp [R1CS.newVar_of_none hv]
  cases op with
  | newVar n =>
      obtain rfl : cs.newVar n = cs' := by simpa [R1CS.exec] using he
      exact (hnew n).ge
  | newLocalVar n =>
      simp only [R1CS.exec] at he
      split at he
      · simp at he
      · obtain rfl := Option.some.inj he
        exact (hnew n).ge
  | set n reads f =>
      simp only [R1CS.exec] at he
      split at he
      · split_ifs at he
        obtain rfl := Option.some.inj he
        exact le_rfl
      · simp at he
  | check reads q =>
      simp only [R1CS.exec] at he
      split_ifs at he
      obtain rfl := Option.some.inj he
      exact le_rfl
  | constraint a b c =>
      simp only [R1CS.exec] at he
      split_ifs at he
      · obtain rfl := Option.some.inj he
        exact le_rfl
      · split at he
        · obtain rfl := Option.some.inj he
          rw [List.length_append]
          exact Nat.le_add_right _ _
        · simp at he
  | sealLocals =>
      obtain rfl := Option.some.inj he
      exact le_rfl

/-- A satisfying assignment of the columns satisfies the program read by names. -/
theorem along_of_satFrom (hz : z 0 = 1) (h : Shaped cs) (ht : Tidy ops cs)
    (hrun : R1CS.run ops cs = some cs') (hq : cs.witnessOnly = false) (hm : m ≤ cs.a.length)
    (hsat : cs'.SatFrom m z) :
    cs.SatFrom m z ∧
      Along Op.Sat (fun n => z (cs'.var n)) ops fun n => z ((cs.atSeal ops).var n) := by
  induction ops generalizing cs with
  | nil =>
      obtain rfl : cs = cs' := by simpa using hrun
      exact ⟨hsat, along_nil⟩
  | cons op ops ih =>
      have hrun₀ := hrun
      rw [R1CS.run_cons, Option.bind_eq_some_iff] at hrun
      obtain ⟨cs₁, he, hrun⟩ := hrun
      obtain ⟨hsat₁, hrest⟩ := ih (h.exec ht.1 he) (ht.2 cs₁ he) hrun
        (by rw [R1CS.exec_witnessOnly he, hq]) (hm.trans (length_exec he))
      obtain ⟨hsat₀, hop⟩ := (h.satFrom_exec ht.1 he hq hz hm).mp hsat₁
      refine ⟨hsat₀, ?_⟩
      by_cases hseal : op = .sealLocals
      · subst hseal
        exact along_seal.mpr ⟨_, hrest⟩
      · have hval : ∀ n j, cs.vars n = some j → z (cs.var n) =
            glue (fun n => z (cs'.var n)) (fun n => z ((cs.atSeal (op :: ops)).var n)) n := by
          intro n j hj
          rw [R1CS.var_eq hj]
          by_cases hn : isLocal n = true
          · rw [glue_local hn, R1CS.var_eq (R1CS.vars_atSeal hj)]
          · rw [glue_global (by simpa using hn),
              R1CS.var_eq (h.vars_run ht hrun₀ (by simpa using hn) hj)]
        have hop' := (op_sat_congr he hq hval).mp hop
        rw [← R1CS.atSeal_cons he hseal] at hrest
        exact (along_cons hseal).mpr ⟨hop', hrest⟩

omit [DecidableEq N] in
/-- Choosing the value of a column that no row has. -/
private theorem satFrom_update_fresh {cs : R1CS N F} (h : Shaped cs) (x : F) (hsat : cs.SatFrom m z) :
    cs.SatFrom m (Function.update z cs.w.length x) := by
  have hrow : ∀ rows : List (List F), (∀ r ∈ rows, r.length = cs.w.length) → ∀ i,
      dot (rows.getD i []) (Function.update z cs.w.length x) = dot (rows.getD i []) z := by
    intro rows hrows i
    refine dot_congr fun k hk => ?_
    have hlen : (rows.getD i []).length ≤ cs.w.length := by
      by_cases hi : i < rows.length
      · have hmem : rows.getD i [] ∈ rows := by simp [hi]
        exact (hrows _ hmem).le
      · simp [hi]
    exact Function.update_of_ne (by omega) _ _
  intro i hge hi
  rw [hrow _ h.rowsA, hrow _ h.rowsB, hrow _ h.rowsC]
  exact hsat i hge hi

/-- Values of the global names that fit the program extend to an assignment of the columns
that satisfies its rows; columns that were there keep their values. -/
theorem exists_satFrom_of_along {ρ l : N → F} (h : Shaped cs) (ht : Tidy ops cs)
    (hrun : R1CS.run ops cs = some cs') (hq : cs.witnessOnly = false) (hm : m ≤ cs.a.length)
    (hfit : Along Op.Sat ρ ops l) (hz : z 0 = 1)
    (hval : ∀ n j, cs.vars n = some j → z j = glue ρ l n) (hsat : cs.SatFrom m z) :
    ∃ z', z' 0 = 1 ∧ cs'.SatFrom m z' ∧ (∀ j < cs.w.length, z' j = z j) ∧
      ∀ n j, isLocal n = false → cs'.vars n = some j → z' j = ρ n := by
  induction ops generalizing cs l z with
  | nil =>
      obtain rfl : cs = cs' := by simpa using hrun
      exact ⟨z, hz, hsat, fun _ _ => rfl, fun n j hn hj => by rw [hval n j hj, glue_global hn]⟩
  | cons op ops ih =>
      rw [R1CS.run_cons, Option.bind_eq_some_iff] at hrun
      obtain ⟨cs₁, he, hrun⟩ := hrun
      have hm₁ := hm.trans (length_exec he)
      have h₁ := h.exec ht.1 he
      have ht₁ := ht.2 cs₁ he
      have hq₁ : cs₁.witnessOnly = false := by rw [R1CS.exec_witnessOnly he, hq]
      -- the column of a fresh name gets the value of that name
      have fresh : ∀ n, cs.vars n = none → cs₁.vars = (cs.newVar n).vars →
          cs₁.w = (cs.newVar n).w → (∀ z', cs₁.SatFrom m z' ↔ (cs.newVar n).SatFrom m z') →
          Along Op.Sat ρ ops l → ∃ z', z' 0 = 1 ∧ cs'.SatFrom m z' ∧
            (∀ j < cs.w.length, z' j = z j) ∧
            ∀ n j, isLocal n = false → cs'.vars n = some j → z' j = ρ n := by
        intro n hn hvars hw hsat₁ hrest
        have hpos := h.columns.pos
        obtain ⟨z', hz', hsat', hold, hglob⟩ :=
          ih h₁ ht₁ hrun hq₁ hm₁ hrest
            (show Function.update z cs.w.length (glue ρ l n) 0 = 1 by
              rwa [Function.update_of_ne (by omega)])
            (by
              intro m j hj
              rw [hvars, R1CS.newVar_of_none hn] at hj
              simp only [Function.update_apply] at hj
              split_ifs at hj with hmn
              · obtain rfl : cs.w.length = j := by simpa using hj
                rw [hmn, Function.update_self]
              · have hlt := (h.columns.bound m j hj).2
                rw [Function.update_of_ne (by omega), hval m j hj])
            (by
              rw [hsat₁, R1CS.satFrom_newVar]
              exact satFrom_update_fresh h _ hsat)
        refine ⟨z', hz', hsat', fun j hj => ?_, hglob⟩
        have hlen : cs₁.w.length = cs.w.length + 1 := by
          rw [hw, R1CS.newVar_of_none hn]
          exact List.length_append
        rw [hold j (by omega), Function.update_of_ne (by omega)]
      by_cases hseal : op = .sealLocals
      · subst hseal
        obtain ⟨l', hrest⟩ := along_seal.mp hfit
        obtain rfl := Option.some.inj he
        have hval' : ∀ n j, (if n ∈ cs.locals then none else cs.vars n) = some j →
            z j = glue ρ l' n := by
          intro n j hj
          split_ifs at hj with hmem
          have hn : isLocal n = false := by
            rw [Bool.eq_false_iff]
            exact fun hl => hmem (h.localsMem n (by simp [hj]) hl)
          rw [hval n j hj, glue_global hn, glue_global hn]
        have hnext := ih h₁ ht₁ hrun hq₁ hm₁ hrest hz hval' hsat
        exact hnext
      · obtain ⟨hop, hrest⟩ := (along_cons hseal).mp hfit
        have hsat₁ : cs₁.SatFrom m z := by
          rw [h.satFrom_exec ht.1 he hq hz hm]
          refine ⟨hsat, (op_sat_congr he hq fun n j hj => ?_).mp hop⟩
          rw [R1CS.var_eq hj, hval n j hj]
        -- no other call changes the columns of names
        have keep : cs₁.vars = cs.vars → cs₁.w.length = cs.w.length →
            ∃ z', z' 0 = 1 ∧ cs'.SatFrom m z' ∧ (∀ j < cs.w.length, z' j = z j) ∧
              ∀ n j, isLocal n = false → cs'.vars n = some j → z' j = ρ n := by
          intro hvars hw
          rw [← hw]
          exact ih h₁ ht₁ hrun hq₁ hm₁ hrest hz (fun n j hj => hval n j (hvars ▸ hj)) hsat₁
        cases op with
        | newVar n =>
            obtain rfl : cs.newVar n = cs₁ := by simpa [R1CS.exec] using he
            cases hv : cs.vars n with
            | some j => exact keep (by rw [R1CS.newVar_of_some hv]) (by rw [R1CS.newVar_of_some hv])
            | none => exact fresh n hv rfl rfl (fun _ => Iff.rfl) hrest
        | newLocalVar n =>
            simp only [R1CS.exec] at he
            split at he
            · simp at he
            · rename_i hv
              obtain rfl := Option.some.inj he
              exact fresh n hv rfl rfl (fun _ => Iff.rfl) hrest
        | set n reads f =>
            simp only [R1CS.exec] at he
            split at he
            · split_ifs at he
              obtain rfl := Option.some.inj he
              exact keep rfl (List.length_set ..)
            · simp at he
        | check reads q =>
            simp only [R1CS.exec] at he
            split_ifs at he
            obtain rfl := Option.some.inj he
            exact keep rfl rfl
        | constraint a b c =>
            simp only [R1CS.exec, hq, Bool.false_eq_true, if_false] at he
            split at he
            · obtain rfl := Option.some.inj he
              exact keep rfl rfl
            · simp at he
        | sealLocals => exact absurd rfl hseal

end NexusVm.Builder
