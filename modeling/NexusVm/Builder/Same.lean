import NexusVm.Builder.Like

/-!
# Systems with the same layout

Like programs number their names alike, whatever they compute, and with equal
coefficients they build the same matrices (`run_like`).  The rows of a program
have no influence on the values: without its constraints, a well-scoped program
computes the same (`run_values`).
-/

namespace NexusVm.Builder

variable {N F G : Type} [DecidableEq N] [Field F] [Field G] {R : F → G → Prop}

namespace R1CS

/-- Two systems number their names alike. -/
structure SameLayout (cs : R1CS N F) (cs' : R1CS N G) : Prop where
  vars : cs.vars = cs'.vars
  width : cs.w.length = cs'.w.length
  locals : cs.locals = cs'.locals

/-- Two systems over one field have the same rows. -/
structure SameRows (cs cs' : R1CS N F) : Prop extends SameLayout cs cs' where
  a : cs.a = cs'.a
  b : cs.b = cs'.b
  c : cs.c = cs'.c
  witnessOnly : cs.witnessOnly = cs'.witnessOnly

/-- Two systems have the same values. -/
structure SameValues (cs cs' : R1CS N F) : Prop where
  vars : cs.vars = cs'.vars
  w : cs.w = cs'.w
  locals : cs.locals = cs'.locals

theorem SameLayout.newVar {cs : R1CS N F} {cs' : R1CS N G} (h : SameLayout cs cs') (n : N) :
    SameLayout (cs.newVar n) (cs'.newVar n) := by
  have hv := h.vars
  cases hn : cs.vars n with
  | some j =>
      rw [newVar_of_some hn, newVar_of_some (hv ▸ hn)]
      exact h
  | none =>
      rw [newVar_of_none hn, newVar_of_none (hv ▸ hn)]
      exact ⟨by rw [hv, h.width], by simp [h.width], h.locals⟩

theorem SameRows.newVar {cs cs' : R1CS N F} (h : SameRows cs cs') (n : N) :
    SameRows (cs.newVar n) (cs'.newVar n) := by
  refine { h.toSameLayout.newVar n with a := ?_, b := ?_, c := ?_, witnessOnly := ?_ } <;>
  · unfold R1CS.newVar
    rw [h.vars]
    split <;> simp [h.a, h.b, h.c, h.witnessOnly]

variable {cs' cs₁' : R1CS N G}

/-- Like calls keep the layouts of two systems the same. -/
theorem SameLayout.exec {cs cs₁ : R1CS N F} {x : Op N F} {y : Op N G} (h : SameLayout cs cs')
    (hxy : x.Like R y) (hx : cs.exec x = some cs₁) (hy : cs'.exec y = some cs₁') :
    SameLayout cs₁ cs₁' := by
  cases x <;> cases y <;> simp only [Op.Like] at hxy
  case newVar.newVar n m =>
    subst hxy
    obtain rfl := Option.some.inj hx
    obtain rfl := Option.some.inj hy
    exact h.newVar n
  case newLocalVar.newLocalVar n m =>
    subst hxy
    simp only [R1CS.exec] at hx hy
    split at hx
    · cases hx
    split at hy
    · cases hy
    obtain rfl := Option.some.inj hx
    obtain rfl := Option.some.inj hy
    exact ⟨(h.newVar n).vars, (h.newVar n).width, by simp [h.locals]⟩
  case set.set n reads f m reads' f' =>
    simp only [R1CS.exec] at hx hy
    split at hx
    · split at hy
      · split_ifs at hx hy
        obtain rfl := Option.some.inj hx
        obtain rfl := Option.some.inj hy
        exact ⟨h.vars, by simp [h.width], h.locals⟩
      · cases hy
    · cases hx
  case check.check reads q reads' q' =>
    simp only [R1CS.exec] at hx hy
    split_ifs at hx hy
    obtain rfl := Option.some.inj hx
    obtain rfl := Option.some.inj hy
    exact h
  case constraint.constraint a b c a' b' c' =>
    have hkeep : ∀ {K : Type} [Field K] {ds ds₁ : R1CS N K} {a b c : List (Term N K)},
        ds.exec (.constraint a b c) = some ds₁ →
        ds₁.vars = ds.vars ∧ ds₁.w = ds.w ∧ ds₁.locals = ds.locals := by
      intro K _ ds ds₁ a b c he
      simp only [R1CS.exec] at he
      split_ifs at he
      · obtain rfl := Option.some.inj he
        exact ⟨rfl, rfl, rfl⟩
      · split at he
        · obtain rfl := Option.some.inj he
          exact ⟨rfl, rfl, rfl⟩
        · cases he
    obtain ⟨hv, hw, hl⟩ := hkeep hx
    obtain ⟨hv', hw', hl'⟩ := hkeep hy
    exact ⟨by rw [hv, hv', h.vars], by rw [hw, hw', h.width], by rw [hl, hl', h.locals]⟩
  case sealLocals.sealLocals =>
    obtain rfl := Option.some.inj hx
    obtain rfl := Option.some.inj hy
    exact ⟨by simp only [h.vars, h.locals], h.width, rfl⟩

theorem SameLayout.run {cs cs₁ : R1CS N F} {xs : List (Op N F)} {ys : List (Op N G)}
    (h : SameLayout cs cs') (hxy : Like R xs ys) (hx : R1CS.run xs cs = some cs₁)
    (hy : R1CS.run ys cs' = some cs₁') :
    SameLayout cs₁ cs₁' := by
  induction hxy generalizing cs cs' with
  | nil =>
      obtain rfl := Option.some.inj hx
      obtain rfl := Option.some.inj hy
      exact h
  | cons hop _ ih =>
      rw [run_cons, Option.bind_eq_some_iff] at hx hy
      obtain ⟨cs₂, hx, hxs⟩ := hx
      obtain ⟨cs₂', hy, hys⟩ := hy
      exact ih (h.exec hop hx hy) hxs hys

end R1CS

omit [DecidableEq N] [Field F] in
theorem terms_eq_of_like {a b : List (Term N F)} (h : List.Forall₂ (Term.Like Eq) a b) :
    a = b := by
  induction h with
  | nil => rfl
  | @cons t u ts us ht _ ih =>
      rw [ih]
      cases t <;> cases u <;> simp only [Term.Like] at ht
      · rw [ht]
      · rw [ht.1, ht.2]
      · rw [ht.1, ht.2]

namespace R1CS

variable {cs cs₁ cs' cs₁' : R1CS N F}

/-- Like calls with equal coefficients keep the rows of two systems the same. -/
theorem SameRows.exec {x y : Op N F} (h : SameRows cs cs') (hxy : x.Like Eq y)
    (hx : cs.exec x = some cs₁) (hy : cs'.exec y = some cs₁') :
    SameRows cs₁ cs₁' := by
  have hlay := h.toSameLayout.exec hxy hx hy
  cases x <;> cases y <;> simp only [Op.Like] at hxy
  case newVar.newVar n m =>
    subst hxy
    obtain rfl := Option.some.inj hx
    obtain rfl := Option.some.inj hy
    exact h.newVar n
  case newLocalVar.newLocalVar n m =>
    subst hxy
    simp only [R1CS.exec] at hx hy
    split at hx
    · cases hx
    split at hy
    · cases hy
    obtain rfl := Option.some.inj hx
    obtain rfl := Option.some.inj hy
    have hn := h.newVar n
    exact ⟨hlay, hn.a, hn.b, hn.c, hn.witnessOnly⟩
  case set.set n reads f m reads' f' =>
    simp only [R1CS.exec] at hx hy
    split at hx
    · split at hy
      · split_ifs at hx hy
        obtain rfl := Option.some.inj hx
        obtain rfl := Option.some.inj hy
        exact ⟨hlay, h.a, h.b, h.c, h.witnessOnly⟩
      · cases hy
    · cases hx
  case check.check reads q reads' q' =>
    simp only [R1CS.exec] at hx hy
    split_ifs at hx hy
    obtain rfl := Option.some.inj hx
    obtain rfl := Option.some.inj hy
    exact h
  case constraint.constraint a b c a' b' c' =>
    obtain rfl := terms_eq_of_like hxy.1
    obtain rfl := terms_eq_of_like hxy.2.1
    obtain rfl := terms_eq_of_like hxy.2.2
    simp only [R1CS.exec, ← h.vars, ← h.width, ← h.witnessOnly] at hx hy
    split_ifs at hx hy
    · obtain rfl := Option.some.inj hx
      obtain rfl := Option.some.inj hy
      exact h
    · split at hx
      · rename_i ra rb rc ha hb hc
        rw [ha, hb, hc] at hy
        obtain rfl := Option.some.inj hx
        obtain rfl := Option.some.inj hy
        exact ⟨hlay, by simp [h.a], by simp [h.b], by simp [h.c], rfl⟩
      · cases hx
  case sealLocals.sealLocals =>
    obtain rfl := Option.some.inj hx
    obtain rfl := Option.some.inj hy
    exact ⟨hlay, h.a, h.b, h.c, h.witnessOnly⟩

/-- **Like programs with equal coefficients build the same matrices.** -/
theorem SameRows.run {xs ys : List (Op N F)} (h : SameRows cs cs') (hxy : Like Eq xs ys)
    (hx : R1CS.run xs cs = some cs₁) (hy : R1CS.run ys cs' = some cs₁') :
    SameRows cs₁ cs₁' := by
  induction hxy generalizing cs cs' with
  | nil =>
      obtain rfl := Option.some.inj hx
      obtain rfl := Option.some.inj hy
      exact h
  | cons hop _ ih =>
      rw [run_cons, Option.bind_eq_some_iff] at hx hy
      obtain ⟨cs₂, hx, hxs⟩ := hx
      obtain ⟨cs₂', hy, hys⟩ := hy
      exact ih (h.exec hop hx hy) hxs hys

variable {cs cs' : R1CS N F}

/-- Assigning a name that has a column changes no row. -/
theorem SameRows.of_known {n : N} {v : F} (hn : (cs.vars n).isSome)
    (h : R1CS.run [.newVar n, .set n [] fun _ => v] cs = some cs') : SameRows cs cs' := by
  obtain ⟨j, hj⟩ := Option.isSome_iff_exists.mp hn
  have hnew : cs.exec (.newVar n) = some cs := congrArg some (newVar_of_some hj)
  have hset : cs.exec (.set n [] fun _ => v) = some { cs with w := cs.w.set j v } := by
    simp [R1CS.exec, hj]
  rw [run_cons, hnew, Option.bind_some, run_cons, hset, Option.bind_some] at h
  obtain rfl := Option.some.inj h
  exact ⟨⟨rfl, by simp, rfl⟩, rfl, rfl, rfl, rfl⟩

omit [DecidableEq N] [Field F] in
theorem SameRows.trans {cs cs' cs'' : R1CS N F} (h : SameRows cs cs') (h' : SameRows cs' cs'') :
    SameRows cs cs'' :=
  ⟨⟨h.vars.trans h'.vars, h.width.trans h'.width, h.locals.trans h'.locals⟩, h.a.trans h'.a,
    h.b.trans h'.b, h.c.trans h'.c, h.witnessOnly.trans h'.witnessOnly⟩

omit [DecidableEq N] [Field F] in
theorem SameRows.symm (h : SameRows cs cs') : SameRows cs' cs :=
  ⟨⟨h.vars.symm, h.width.symm, h.locals.symm⟩, h.a.symm, h.b.symm, h.c.symm, h.witnessOnly.symm⟩

/-- A name that a program without a seal allocates has a column afterwards. -/
theorem isSome_vars_of_newVar {ops : List (Op N F)} {n : N} (hs : sealFree ops = true)
    (hn : (cs.vars n).isSome ∨ .newVar n ∈ ops) (h : R1CS.run ops cs = some cs') :
    (cs'.vars n).isSome := by
  have hgrow : ∀ {ds ds' : R1CS N F} {op : Op N F}, op ≠ .sealLocals → ds.exec op = some ds' →
      (ds.vars n).isSome ∨ op = .newVar n → (ds'.vars n).isSome := by
    intro ds ds' op hop he hn
    have hnew : ∀ m, (ds.vars n).isSome ∨ m = n → ((ds.newVar m).vars n).isSome := by
      intro m hm
      cases hv : ds.vars m with
      | some j =>
          rw [newVar_of_some hv]
          rcases hm with hm | rfl
          · exact hm
          · simp [hv]
      | none =>
          rw [newVar_of_none hv]
          by_cases hmn : n = m
          · simp [hmn]
          · rcases hm with hm | hm
            · simpa [Function.update_apply, hmn] using hm
            · exact absurd hm.symm hmn
    cases op with
    | newVar m =>
        obtain rfl := Option.some.inj he
        exact hnew m (hn.imp id fun h => by simpa using h)
    | newLocalVar m =>
        simp only [exec] at he
        split at he
        · cases he
        obtain rfl := Option.some.inj he
        exact hnew m (hn.imp id fun h => by simp at h)
    | set m reads f =>
        simp only [exec] at he
        split at he
        · split_ifs at he
          obtain rfl := Option.some.inj he
          simpa using hn
        · cases he
    | check reads q =>
        simp only [exec] at he
        split_ifs at he
        obtain rfl := Option.some.inj he
        simpa using hn
    | constraint a b c =>
        simp only [exec] at he
        split_ifs at he
        · obtain rfl := Option.some.inj he
          simpa using hn
        · split at he
          · obtain rfl := Option.some.inj he
            simpa using hn
          · cases he
    | sealLocals => exact absurd rfl hop
  induction ops generalizing cs with
  | nil =>
      obtain rfl := Option.some.inj h
      simpa using hn
  | cons op ops ih =>
      rw [sealFree_cons, Bool.and_eq_true] at hs
      rw [run_cons, Option.bind_eq_some_iff] at h
      obtain ⟨cs₁, he, h⟩ := h
      have hop : op ≠ .sealLocals := by
        rintro rfl
        exact Bool.false_ne_true hs.1
      refine ih hs.2 ?_ h
      rcases hn with hn | hn
      · exact Or.inl (hgrow hop he (Or.inl hn))
      · rcases List.mem_cons.mp hn with rfl | hn
        · exact Or.inl (hgrow hop he (Or.inr rfl))
        · exact Or.inr hn

end R1CS

/-- Whether a call is a constraint. -/
def Op.isConstraint : Op N F → Bool
  | .constraint .. => true
  | _ => false

/-- A program without its constraints. -/
def erase (ops : List (Op N F)) : List (Op N F) := ops.filter fun op => !op.isConstraint

section Erase

omit [DecidableEq N] [Field F]

@[simp] theorem erase_nil : erase ([] : List (Op N F)) = [] := rfl

@[simp] theorem erase_cons {op : Op N F} {ops : List (Op N F)} :
    erase (op :: ops) = if op.isConstraint then erase ops else op :: erase ops := by
  cases h : op.isConstraint <;> simp [erase, h]

@[simp] theorem erase_append {xs ys : List (Op N F)} :
    erase (xs ++ ys) = erase xs ++ erase ys := by
  simp [erase]

@[simp] theorem erase_flatMap {α : Type} {xs : List α} {g : α → List (Op N F)} :
    erase (xs.flatMap g) = xs.flatMap fun x => erase (g x) := by
  induction xs with
  | nil => rfl
  | cons x xs ih => rw [List.flatMap_cons, List.flatMap_cons, erase_append, ih]

@[simp] theorem erase_map {α : Type} {xs : List α} {g : α → Op N F}
    (h : ∀ x ∈ xs, (g x).isConstraint = true) : erase (xs.map g) = [] := by
  simpa [erase] using h

end Erase

namespace R1CS

/-- Under `witness_only`, constraints do nothing. -/
theorem run_erase {ops : List (Op N F)} {cs : R1CS N F} (h : cs.witnessOnly = true) :
    R1CS.run (erase ops) cs = R1CS.run ops cs := by
  induction ops generalizing cs with
  | nil => rfl
  | cons op ops ih =>
      have hnext : ∀ cs', cs.exec op = some cs' → R1CS.run (erase ops) cs' = R1CS.run ops cs' :=
        fun cs' he => ih (by rw [exec_witnessOnly he, h])
      rw [erase_cons]
      split_ifs with hc
      · cases op with
        | constraint a b c => rw [run_cons, ih h]; simp [exec, h]
        | _ => simp [Op.isConstraint] at hc
      · rw [run_cons, run_cons]
        cases he : cs.exec op with
        | none => rfl
        | some cs' => exact hnext cs' he

/-- A call other than a constraint does the same to systems of the same values. -/
theorem SameValues.exec {cs cs' : R1CS N F} {op : Op N F} (h : SameValues cs cs')
    (hop : op.isConstraint = false) :
    (∃ cs₁ cs₁', cs.exec op = some cs₁ ∧ cs'.exec op = some cs₁' ∧ SameValues cs₁ cs₁') ∨
      (cs.exec op = none ∧ cs'.exec op = none) := by
  have hval : cs.value = cs'.value := by
    funext n
    rw [R1CS.value, R1CS.value, R1CS.var, R1CS.var, h.vars, h.w]
  have hnew : ∀ n, SameValues (cs.newVar n) (cs'.newVar n) := by
    intro n
    cases hn : cs.vars n with
    | some j =>
        rw [newVar_of_some hn, newVar_of_some (h.vars ▸ hn)]
        exact h
    | none =>
        rw [newVar_of_none hn, newVar_of_none (h.vars ▸ hn)]
        exact ⟨by rw [h.vars, h.w], by rw [h.w], h.locals⟩
  cases op with
  | newVar n => exact Or.inl ⟨_, _, rfl, rfl, hnew n⟩
  | newLocalVar n =>
      cases hn : cs.vars n with
      | some j => exact Or.inr ⟨by simp [R1CS.exec, hn], by simp [R1CS.exec, ← h.vars, hn]⟩
      | none =>
          refine Or.inl ⟨{ cs.newVar n with locals := cs.locals ++ [n] },
            { cs'.newVar n with locals := cs'.locals ++ [n] }, ?_, ?_, (hnew n).vars,
              (hnew n).w, ?_⟩
          · simp only [R1CS.exec, hn]
          · simp only [R1CS.exec, ← h.vars, hn]
          · simp only [h.locals]
  | set n reads f =>
      simp only [R1CS.exec, ← h.vars, ← hval]
      cases hn : cs.vars n with
      | none => exact Or.inr ⟨rfl, rfl⟩
      | some j =>
          split_ifs
          · exact Or.inl ⟨_, _, rfl, rfl, rfl, by simp [h.w], h.locals⟩
          · exact Or.inr ⟨rfl, rfl⟩
  | check reads q =>
      simp only [R1CS.exec, ← h.vars, ← hval]
      split_ifs
      · exact Or.inl ⟨_, _, rfl, rfl, h⟩
      · exact Or.inr ⟨rfl, rfl⟩
  | constraint a b c => simp [Op.isConstraint] at hop
  | sealLocals => exact Or.inl ⟨_, _, rfl, rfl, by simp only [h.vars, h.locals], h.w, rfl⟩

end R1CS

variable [ScopedName N]

/-- Only allocated names are written. -/
def Scope.Tidy (N : Type) [ScopedName N] (S : Scope) : Prop :=
  ∀ n : N, S.isWritten n = true → S.isAllocated n = true

namespace Scope

omit [DecidableEq N] [Field F] in
theorem tidy_empty : Tidy N empty := by
  intro n h
  by_cases hl : isLocal n <;> simp [isWritten, empty, hl] at h

omit [Field F] in
theorem Tidy.step {redo : N → Bool} {S S' : Scope} {op : Op N F} (h : Tidy N S)
    (hs : S.step redo op = some S') : Tidy N S' := by
  have hnew : ∀ n : N, slotted n = true → Tidy N (S.allocate n) := by
    intro n hn m hm
    rw [isWritten_allocate] at hm
    rw [isAllocated_allocate hn, h m hm, Bool.or_true]
  intro n hn
  cases op with
  | newVar m =>
      simp only [Scope.step] at hs
      split_ifs at hs with ha hc <;> obtain rfl := Option.some.inj hs
      · exact h n hn
      · rw [Bool.and_eq_true] at hc
        exact hnew m hc.2 n hn
  | newLocalVar m =>
      simp only [Scope.step] at hs
      split_ifs at hs with hc
      obtain rfl := Option.some.inj hs
      simp only [Bool.and_eq_true] at hc
      exact hnew m hc.1.2 n hn
  | set m reads f =>
      simp only [Scope.step] at hs
      split_ifs at hs with hc hr hw <;> obtain rfl := Option.some.inj hs
      · exact h n hn
      · rw [Bool.and_eq_true] at hc
        rw [isWritten_write (slotted_of_isAllocated hc.1), Bool.or_eq_true, decide_eq_true_eq] at hn
        rw [isAllocated_write]
        rcases hn with rfl | hn
        · exact hc.1
        · exact h n hn
  | check reads q =>
      simp only [Scope.step] at hs
      split_ifs at hs
      obtain rfl := Option.some.inj hs
      exact h n hn
  | constraint a b c =>
      simp only [Scope.step] at hs
      split_ifs at hs
      obtain rfl := Option.some.inj hs
      exact h n hn
  | sealLocals =>
      obtain rfl := Option.some.inj hs
      rw [isWritten_close, Bool.and_eq_true] at hn
      rw [isAllocated_close, hn.1, h n hn.2, Bool.and_self]

omit [Field F] in
theorem Tidy.steps {redo : N → Bool} {S S' : Scope} {ops : List (Op N F)} (h : Tidy N S)
    (hs : Scope.steps redo ops S = some S') : Tidy N S' := by
  induction ops generalizing S with
  | nil =>
      obtain rfl := Option.some.inj hs
      exact h
  | cons op ops ih =>
      rw [Scope.steps, Option.bind_eq_some_iff] at hs
      obtain ⟨S₁, hstep, hs⟩ := hs
      exact ih (h.step hstep) hs

end Scope

/-- A constraint over known names is never a panic. -/
theorem Matches.exec_constraint {redo : N → Bool} {S S' : Scope} {cs : R1CS N F}
    {a b c : List (Term N F)} (hm : Matches S cs) (ht : S.Tidy N)
    (hs : S.step redo (.constraint a b c) = some S') :
    ∃ cs', cs.exec (.constraint a b c) = some cs' ∧ cs'.SameValues cs := by
  simp only [Scope.step] at hs
  split_ifs at hs with hc
  simp only [Bool.and_eq_true] at hc
  have hex : ∀ ts : List (Term N F), S.rowOk false 0 ts = true →
      ∃ r, writeRow cs.vars ts (List.replicate cs.w.length 0) = some r := by
    intro ts hok
    refine writeRow_isSome _ fun t hmem n hn => (hm.allocated n).mp ?_
    have hkn := Scope.rowOk_known hok t hmem n hn
    by_cases hl : isLocal n = true
    · exact ht n (by simpa [Scope.isKnown, Scope.isWritten, hl] using hkn)
    · simpa [Scope.isKnown, Scope.isAllocated, hl] using hkn
  obtain ⟨ra, ha⟩ := hex a hc.1.1
  obtain ⟨rb, hb⟩ := hex b hc.1.2
  obtain ⟨rc, hc⟩ := hex c hc.2
  cases hq : cs.witnessOnly with
  | true => exact ⟨cs, by simp [R1CS.exec, hq], rfl, rfl, rfl⟩
  | false =>
      exact ⟨{ cs with a := cs.a ++ [ra], b := cs.b ++ [rb], c := cs.c ++ [rc] },
        by simp [R1CS.exec, hq, ha, hb, hc], rfl, rfl, rfl⟩

/-- **Values without rows.**  A well-scoped program computes the same values
as without its constraints, and fails only if it does so without them. -/
theorem Matches.run_values {redo : N → Bool} {ops : List (Op N F)} {S S' : Scope}
    {cs cs' : R1CS N F} (hm : Matches S cs) (ht : S.Tidy N)
    (hs : Scope.steps redo ops S = some S') (hv : cs.SameValues cs') :
    (R1CS.run ops cs).map R1CS.w = (R1CS.run (erase ops) cs').map R1CS.w := by
  induction ops generalizing S cs cs' with
  | nil => simp [hv.w]
  | cons op ops ih =>
      rw [Scope.steps, Option.bind_eq_some_iff] at hs
      obtain ⟨S₁, hstep, hs⟩ := hs
      have ht₁ := ht.step hstep
      rw [erase_cons, R1CS.run_cons]
      split_ifs with hc
      · cases op with
        | constraint a b c =>
            obtain ⟨cs₁, he, hv₁⟩ := hm.exec_constraint ht hstep
            rw [he, Option.bind_some]
            exact ih (hm.exec hstep he) ht₁ hs ⟨hv₁.vars.trans hv.vars, hv₁.w.trans hv.w,
              hv₁.locals.trans hv.locals⟩
        | _ => simp [Op.isConstraint] at hc
      · rw [R1CS.run_cons]
        rcases hv.exec (by simpa using hc) with ⟨cs₁, cs₁', he, he', hv₁⟩ | ⟨he, he'⟩
        · rw [he, he', Option.bind_some, Option.bind_some]
          exact ih (hm.exec hstep he) ht₁ hs hv₁
        · rw [he, he']
          rfl

end NexusVm.Builder
