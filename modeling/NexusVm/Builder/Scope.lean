import NexusVm.Builder.Shaped

/-!
# Scope checking

`Scope.steps` runs through a program without its values and checks that it is
well scoped: every name is allocated before it is used, local names are
allocated as locals and have their value before a row mentions them, computed
values read names that have theirs, and `put` never overwrites an earlier term
of its row.  The check does not look at values or coefficients, so for a fixed
circuit it can be evaluated once for all witnesses.

Sets of names are natural numbers, one bit for the slot of each name.
-/

namespace NexusVm.Builder

section Slots

variable {N : Type} [ScopedName N]

/-- Membership in a set of slots. -/
def hasSlot (s : ℕ) (n : N) : Bool :=
  match ScopedName.slot n with
  | some k => s.testBit k
  | none => false

/-- Add the slot of a name. -/
def addSlot (s : ℕ) (n : N) : ℕ :=
  match ScopedName.slot n with
  | some k => s ||| 1 <<< k
  | none => s

/-- Names outside the numbering cannot be in a set. -/
def slotted (n : N) : Bool := (ScopedName.slot n).isSome

@[simp] theorem hasSlot_zero (n : N) : hasSlot 0 n = false := by
  unfold hasSlot
  cases ScopedName.slot n with
  | none => rfl
  | some k => exact Nat.zero_testBit k

theorem slotted_of_hasSlot {s : ℕ} {n : N} (h : hasSlot s n = true) : slotted n = true := by
  unfold hasSlot at h
  cases hk : ScopedName.slot n with
  | none => simp [hk] at h
  | some k => simp [slotted, hk]

theorem hasSlot_addSlot [DecidableEq N] {s : ℕ} {n m : N} (hm : slotted m = true) :
    hasSlot (addSlot s m) n = (decide (n = m) || hasSlot s n) := by
  obtain ⟨j, hj⟩ := Option.isSome_iff_exists.mp hm
  have hadd : addSlot s m = s ||| 1 <<< j := by simp [addSlot, hj]
  rw [hadd]
  unfold hasSlot
  cases hk : ScopedName.slot n with
  | none =>
      have hne : n ≠ m := by
        rintro rfl
        simp [hj] at hk
      simp [hne]
  | some k =>
      have hiff : n = m ↔ j = k := by
        constructor
        · rintro rfl
          exact Option.some.inj (hj.symm.trans hk)
        · rintro rfl
          exact ScopedName.slot_inj hk hj
      simp only [Nat.testBit_or, Nat.one_shiftLeft, Nat.testBit_two_pow]
      rw [decide_eq_decide.mpr hiff, Bool.or_comm]

end Slots

/-- The names allocated and the names with a value, global and local. -/
@[ext] structure Scope where
  allocated : ℕ
  written : ℕ
  localAllocated : ℕ
  localWritten : ℕ
deriving DecidableEq

namespace Scope

variable {N F : Type} [ScopedName N]

section Check

def empty : Scope := ⟨0, 0, 0, 0⟩

def isAllocated (S : Scope) (n : N) : Bool :=
  if isLocal n then hasSlot S.localAllocated n else hasSlot S.allocated n

def isWritten (S : Scope) (n : N) : Bool :=
  if isLocal n then hasSlot S.localWritten n else hasSlot S.written n

def allocate (S : Scope) (n : N) : Scope :=
  if isLocal n then { S with localAllocated := addSlot S.localAllocated n }
  else { S with allocated := addSlot S.allocated n }

def write (S : Scope) (n : N) : Scope :=
  if isLocal n then { S with localWritten := addSlot S.localWritten n }
  else { S with written := addSlot S.written n }

def close (S : Scope) : Scope := { S with localAllocated := 0, localWritten := 0 }

/-- Whether a row may mention a name. -/
def isKnown (S : Scope) (n : N) : Bool :=
  if isLocal n then hasSlot S.localWritten n else hasSlot S.allocated n

/-- The names of a row are known and `put` writes to no column twice: `c` tells
whether the constant column was written, `m` holds the names written. -/
def rowOk (S : Scope) (c : Bool) (m : ℕ) : List (Term N F) → Bool
  | [] => true
  | .const _ :: ts => !c && rowOk S true m ts
  | .put n _ :: ts => S.isKnown n && !hasSlot m n && rowOk S c (addSlot m n) ts
  | .acc n _ :: ts => S.isKnown n && rowOk S c (addSlot m n) ts

/-- Check one call.  The names in `redo` stay without a value when set. -/
def step (redo : N → Bool) (S : Scope) : Op N F → Option Scope
  | .newVar n =>
      if S.isAllocated n then some S
      else if !isLocal n && slotted n then some (S.allocate n) else none
  | .newLocalVar n =>
      if isLocal n && slotted n && !S.isAllocated n then some (S.allocate n) else none
  | .set n reads _ =>
      if S.isAllocated n && reads.all S.isWritten then
        if redo n then if S.isWritten n then none else some S else some (S.write n)
      else none
  | .check reads _ => if reads.all S.isWritten then some S else none
  | .constraint a b c =>
      if S.rowOk false 0 a && S.rowOk false 0 b && S.rowOk false 0 c then some S else none
  | .sealLocals => some S.close

def steps (redo : N → Bool) : List (Op N F) → Scope → Option Scope
  | [], S => some S
  | op :: ops, S => (S.step redo op).bind (steps redo ops)

theorem steps_append (redo : N → Bool) (ops ops' : List (Op N F)) (S : Scope) :
    steps redo (ops ++ ops') S = (steps redo ops S).bind (steps redo ops') := by
  induction ops generalizing S with
  | nil => rfl
  | cons op ops ih =>
      rw [List.cons_append, steps, steps]
      cases S.step redo op with
      | none => rfl
      | some S' => exact ih S'

/-- Every allocated global name has its value. -/
def complete (S : Scope) : Bool := S.allocated &&& S.written == S.allocated

variable {S : Scope}

theorem isWritten_of_complete (h : S.complete = true) {n : N} (hl : isLocal n = false)
    (ha : S.isAllocated n = true) : S.isWritten n = true := by
  have heq : S.allocated &&& S.written = S.allocated := by simpa [complete] using h
  simp only [isAllocated, isWritten, hl, Bool.false_eq_true, if_false, hasSlot] at ha ⊢
  cases hk : ScopedName.slot n with
  | none => simp [hk] at ha
  | some k =>
      simp only [hk] at ha ⊢
      rw [← heq, Nat.testBit_and, Bool.and_eq_true] at ha
      exact ha.2

variable [DecidableEq N]

theorem isAllocated_allocate {n m : N} (hm : slotted m = true) :
    (S.allocate m).isAllocated n = (decide (n = m) || S.isAllocated n) := by
  by_cases h : n = m
  · subst h
    by_cases hl : isLocal n <;> simp [isAllocated, allocate, hl, hasSlot_addSlot hm]
  · by_cases hl : isLocal m <;> by_cases hn : isLocal n <;>
      simp [isAllocated, allocate, hl, hn, h, hasSlot_addSlot hm]

omit [DecidableEq N] in
@[simp] theorem isWritten_allocate (S : Scope) (n m : N) :
    (S.allocate m).isWritten n = S.isWritten n := by
  by_cases hl : isLocal m <;> simp [isWritten, allocate, hl]

omit [DecidableEq N] in
@[simp] theorem isAllocated_write (S : Scope) (n m : N) :
    (S.write m).isAllocated n = S.isAllocated n := by
  by_cases hl : isLocal m <;> simp [isAllocated, write, hl]

theorem isWritten_write {n m : N} (hm : slotted m = true) :
    (S.write m).isWritten n = (decide (n = m) || S.isWritten n) := by
  by_cases h : n = m
  · subst h
    by_cases hl : isLocal n <;> simp [isWritten, write, hl, hasSlot_addSlot hm]
  · by_cases hl : isLocal m <;> by_cases hn : isLocal n <;>
      simp [isWritten, write, hl, hn, h, hasSlot_addSlot hm]

omit [DecidableEq N] in
@[simp] theorem isAllocated_close (S : Scope) (n : N) :
    S.close.isAllocated n = (!isLocal n && S.isAllocated n) := by
  by_cases hl : isLocal n <;> simp [isAllocated, close, hl]

omit [DecidableEq N] in
@[simp] theorem isWritten_close (S : Scope) (n : N) :
    S.close.isWritten n = (!isLocal n && S.isWritten n) := by
  by_cases hl : isLocal n <;> simp [isWritten, close, hl]

omit [DecidableEq N] in
theorem slotted_of_isAllocated {n : N} (h : S.isAllocated n = true) :
    slotted n = true := by
  unfold isAllocated at h
  split_ifs at h <;> exact slotted_of_hasSlot h

omit [DecidableEq N] in
theorem rowOk_known {c : Bool} {m : ℕ} {ts : List (Term N F)} (h : S.rowOk c m ts = true) :
    ∀ t ∈ ts, ∀ n, t.target = some n → S.isKnown n = true := by
  induction ts generalizing c m with
  | nil => simp
  | cons t ts ih =>
      intro u hu n hn
      cases t with
      | const x =>
          simp only [rowOk, Bool.and_eq_true] at h
          rcases List.mem_cons.mp hu with rfl | hu
          · simp [Term.target] at hn
          · exact ih h.2 u hu n hn
      | put k x =>
          simp only [rowOk, Bool.and_eq_true] at h
          rcases List.mem_cons.mp hu with rfl | hu
          · obtain rfl : k = n := by simpa [Term.target] using hn
            exact h.1.1
          · exact ih h.2 u hu n hn
      | acc k x =>
          simp only [rowOk, Bool.and_eq_true] at h
          rcases List.mem_cons.mp hu with rfl | hu
          · obtain rfl : k = n := by simpa [Term.target] using hn
            exact h.1
          · exact ih h.2 u hu n hn

omit [DecidableEq N] in
theorem slotted_of_isKnown {n : N} (h : S.isKnown n = true) : slotted n = true := by
  unfold isKnown at h
  split_ifs at h <;> exact slotted_of_hasSlot h

/-- The check on rows implies that they are written without overwriting. -/
theorem rowOk_fresh {c : Bool} {m : ℕ} {done : List (Option N)} {ts : List (Term N F)}
    (h : S.rowOk c m ts = true) (hc : none ∈ done → c = true)
    (hm : ∀ n, some n ∈ done → hasSlot m n = true) : freshRow done ts = true := by
  induction ts generalizing c m done with
  | nil => rfl
  | cons t ts ih =>
      have hadd : ∀ n, slotted n = true → ∀ k, some k ∈ some n :: done →
          hasSlot (addSlot m n) k = true := by
        intro n hn k hk
        rw [hasSlot_addSlot hn, Bool.or_eq_true, decide_eq_true_eq]
        rcases List.mem_cons.mp hk with hk | hk
        · exact Or.inl (Option.some.inj hk)
        · exact Or.inr (hm k hk)
      cases t with
      | const x =>
          simp only [rowOk, Bool.and_eq_true, Bool.not_eq_true'] at h
          have hnone : none ∉ done := fun hd => by simp [hc hd] at h
          simp only [freshRow, Bool.and_eq_true, Bool.not_eq_true', List.contains_eq_mem,
            decide_eq_false_iff_not]
          refine ⟨hnone, ih h.2 (fun _ => rfl) fun n hn => hm n ?_⟩
          simpa using hn
      | put n x =>
          simp only [rowOk, Bool.and_eq_true, Bool.not_eq_true'] at h
          have hn : some n ∉ done := fun hd => by simp [hm n hd] at h
          simp only [freshRow, Bool.and_eq_true, Bool.not_eq_true', List.contains_eq_mem,
            decide_eq_false_iff_not]
          exact ⟨hn, ih h.2 (fun hd => hc (by simpa using hd))
            (hadd n (slotted_of_isKnown h.1.1))⟩
      | acc n x =>
          simp only [rowOk, Bool.and_eq_true] at h
          exact ih h.2 (fun hd => hc (by simpa using hd)) (hadd n (slotted_of_isKnown h.1))

end Check

/-! ## More names with a value -/

section Below

/-- Every name keeps its first value. -/
def noRedo : N → Bool := fun _ => false

/-- The same names are allocated, and at least as many have a value. -/
structure Below (N : Type) [ScopedName N] (S T : Scope) : Prop where
  allocated : T.allocated = S.allocated
  localAllocated : T.localAllocated = S.localAllocated
  written : ∀ n : N, S.isWritten n = true → T.isWritten n = true

theorem Below.refl (S : Scope) : Below N S S := ⟨rfl, rfl, fun _ h => h⟩

variable {S T : Scope}

theorem Below.isAllocated (h : Below N S T) (n : N) : T.isAllocated n = S.isAllocated n := by
  rw [Scope.isAllocated, Scope.isAllocated, h.allocated, h.localAllocated]

theorem Below.rowOk (h : Below N S T) {c : Bool} {m : ℕ} {ts : List (Term N F)}
    (hr : S.rowOk c m ts = true) : T.rowOk c m ts = true := by
  have hknown : ∀ n : N, S.isKnown n = true → T.isKnown n = true := by
    intro n hn
    have hw := h.written n
    unfold isKnown at hn ⊢
    unfold isWritten at hw
    split_ifs at hn hw ⊢
    · exact hw hn
    · rwa [h.allocated]
  induction ts generalizing c m with
  | nil => rfl
  | cons t ts ih =>
      cases t with
      | const x =>
          simp only [Scope.rowOk, Bool.and_eq_true] at hr ⊢
          exact ⟨hr.1, ih hr.2⟩
      | put n x =>
          simp only [Scope.rowOk, Bool.and_eq_true] at hr ⊢
          exact ⟨⟨hknown n hr.1.1, hr.1.2⟩, ih hr.2⟩
      | acc n x =>
          simp only [Scope.rowOk, Bool.and_eq_true] at hr ⊢
          exact ⟨hknown n hr.1, ih hr.2⟩

variable [DecidableEq N]

omit [DecidableEq N] in
theorem Below.allocate (h : Below N S T) (n : N) : Below N (S.allocate n) (T.allocate n) := by
  refine ⟨?_, ?_, fun m hm => ?_⟩
  · by_cases hl : isLocal n <;> simp [Scope.allocate, hl, h.allocated]
  · by_cases hl : isLocal n <;> simp [Scope.allocate, hl, h.localAllocated]
  · rw [isWritten_allocate] at hm ⊢
    exact h.written m hm

/-- Without names in `redo` more names have a value, and a program checks as well. -/
theorem Below.step {redo : N → Bool} {S' : Scope} {op : Op N F} (h : Below N S T)
    (hs : S.step redo op = some S') :
    ∃ T', T.step noRedo op = some T' ∧ Below N S' T' := by
  have hreads : ∀ {reads : List N}, reads.all S.isWritten = true →
      reads.all T.isWritten = true := by
    intro reads hr
    rw [List.all_eq_true] at hr ⊢
    exact fun n hn => h.written n (hr n hn)
  cases op with
  | newVar n =>
      simp only [Scope.step, h.isAllocated] at hs ⊢
      split_ifs at hs ⊢ with ha hn <;> obtain rfl := Option.some.inj hs
      · exact ⟨T, rfl, h⟩
      · exact ⟨_, rfl, h.allocate n⟩
  | newLocalVar n =>
      simp only [Scope.step, h.isAllocated] at hs ⊢
      split_ifs at hs ⊢ with hn
      obtain rfl := Option.some.inj hs
      exact ⟨_, rfl, h.allocate n⟩
  | set n reads f =>
      simp only [Scope.step, h.isAllocated, noRedo, Bool.false_eq_true, if_false] at hs ⊢
      split_ifs at hs with hc hr hw
      all_goals
        rw [Bool.and_eq_true] at hc
        rw [if_pos (Bool.and_eq_true_iff.mpr ⟨hc.1, hreads hc.2⟩)]
        obtain rfl := Option.some.inj hs
        have hslot := slotted_of_isAllocated hc.1
        refine ⟨_, rfl, ?_, ?_, fun m hm => ?_⟩
      · by_cases hl : isLocal n <;> simp [Scope.write, hl, h.allocated]
      · by_cases hl : isLocal n <;> simp [Scope.write, hl, h.localAllocated]
      · rw [isWritten_write hslot, h.written m hm, Bool.or_true]
      · by_cases hl : isLocal n <;> simp [Scope.write, hl, h.allocated]
      · by_cases hl : isLocal n <;> simp [Scope.write, hl, h.localAllocated]
      · rw [isWritten_write hslot, Bool.or_eq_true] at hm ⊢
        exact hm.imp id (h.written m)
  | check reads q =>
      simp only [Scope.step] at hs ⊢
      split_ifs at hs with hr
      obtain rfl := Option.some.inj hs
      exact ⟨T, if_pos (hreads hr), h⟩
  | constraint a b c =>
      simp only [Scope.step] at hs ⊢
      split_ifs at hs with hc
      obtain rfl := Option.some.inj hs
      simp only [Bool.and_eq_true] at hc ⊢
      exact ⟨T, if_pos ⟨⟨h.rowOk hc.1.1, h.rowOk hc.1.2⟩, h.rowOk hc.2⟩, h⟩
  | sealLocals =>
      obtain rfl := Option.some.inj hs
      refine ⟨T.close, rfl, h.allocated, rfl, fun m hm => ?_⟩
      rw [isWritten_close, Bool.and_eq_true] at hm ⊢
      exact ⟨hm.1, h.written m hm.2⟩

theorem Below.steps {redo : N → Bool} {ops : List (Op N F)} {S' : Scope} (h : Below N S T)
    (hs : Scope.steps redo ops S = some S') :
    ∃ T', Scope.steps noRedo ops T = some T' ∧ Below N S' T' := by
  induction ops generalizing S T with
  | nil =>
      obtain rfl := Option.some.inj hs
      exact ⟨T, rfl, h⟩
  | cons op ops ih =>
      rw [Scope.steps, Option.bind_eq_some_iff] at hs
      obtain ⟨S₁, h₁, h₂⟩ := hs
      obtain ⟨T₁, hT₁, hb⟩ := h.step h₁
      obtain ⟨T', hT', hb'⟩ := ih hb h₂
      exact ⟨T', by rw [Scope.steps, hT₁, Option.bind_some, hT'], hb'⟩

end Below

end Scope

/-! ## Agreement of a scope with a builder state -/

/-- The scope's allocated names are the builder's, and the builder's columns
and matrices are in order. -/
structure Matches {N F : Type} [DecidableEq N] [ScopedName N] [Field F]
    (S : Scope) (cs : R1CS N F) : Prop where
  allocated : ∀ n, S.isAllocated n = true ↔ (cs.vars n).isSome
  columns : Columns cs.vars cs.w.length
  localsLocal : ∀ n ∈ cs.locals, isLocal n = true
  localsMem : ∀ n, (cs.vars n).isSome → isLocal n = true → n ∈ cs.locals
  lengthB : cs.b.length = cs.a.length
  lengthC : cs.c.length = cs.a.length
  rowsA : ∀ r ∈ cs.a, r.length = cs.w.length
  rowsB : ∀ r ∈ cs.b, r.length = cs.w.length
  rowsC : ∀ r ∈ cs.c, r.length = cs.w.length

section Matches

variable {N F : Type} [DecidableEq N] [ScopedName N] [Field F]

theorem matches_empty (arity : ℕ) :
    Matches Scope.empty { (default : R1CS N F) with arity := arity } where
  allocated n := by
    by_cases hl : isLocal n <;> simp [Scope.isAllocated, Scope.empty, hl, default]
  columns := (shaped_empty arity).columns
  localsLocal := (shaped_empty arity).localsLocal
  localsMem := (shaped_empty arity).localsMem
  lengthB := rfl
  lengthC := rfl
  rowsA := (shaped_empty arity).rowsA
  rowsB := (shaped_empty arity).rowsB
  rowsC := (shaped_empty arity).rowsC

variable {cs : R1CS N F}

theorem Matches.shaped {S : Scope} (hm : Matches S cs) : Shaped cs :=
  ⟨hm.columns, hm.localsLocal, hm.localsMem, hm.lengthB, hm.lengthC, hm.rowsA, hm.rowsB, hm.rowsC⟩

variable {redo : N → Bool} {S S' : Scope}

variable {op : Op N F}

/-- A call that passes the scope check is tidy. -/
theorem Matches.tidy_step (hm : Matches S cs) (hs : S.step redo op = some S') : op.Tidy cs := by
  cases op with
  | newVar n =>
      intro hl
      rw [← hm.allocated n]
      by_contra ha
      simp [Scope.step, ha, hl] at hs
  | newLocalVar n =>
      simp only [Scope.step] at hs
      split_ifs at hs with hc
      simp only [Bool.and_eq_true] at hc
      exact hc.1.1
  | constraint a b c =>
      simp only [Scope.step] at hs
      split_ifs at hs with hok
      simp only [Bool.and_eq_true] at hok
      obtain ⟨⟨hfa, hfb⟩, hfc⟩ := hok
      exact ⟨Scope.rowOk_fresh hfa (by simp) (by simp), Scope.rowOk_fresh hfb (by simp) (by simp),
        Scope.rowOk_fresh hfc (by simp) (by simp)⟩
  | _ => trivial

/-- The names that a call allocates. -/
private theorem Matches.allocated_exec {cs cs' : R1CS N F} (hm : Matches S cs)
    (hs : S.step redo op = some S') (he : cs.exec op = some cs') (m : N) :
    S'.isAllocated m = true ↔ (cs'.vars m).isSome := by
  have hfresh : ∀ n, slotted n = true → cs.vars n = none →
      ((S.allocate n).isAllocated m = true ↔ ((cs.newVar n).vars m).isSome) := by
    intro n hslot hv
    rw [R1CS.newVar_of_none hv]
    by_cases hmn : m = n
    · simp [hmn, Scope.isAllocated_allocate hslot]
    · simp [hmn, Scope.isAllocated_allocate hslot, hm.allocated m]
  cases op with
  | newVar n =>
      obtain rfl : cs.newVar n = cs' := by simpa [R1CS.exec] using he
      cases hv : cs.vars n with
      | some j =>
          have ha : S.isAllocated n = true := (hm.allocated n).mpr (by simp [hv])
          obtain rfl : S = S' := by simpa [Scope.step, ha] using hs
          rw [R1CS.newVar_of_some hv]
          exact hm.allocated m
      | none =>
          have ha : S.isAllocated n = false := by
            rw [Bool.eq_false_iff]
            intro h
            simpa [hv] using (hm.allocated n).mp h
          by_cases hl : isLocal n = true
          · simp [Scope.step, ha, hl] at hs
          · obtain ⟨hslot, rfl⟩ : slotted n = true ∧ S.allocate n = S' := by
              simpa [Scope.step, ha, hl] using hs
            exact hfresh n hslot hv
  | newLocalVar n =>
      cases hv : cs.vars n with
      | some j => simp [R1CS.exec, hv] at he
      | none =>
          simp only [R1CS.exec, hv, Option.some.injEq] at he
          subst he
          simp only [Scope.step] at hs
          split_ifs at hs with hc
          simp only [Bool.and_eq_true] at hc
          obtain rfl : S.allocate n = S' := by simpa using hs
          exact hfresh n hc.1.2 hv
  | set n reads f =>
      simp only [R1CS.exec] at he
      split at he
      · split_ifs at he
        simp only [Option.some.injEq] at he
        subst he
        have hS : S'.isAllocated m = S.isAllocated m := by
          simp only [Scope.step] at hs
          split_ifs at hs <;> simp only [Option.some.injEq] at hs <;> subst hs <;> simp
        rw [hS]
        exact hm.allocated m
      · simp at he
  | check reads q =>
      simp only [R1CS.exec] at he
      split_ifs at he
      simp only [Scope.step] at hs
      split_ifs at hs
      simp only [Option.some.injEq] at he hs
      exact hs ▸ he ▸ hm.allocated m
  | constraint a b c =>
      simp only [Scope.step] at hs
      split_ifs at hs
      obtain rfl : S = S' := by simpa using hs
      simp only [R1CS.exec] at he
      split_ifs at he
      · obtain rfl : cs = cs' := by simpa using he
        exact hm.allocated m
      · split at he
        · simp only [Option.some.injEq] at he
          subst he
          exact hm.allocated m
        · simp at he
  | sealLocals =>
      simp only [R1CS.exec, Option.some.injEq] at he
      simp only [Scope.step, Option.some.injEq] at hs
      subst he
      subst hs
      by_cases hl : isLocal m = true
      · by_cases hmem : m ∈ cs.locals
        · simp [hl, hmem]
        · have hv : ¬ (cs.vars m).isSome := fun h => hmem (hm.localsMem m h hl)
          simp [hl, hmem] at hv ⊢
          exact hv
      · have hmem : m ∉ cs.locals := fun h => hl (hm.localsLocal m h)
        simp [hl, hmem, hm.allocated m]

/-- A call that passes the scope check keeps the agreement. -/
theorem Matches.exec {cs cs' : R1CS N F} (hm : Matches S cs) (hs : S.step redo op = some S')
    (he : cs.exec op = some cs') :
    Matches S' cs' := by
  obtain ⟨hcolumns, hlocal, hmem, hb, hc, hrowsA, hrowsB, hrowsC⟩ :=
    hm.shaped.exec (hm.tidy_step hs) he
  exact ⟨hm.allocated_exec hs he, hcolumns, hlocal, hmem, hb, hc, hrowsA, hrowsB, hrowsC⟩

/-- A program that passes the scope check is tidy. -/
theorem Matches.tidy {ops : List (Op N F)} (hm : Matches S cs)
    (hs : Scope.steps redo ops S = some S') : Tidy ops cs := by
  induction ops generalizing S cs with
  | nil => trivial
  | cons op ops ih =>
      rw [Scope.steps, Option.bind_eq_some_iff] at hs
      obtain ⟨S₁, hstep, hs⟩ := hs
      exact ⟨hm.tidy_step hstep, fun cs₁ he => ih (hm.exec hstep he) hs⟩

end Matches

end NexusVm.Builder
