import Mathlib.Algebra.BigOperators.Group.Finset.Basic
import Mathlib.Tactic.Ring

/-!
# Constraint-system builders

A rank-one constraint system that is built imperatively: variables are
allocated under names, each name owns a column of dense matrices `a`, `b`,
`c`, and some names are *local*: they are released at the next seal, so that a
later gadget may allocate them again.

A gadget is a list of `Op`s, the calls it makes on the builder in order, and
`R1CS.run` executes such a list.  Nothing here depends on a particular set of
names or on a particular circuit.
-/

namespace NexusVm.Builder

/-- Names, of which some are local to the code between two seals.  The names
in use are numbered by their slots, so that a set of names is a number. -/
class ScopedName (N : Type) where
  isLocal : N → Bool
  slot : N → Option ℕ
  slot_inj : ∀ {n m : N} {k : ℕ}, slot n = some k → slot m = some k → n = m

export ScopedName (isLocal)

/-- One write to a coefficient row, which starts as the zero row. -/
inductive Term (N F : Type)
  | const (x : F)
  | put (n : N) (x : F)
  | acc (n : N) (x : F)

/-- One call on the builder.  The values that `set` and `check` read are the
current values of the names in `reads`. -/
inductive Op (N F : Type)
  | newVar (n : N)
  | newLocalVar (n : N)
  | set (n : N) (reads : List N) (f : (N → F) → F)
  | check (reads : List N) (q : (N → F) → Bool)
  | constraint (a b c : List (Term N F))
  | sealLocals

/-- The builder's state.  Column `0` holds the constant one. -/
structure R1CS (N F : Type) where
  w : List F
  a : List (List F)
  b : List (List F)
  c : List (List F)
  arity : ℕ
  witnessOnly : Bool
  vars : N → Option ℕ
  locals : List N

section Rows

variable {N F : Type} [Field F]

/-- The name a term writes to; `none` is the constant column. -/
def Term.target : Term N F → Option N
  | const _ => none
  | put n _ => some n
  | acc n _ => some n

/-- Contribution of a term to its row under an assignment of names. -/
def Term.eval (σ : N → F) : Term N F → F
  | const x => x
  | put n x => x * σ n
  | acc n x => x * σ n

/-- The linear combination written by a list of terms. -/
def lc (σ : N → F) (ts : List (Term N F)) : F := (ts.map (Term.eval σ)).sum

@[simp] theorem lc_nil (σ : N → F) : lc σ [] = 0 := rfl

@[simp] theorem lc_cons (σ : N → F) (t : Term N F) (ts : List (Term N F)) :
    lc σ (t :: ts) = t.eval σ + lc σ ts := by
  simp [lc]

@[simp] theorem lc_append (σ : N → F) (ts us : List (Term N F)) :
    lc σ (ts ++ us) = lc σ ts + lc σ us := by
  simp [lc]

@[simp] theorem Term.eval_const (σ : N → F) (x : F) : (Term.const x : Term N F).eval σ = x := rfl

@[simp] theorem Term.eval_put (σ : N → F) (n : N) (x : F) : (Term.put n x).eval σ = x * σ n := rfl

@[simp] theorem Term.eval_acc (σ : N → F) (n : N) (x : F) : (Term.acc n x).eval σ = x * σ n := rfl

/-- Write one term into a dense row, or fail on an unknown name. -/
def Term.write (idx : N → Option ℕ) (row : List F) : Term N F → Option (List F)
  | const x => some (row.set 0 x)
  | put n x => (idx n).map fun j => row.set j x
  | acc n x => (idx n).map fun j => row.set j (row.getD j 0 + x)

def writeRow (idx : N → Option ℕ) : List (Term N F) → List F → Option (List F)
  | [], row => some row
  | t :: ts, row => (t.write idx row).bind (writeRow idx ts)

/-- Inner product of a dense row with an assignment of columns. -/
def dot (row : List F) (z : ℕ → F) : F := ∑ i ∈ Finset.range row.length, row.getD i 0 * z i

end Rows

/-- The values of the names in `reads`. -/
def view {N F : Type} [DecidableEq N] [Zero F] (reads : List N) (σ : N → F) : N → F :=
  fun n => if n ∈ reads then σ n else 0

namespace R1CS

variable {N F : Type} [DecidableEq N] [Field F]

instance : Inhabited (R1CS N F) :=
  ⟨{ w := [1], a := [], b := [], c := [], arity := 0, witnessOnly := false,
     vars := fun _ => none, locals := [] }⟩

/-- Column of a name, `0` if it has none. -/
def var (cs : R1CS N F) (n : N) : ℕ := (cs.vars n).getD 0

/-- Current value of a name. -/
def value (cs : R1CS N F) (n : N) : F := cs.w.getD (cs.var n) 0

def newVar (cs : R1CS N F) (n : N) : R1CS N F :=
  match cs.vars n with
  | some _ => cs
  | none =>
      { cs with
        vars := Function.update cs.vars n (some cs.w.length)
        w := cs.w ++ [0]
        a := cs.a.map (· ++ [0])
        b := cs.b.map (· ++ [0])
        c := cs.c.map (· ++ [0]) }

theorem newVar_of_some {cs : R1CS N F} {n : N} {j : ℕ} (h : cs.vars n = some j) :
    cs.newVar n = cs := by
  simp [newVar, h]

theorem newVar_of_none {cs : R1CS N F} {n : N} (h : cs.vars n = none) :
    cs.newVar n = { cs with
      vars := Function.update cs.vars n (some cs.w.length), w := cs.w ++ [0],
      a := cs.a.map (· ++ [0]), b := cs.b.map (· ++ [0]), c := cs.c.map (· ++ [0]) } := by
  simp [newVar, h]

/-- Execute one call.  `none` is a panic of the source. -/
def exec (cs : R1CS N F) : Op N F → Option (R1CS N F)
  | .newVar n => some (cs.newVar n)
  | .newLocalVar n =>
      match cs.vars n with
      | some _ => none -- "local variable override"
      | none => some { cs.newVar n with locals := cs.locals ++ [n] }
  | .set n reads f =>
      match cs.vars n with
      | some j =>
          if reads.all fun m => (cs.vars m).isSome then
            some { cs with w := cs.w.set j (f (view reads cs.value)) }
          else none
      | none => none
  | .check reads q =>
      if (reads.all fun m => (cs.vars m).isSome) && q (view reads cs.value) then some cs else none
  | .constraint a b c =>
      if cs.witnessOnly then some cs
      else
        let zeros := List.replicate cs.w.length 0
        match writeRow cs.vars a zeros, writeRow cs.vars b zeros, writeRow cs.vars c zeros with
        | some ra, some rb, some rc =>
            some { cs with a := cs.a ++ [ra], b := cs.b ++ [rb], c := cs.c ++ [rc] }
        | _, _, _ => none
  | .sealLocals =>
      some { cs with vars := fun n => if n ∈ cs.locals then none else cs.vars n, locals := [] }

def run : List (Op N F) → R1CS N F → Option (R1CS N F)
  | [], cs => some cs
  | op :: ops, cs => (cs.exec op).bind (run ops)

@[simp] theorem run_nil (cs : R1CS N F) : run [] cs = some cs := rfl

theorem run_cons (op : Op N F) (ops : List (Op N F)) (cs : R1CS N F) :
    run (op :: ops) cs = (cs.exec op).bind (run ops) := rfl

theorem run_append (ops ops' : List (Op N F)) (cs : R1CS N F) :
    run (ops ++ ops') cs = (run ops cs).bind (run ops') := by
  induction ops generalizing cs with
  | nil => rfl
  | cons op ops ih =>
      rw [List.cons_append, run_cons, run_cons]
      cases h : cs.exec op with
      | none => rfl
      | some cs' => exact ih cs'

/-- An assignment of the columns satisfies every row. -/
def Sat (cs : R1CS N F) (z : ℕ → F) : Prop :=
  ∀ i < cs.a.length,
    dot (cs.a.getD i []) z * dot (cs.b.getD i []) z = dot (cs.c.getD i []) z

instance [DecidableEq F] (cs : R1CS N F) (z : ℕ → F) : Decidable (cs.Sat z) :=
  inferInstanceAs (Decidable (∀ i < cs.a.length, _))

/-- The source's `is_sat`: the builder's own witness satisfies every row. -/
def IsSat (cs : R1CS N F) : Prop := cs.Sat fun j => cs.w.getD j 0

end R1CS

section Along

variable {N F : Type} [ScopedName N]

/-- Global names take their value from `ρ`, local ones from `l`. -/
def glue (ρ l : N → F) : N → F := fun n => if isLocal n then l n else ρ n

theorem glue_global {ρ l : N → F} {n : N} (h : isLocal n = false) : glue ρ l n = ρ n := by
  simp [glue, h]

theorem glue_local {ρ l : N → F} {n : N} (h : isLocal n = true) : glue ρ l n = l n := by
  simp [glue, h]

/-- Condition `φ` holds of every call of a program, each read with the global
values `ρ` and with values of the local names that may change at every seal. -/
def Along (φ : (N → F) → Op N F → Prop) (ρ : N → F) : List (Op N F) → (N → F) → Prop
  | [], _ => True
  | .sealLocals :: ops, _ => ∃ l, Along φ ρ ops l
  | op :: ops, l => φ (glue ρ l) op ∧ Along φ ρ ops l

section Rules

variable {φ : (N → F) → Op N F → Prop} {ρ l : N → F} {op : Op N F} {ops : List (Op N F)}

@[simp] theorem along_nil : Along φ ρ [] l := trivial

theorem along_seal : Along φ ρ (.sealLocals :: ops) l ↔ ∃ l', Along φ ρ ops l' := Iff.rfl

theorem along_cons (h : op ≠ .sealLocals) :
    Along φ ρ (op :: ops) l ↔ φ (glue ρ l) op ∧ Along φ ρ ops l := by
  cases op with
  | sealLocals => exact absurd rfl h
  | _ => exact Iff.rfl

-- a program is read by these rules, never by evaluating it
attribute [irreducible] Along

end Rules

/-- `Along` for some values of the local names. -/
def Fits (φ : (N → F) → Op N F → Prop) (ρ : N → F) (ops : List (Op N F)) : Prop :=
  ∃ l, Along φ ρ ops l

/-- Condition on a call when names are valued by `σ`: a constraint holds. -/
def Op.Sat [Field F] (σ : N → F) : Op N F → Prop
  | .constraint a b c => lc σ a * lc σ b = lc σ c
  | _ => True

/-- What the builder computes for a name is its value.  The names in `redo` are
exempt: they are given their value by a later call. -/
def Op.Computes [DecidableEq N] [Field F] (redo : N → Bool) (σ : N → F) : Op N F → Prop
  | .set n reads f => redo n = true ∨ f (view reads σ) = σ n
  | .check reads q => q (view reads σ) = true
  | _ => True

/-- As `Op.Computes`, and a constraint holds if the rows are tracked. -/
def Op.Tracked [DecidableEq N] [Field F] (rows : Prop) (redo : N → Bool) (σ : N → F)
    (op : Op N F) : Prop :=
  op.Computes redo σ ∧ (rows → op.Sat σ)

/-- `Op.Sat` and `Op.Computes` together. -/
def Op.Honest [DecidableEq N] [Field F] (redo : N → Bool) (σ : N → F) : Op N F → Prop
  | .constraint a b c => lc σ a * lc σ b = lc σ c
  | .set n reads f => redo n = true ∨ f (view reads σ) = σ n
  | .check reads q => q (view reads σ) = true
  | _ => True

omit [ScopedName N] in
theorem Op.Honest.tracked [DecidableEq N] [Field F] {redo : N → Bool} {σ : N → F} {op : Op N F}
    (rows : Prop) (h : op.Honest redo σ) : op.Tracked rows redo σ := by
  cases op with
  | constraint a b c => exact ⟨trivial, fun _ => h⟩
  | set n reads f => exact ⟨h, fun _ => trivial⟩
  | check reads q => exact ⟨h, fun _ => trivial⟩
  | _ => exact ⟨trivial, fun _ => trivial⟩

end Along

end NexusVm.Builder
