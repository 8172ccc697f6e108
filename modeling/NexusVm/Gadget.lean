import Mathlib.Algebra.Field.Basic
import Mathlib.Tactic.FieldSimp

/-!
# Circuits as relations

Code that synthesises constraints returns variables.  Here it is the relation that holds
for the values which these variables have in the assignments that satisfy all constraints
made so far; values that the prover chooses are bound by an existential quantifier.  Code
that panics or fails before it returns has no assignment.
-/

namespace NexusVm

/-- What a part of a circuit can return in an assignment that satisfies its constraints. -/
def Gadget (α : Type) : Type := α → Prop

namespace Gadget

variable {α β F : Type}

@[ext]
theorem ext {g h : Gadget α} (hgh : ∀ a, g a ↔ h a) : g = h := funext fun a => propext (hgh a)

instance : Monad Gadget where
  pure a := fun b => b = a
  bind g k := fun b => ∃ a, g a ∧ k a b

@[simp] theorem pure_iff {a b : α} : (pure a : Gadget α) b ↔ b = a := Iff.rfl

@[simp] theorem bind_iff {g : Gadget α} {k : α → Gadget β} {b : β} :
    (g >>= k) b ↔ ∃ a, g a ∧ k a b := Iff.rfl

theorem map_id (g : Gadget α) : id <$> g = g := by
  ext a
  constructor
  · rintro ⟨b, hb, rfl⟩
    exact hb
  · exact fun ha => ⟨a, ha, rfl⟩

theorem bind_of_pure (a : α) (k : α → Gadget β) : (pure a >>= k) = k a := by
  ext b
  constructor
  · rintro ⟨c, rfl, hb⟩
    exact hb
  · exact fun hb => ⟨a, rfl, hb⟩

theorem bind_of_bind {γ : Type} (g : Gadget α) (k : α → Gadget β) (l : β → Gadget γ) :
    (g >>= k >>= l) = g >>= fun a => k a >>= l := by
  ext c
  constructor
  · rintro ⟨b, ⟨a, ha, hb⟩, hc⟩
    exact ⟨a, ha, b, hb, hc⟩
  · rintro ⟨a, ha, b, hb, hc⟩
    exact ⟨b, ⟨a, ha, hb⟩, hc⟩

instance : LawfulMonad Gadget := LawfulMonad.mk' Gadget map_id bind_of_pure bind_of_bind

/-- Some assignment satisfies the constraints. -/
def Satisfiable (g : Gadget α) : Prop := ∃ a, g a

/-- A constraint. -/
def enforce (c : Prop) : Gadget Unit := fun _ => c

def enforceEqual (x y : α) : Gadget Unit := enforce (x = y)

/-- `new_witness`: any value. -/
def witness : Gadget α := fun _ => True

/-- An entry of a list; the code panics if there is none. -/
def entry (l : List α) (i : ℕ) : Gadget α := fun a => l[i]? = some a

@[simp] theorem enforce_iff {c : Prop} {u : Unit} : enforce c u ↔ c := Iff.rfl

@[simp] theorem enforceEqual_iff {x y : α} {u : Unit} : enforceEqual x y u ↔ x = y := Iff.rfl

@[simp] theorem witness_iff {a : α} : (witness : Gadget α) a ↔ True := Iff.rfl

variable {l : List α}

@[simp] theorem entry_iff {i : ℕ} {a : α} : entry l i a ↔ l[i]? = some a := Iff.rfl

/-- `mul_by_inverse`: the quotient is a witness, and the divisor must not be zero. -/
def mulByInverse [Field F] (x d : F) : Gadget F := do
  enforce (d ≠ 0)
  let result ← witness
  enforceEqual (result * d) x
  return result

@[simp] theorem mulByInverse_iff [Field F] {x d w : F} :
    mulByInverse x d w ↔ d ≠ 0 ∧ w = x / d := by
  simp only [mulByInverse, bind_iff, pure_iff, enforce_iff, witness_iff, enforceEqual_iff,
    exists_const, true_and]
  constructor
  · rintro ⟨hd, result, heq, rfl⟩
    exact ⟨hd, (eq_div_iff hd).mpr heq⟩
  · rintro ⟨hd, rfl⟩
    exact ⟨hd, x / d, div_mul_cancel₀ x hd, rfl⟩

/-! ## Loops -/

/-- A loop whose body has one result. -/
theorem foldlM_eq_pure {f : β → α → Gadget β} {step : β → α → β}
    (h : ∀ b, ∀ a ∈ l, f b a = pure (step b a)) (b : β) : l.foldlM f b = pure (l.foldl step b) := by
  induction l generalizing b with
  | nil => rfl
  | cons a l ih =>
      rw [List.foldlM_cons, h b a List.mem_cons_self, pure_bind, List.foldl_cons]
      exact ih (fun b' a' ha' => h b' a' (List.mem_cons_of_mem _ ha')) _

/-- A loop over constraints. -/
theorem forM_iff {f : α → Gadget Unit} {u : Unit} :
    l.forM f u ↔ ∀ a ∈ l, f a () := by
  induction l with
  | nil => exact ⟨fun _ _ h => absurd h List.not_mem_nil, fun _ => rfl⟩
  | cons a l ih =>
      rw [List.forall_mem_cons, ← ih]
      constructor
      · rintro ⟨⟨⟩, ha, hl⟩
        exact ⟨ha, hl⟩
      · rintro ⟨ha, hl⟩
        exact ⟨(), ha, hl⟩

/-- A loop whose body has constraints and one result. -/
theorem mapM_iff {f : α → Gadget β} {C : α → Prop} {g : α → β} (h : ∀ a b, f a b ↔ C a ∧ b = g a)
    {bs : List β} :
    l.mapM f bs ↔ (∀ a ∈ l, C a) ∧ bs = l.map g := by
  induction l generalizing bs with
  | nil =>
      rw [List.mapM_nil, pure_iff, List.map_nil]
      exact ⟨fun hbs => ⟨fun _ ha => absurd ha List.not_mem_nil, hbs⟩, And.right⟩
  | cons a l ih =>
      rw [List.mapM_cons, List.forall_mem_cons, List.map_cons]
      simp only [bind_iff, pure_iff, ih, h]
      constructor
      · rintro ⟨_, ⟨ha, rfl⟩, _, ⟨hl, rfl⟩, rfl⟩
        exact ⟨⟨ha, hl⟩, rfl⟩
      · rintro ⟨⟨ha, hl⟩, rfl⟩
        exact ⟨_, ⟨ha, rfl⟩, _, ⟨hl, rfl⟩, rfl⟩

end Gadget

/-!
## Synthesis of circuits

Code that synthesises constraints from allocated values computes the value of every variable, also
where the constraints fail.  A synthesis is this value with the proposition that all constraints
hold.  Witnesses that the prover may choose are arguments of the code.
-/

/-- A value and the constraints on it. -/
@[ext]
structure Synth (α : Type) where
  value : α
  holds : Prop

namespace Synth

variable {α β : Type}

instance : Monad Synth where
  pure a := ⟨a, True⟩
  bind s f := ⟨(f s.value).value, s.holds ∧ (f s.value).holds⟩

@[simp] theorem value_pure (a : α) : (pure a : Synth α).value = a := rfl

@[simp] theorem holds_pure (a : α) : (pure a : Synth α).holds = True := rfl

@[simp] theorem value_bind (s : Synth α) (f : α → Synth β) :
    (s >>= f).value = (f s.value).value := rfl

@[simp] theorem holds_bind (s : Synth α) (f : α → Synth β) :
    (s >>= f).holds = (s.holds ∧ (f s.value).holds) := rfl

/-- A constraint. -/
def enforce (c : Prop) : Synth Unit := ⟨(), c⟩

@[simp] theorem holds_enforce (c : Prop) : (enforce c).holds = c := rfl

/-- `conditional_enforce_equal`. -/
def conditionalEnforceEqual (x y : α) (should_enforce : Bool) : Synth Unit :=
  enforce (should_enforce = true → x = y)

@[simp] theorem holds_conditionalEnforceEqual (x y : α) (should_enforce : Bool) :
    (conditionalEnforceEqual x y should_enforce).holds = (should_enforce = true → x = y) := rfl

/-- A loop over constraints. -/
theorem holds_forM {f : α → Synth Unit} {l : List α} :
    (l.forM f).holds ↔ ∀ a ∈ l, (f a).holds := by
  induction l with
  | nil => exact ⟨fun _ _ h => absurd h List.not_mem_nil, fun _ => trivial⟩
  | cons a l ih =>
      rw [List.forall_mem_cons, ← ih]
      exact Iff.rfl

end Synth

end NexusVm
