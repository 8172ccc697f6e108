import NexusVm.Builder.Fits

/-!
# Programs that differ only in their values

Two programs are alike if they make the same calls with the same names, with
related coefficients in their rows; the values they compute may differ.  Like
programs pass the same scope checks, and if the coefficients are equal, their
rows mean the same.
-/

namespace NexusVm.Builder

variable {N F G : Type} {R : F → G → Prop}

/-- The same target with related coefficients. -/
def Term.Like (R : F → G → Prop) : Term N F → Term N G → Prop
  | .const x, .const y => R x y
  | .put n x, .put m y => n = m ∧ R x y
  | .acc n x, .acc m y => n = m ∧ R x y
  | _, _ => False

/-- The same call up to the values it computes. -/
def Op.Like (R : F → G → Prop) : Op N F → Op N G → Prop
  | .newVar n, .newVar m => n = m
  | .newLocalVar n, .newLocalVar m => n = m
  | .set n reads _, .set m reads' _ => n = m ∧ reads = reads'
  | .check reads _, .check reads' _ => reads = reads'
  | .constraint a b c, .constraint a' b' c' =>
      List.Forall₂ (Term.Like R) a a' ∧ List.Forall₂ (Term.Like R) b b' ∧
        List.Forall₂ (Term.Like R) c c'
  | .sealLocals, .sealLocals => True
  | _, _ => False

/-- Call by call, two programs are alike. -/
def Like (R : F → G → Prop) (xs : List (Op N F)) (ys : List (Op N G)) : Prop :=
  List.Forall₂ (Op.Like R) xs ys

/-- `R` relates the values of one expression in two fields. -/
structure Uniform [Field F] [Field G] (R : F → G → Prop) : Prop where
  of : ∀ f : (∀ (K : Type) [Field K], K), R (f F) (f G)

section Uniform

variable [Field F] [Field G]

theorem uniform_eq : Uniform (Eq : F → F → Prop) := ⟨fun _ => rfl⟩

theorem uniform_true : Uniform fun (_ : F) (_ : G) => True := ⟨fun _ => trivial⟩

variable (hR : Uniform R)
include hR

theorem Uniform.one : R 1 1 := hR.of fun _ _ => 1

theorem Uniform.neg_one : R (-1) (-1) := hR.of fun _ _ => -1

theorem Uniform.natCast (n : ℕ) : R n n := hR.of fun K _ => (n : K)

theorem Uniform.ofNat (n : ℕ) [n.AtLeastTwo] : R (OfNat.ofNat n) (OfNat.ofNat n) :=
  hR.of fun _ _ => OfNat.ofNat n

theorem Uniform.neg_ofNat (n : ℕ) [n.AtLeastTwo] : R (-OfNat.ofNat n) (-OfNat.ofNat n) :=
  hR.of fun _ _ => -OfNat.ofNat n

end Uniform

section Rules

@[simp] theorem like_nil : Like R ([] : List (Op N F)) ([] : List (Op N G)) := List.Forall₂.nil

@[simp] theorem like_cons {x : Op N F} {y : Op N G} {xs : List (Op N F)} {ys : List (Op N G)} :
    Like R (x :: xs) (y :: ys) ↔ x.Like R y ∧ Like R xs ys := List.forall₂_cons

variable {xs xs' : List (Op N F)} {ys ys' : List (Op N G)}

theorem Like.append (h : Like R xs ys) (h' : Like R xs' ys') : Like R (xs ++ xs') (ys ++ ys') :=
  List.rel_append h h'

theorem like_flatMap {α : Type} {xs : List α} {g : α → List (Op N F)} {g' : α → List (Op N G)}
    (h : ∀ x ∈ xs, Like R (g x) (g' x)) : Like R (xs.flatMap g) (xs.flatMap g') := by
  induction xs with
  | nil => exact like_nil
  | cons x xs ih =>
      rw [List.flatMap_cons, List.flatMap_cons]
      exact (h x (List.mem_cons_self ..)).append
        (ih fun y hy => h y (List.mem_cons_of_mem _ hy))

theorem like_map {α : Type} {xs : List α} {g : α → Op N F} {g' : α → Op N G}
    (h : ∀ x ∈ xs, (g x).Like R (g' x)) : Like R (xs.map g) (xs.map g') := by
  rw [Like, List.forall₂_map_left_iff, List.forall₂_map_right_iff, List.forall₂_same]
  exact h

theorem like_ite {c : Prop} [Decidable c] (h : c → Like R xs ys) (h' : ¬ c → Like R xs' ys') :
    Like R (if c then xs else xs') (if c then ys else ys') := by
  split_ifs with hc
  · exact h hc
  · exact h' hc

end Rules

section Terms

/-- Rows of related coefficients. -/
theorem likeTerms_append {a a' : List (Term N F)} {b b' : List (Term N G)}
    (h : List.Forall₂ (Term.Like R) a b) (h' : List.Forall₂ (Term.Like R) a' b') :
    List.Forall₂ (Term.Like R) (a ++ a') (b ++ b') :=
  List.rel_append h h'

theorem likeTerms_map {α : Type} {xs : List α} {g : α → Term N F} {g' : α → Term N G}
    (h : ∀ x ∈ xs, (g x).Like R (g' x)) :
    List.Forall₂ (Term.Like R) (xs.map g) (xs.map g') := by
  rw [List.forall₂_map_left_iff, List.forall₂_map_right_iff, List.forall₂_same]
  exact h

theorem likeTerms_flatMap {α : Type} {xs : List α} {g : α → List (Term N F)}
    {g' : α → List (Term N G)} (h : ∀ x ∈ xs, List.Forall₂ (Term.Like R) (g x) (g' x)) :
    List.Forall₂ (Term.Like R) (xs.flatMap g) (xs.flatMap g') := by
  induction xs with
  | nil => exact List.Forall₂.nil
  | cons x xs ih =>
      rw [List.flatMap_cons, List.flatMap_cons]
      exact likeTerms_append (h x (List.mem_cons_self ..))
        (ih fun y hy => h y (List.mem_cons_of_mem _ hy))

theorem rowOk_like [ScopedName N] {S : Scope} {c : Bool} {m : ℕ} {a : List (Term N F)}
    {b : List (Term N G)} (h : List.Forall₂ (Term.Like R) a b) :
    S.rowOk c m a = S.rowOk c m b := by
  induction h generalizing c m with
  | nil => rfl
  | @cons t u ts us ht _ ih =>
      cases t <;> cases u <;> simp only [Term.Like] at ht
      · simp [Scope.rowOk, ih]
      · rw [Scope.rowOk, Scope.rowOk, ih, ht.1]
      · rw [Scope.rowOk, Scope.rowOk, ih, ht.1]

theorem lc_like [Field F] {σ : N → F} {a b : List (Term N F)}
    (h : List.Forall₂ (Term.Like Eq) a b) : lc σ a = lc σ b := by
  induction h with
  | nil => rfl
  | @cons t u ts us ht _ ih =>
      rw [lc_cons, lc_cons, ih]
      cases t <;> cases u <;> simp only [Term.Like] at ht
      · rw [ht]
      · rw [ht.1, ht.2]
      · rw [ht.1, ht.2]

end Terms

section Programs

variable [ScopedName N]

theorem step_like {redo : N → Bool} {S : Scope} {x : Op N F} {y : Op N G} (h : x.Like R y) :
    S.step redo x = S.step redo y := by
  cases x <;> cases y <;> simp only [Op.Like] at h
  · rw [h]
    rfl
  · rw [h]
    rfl
  · rw [Scope.step, Scope.step, h.1, h.2]
  · rw [Scope.step, Scope.step, h]
  · rw [Scope.step, Scope.step, rowOk_like h.1, rowOk_like h.2.1, rowOk_like h.2.2]
  · rfl

/-- Like programs check alike. -/
theorem steps_like {redo : N → Bool} {S : Scope} {xs : List (Op N F)} {ys : List (Op N G)}
    (h : Like R xs ys) : Scope.steps redo xs S = Scope.steps redo ys S := by
  induction h generalizing S with
  | nil => rfl
  | @cons x y xs ys hxy _ ih =>
      rw [Scope.steps, Scope.steps, step_like hxy]
      cases S.step redo y with
      | none => rfl
      | some S' => exact ih

omit [ScopedName N] in
theorem op_sat_like [Field F] {σ : N → F} {x y : Op N F} (h : x.Like Eq y) :
    x.Sat σ ↔ y.Sat σ := by
  cases x <;> cases y <;> simp only [Op.Like] at h <;> try exact Iff.rfl
  rw [Op.Sat, Op.Sat, lc_like h.1, lc_like h.2.1, lc_like h.2.2]

/-- The rows of like programs with equal coefficients mean the same. -/
theorem along_like [Field F] {ρ : N → F} {xs ys xs' ys' : List (Op N F)} (h : Like Eq xs ys)
    (h' : ∀ l, Along Op.Sat ρ xs' l → Along Op.Sat ρ ys' l) {l : N → F}
    (hx : Along Op.Sat ρ (xs ++ xs') l) : Along Op.Sat ρ (ys ++ ys') l := by
  induction h generalizing l with
  | nil => exact h' l hx
  | @cons x y xs ys hxy _ ih =>
      rw [List.cons_append] at hx ⊢
      by_cases hs : x = .sealLocals
      · subst hs
        obtain rfl : y = .sealLocals := by cases y <;> simp_all [Op.Like]
        rw [along_seal] at hx ⊢
        exact hx.imp fun _ hx => ih hx
      · have hs' : y ≠ .sealLocals := by
          rintro rfl
          cases x <;> simp_all [Op.Like]
        rw [along_cons hs] at hx
        rw [along_cons hs']
        exact ⟨(op_sat_like hxy).mp hx.1, ih hx.2⟩

theorem Along.like [Field F] {ρ : N → F} {xs ys : List (Op N F)} {l : N → F}
    (hx : Along Op.Sat ρ xs l) (h : Like Eq xs ys) : Along Op.Sat ρ ys l := by
  rw [← List.append_nil xs] at hx
  rw [← List.append_nil ys]
  exact along_like h (fun _ h => h) hx

end Programs

end NexusVm.Builder
