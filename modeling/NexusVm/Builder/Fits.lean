import NexusVm.Builder.Along

/-!
# Rules for programs read by names

A gadget between two seals is a list of calls that are all read with one
valuation of the names (`Holds`).  A program fits if its gadgets do: from a
program that fits one reads off each gadget (`Fits.left`, `Fits.right`,
`Fits.holds`), and gadgets that `Passes` say fit are put together.
-/

namespace NexusVm.Builder

variable {N F : Type}

/-- Every call of a list satisfies a condition under one valuation. -/
def Holds (φ : (N → F) → Op N F → Prop) (σ : N → F) (ops : List (Op N F)) : Prop :=
  ∀ op ∈ ops, φ σ op

/-- A list of calls without a seal. -/
def sealFree (ops : List (Op N F)) : Bool :=
  ops.all fun op => match op with
    | .sealLocals => false
    | _ => true

section Holds

variable {φ : (N → F) → Op N F → Prop} {σ : N → F}

@[simp] theorem holds_nil : Holds φ σ [] := by simp [Holds]

variable {ops : List (Op N F)}

variable {op : Op N F}

@[simp] theorem holds_cons :
    Holds φ σ (op :: ops) ↔ φ σ op ∧ Holds φ σ ops := by
  simp [Holds]

variable {xs ys : List (Op N F)}

@[simp] theorem holds_append :
    Holds φ σ (xs ++ ys) ↔ Holds φ σ xs ∧ Holds φ σ ys := by
  simp only [Holds, List.mem_append]
  exact ⟨fun h => ⟨fun op ho => h op (Or.inl ho), fun op ho => h op (Or.inr ho)⟩,
    fun h op ho => ho.elim (h.1 op) (h.2 op)⟩

variable {α : Type}

@[simp] theorem holds_flatMap {xs : List α} {g : α → List (Op N F)} :
    Holds φ σ (xs.flatMap g) ↔ ∀ x ∈ xs, Holds φ σ (g x) := by
  simp only [Holds, List.mem_flatMap]
  exact ⟨fun h x hx op ho => h op ⟨x, hx, ho⟩, fun h op ⟨x, hx, ho⟩ => h x hx op ho⟩

@[simp] theorem holds_map {xs : List α} {g : α → Op N F} :
    Holds φ σ (xs.map g) ↔ ∀ x ∈ xs, φ σ (g x) := by
  simp [Holds]

theorem Holds.mono {ψ : (N → F) → Op N F → Prop} (hψ : ∀ op, φ σ op → ψ σ op) (h : Holds φ σ ops) :
    Holds ψ σ ops :=
  fun op ho => hψ op (h op ho)

theorem Op.Honest.sat [DecidableEq N] [Field F] {redo : N → Bool} {σ : N → F} (h : op.Honest redo σ) :
    op.Sat σ := by
  cases op with
  | constraint a b c => exact h
  | _ => trivial

/-- A list of calls is tracked if its values are computed and, with the rows,
its constraints hold. -/
theorem holds_tracked [DecidableEq N] [Field F] {rows : Prop} {redo : N → Bool} {σ : N → F}
    (hc : Holds (Op.Computes redo) σ ops) (hs : rows → Holds Op.Sat σ ops) :
    Holds (Op.Tracked rows redo) σ ops :=
  fun op ho => ⟨hc op ho, fun hrows => hs hrows op ho⟩

@[simp] theorem sealFree_nil : sealFree ([] : List (Op N F)) = true := rfl

@[simp] theorem sealFree_cons :
    sealFree (op :: ops) = ((match op with | .sealLocals => false | _ => true) && sealFree ops) :=
  rfl

@[simp] theorem sealFree_append :
    sealFree (xs ++ ys) = (sealFree xs && sealFree ys) := by
  simp [sealFree]

@[simp] theorem sealFree_flatMap {xs : List α} {g : α → List (Op N F)} :
    sealFree (xs.flatMap g) = xs.all fun x => sealFree (g x) := by
  simp [sealFree, List.all_flatMap]

@[simp] theorem sealFree_map {xs : List α} {g : α → Op N F} :
    sealFree (xs.map g) = xs.all fun x => sealFree [g x] := by
  simp [sealFree, Function.comp_def]

variable [ScopedName N] {ρ : N → F} {l : N → F}

/-- Up to the first seal, a program is read with one valuation. -/
theorem along_append (h : sealFree xs = true) :
    Along φ ρ (xs ++ ys) l ↔ Holds φ (glue ρ l) xs ∧ Along φ ρ ys l := by
  induction xs with
  | nil => simp
  | cons op xs ih =>
      rw [sealFree_cons, Bool.and_eq_true] at h
      have hop : op ≠ .sealLocals := by
        rintro rfl
        exact Bool.false_ne_true h.1
      rw [List.cons_append, along_cons hop, ih h.2, holds_cons, and_assoc]

theorem Along.left (h : Along φ ρ (xs ++ ys) l) :
    Along φ ρ xs l := by
  induction xs generalizing l with
  | nil => exact along_nil
  | cons op xs ih =>
      by_cases hop : op = .sealLocals
      · subst hop
        rw [List.cons_append, along_seal] at h
        exact along_seal.mpr (h.imp fun _ h => ih h)
      · rw [List.cons_append, along_cons hop] at h
        exact (along_cons hop).mpr ⟨h.1, ih h.2⟩

theorem Along.right (h : Along φ ρ (xs ++ ys) l) :
    Fits φ ρ ys := by
  induction xs generalizing l with
  | nil => exact ⟨l, h⟩
  | cons op xs ih =>
      by_cases hop : op = .sealLocals
      · subst hop
        rw [List.cons_append, along_seal] at h
        obtain ⟨l', h⟩ := h
        exact ih h
      · rw [List.cons_append, along_cons hop] at h
        exact ih h.2

theorem Fits.left (h : Fits φ ρ (xs ++ ys)) : Fits φ ρ xs :=
  h.imp fun _ h => h.left

theorem Fits.right (h : Fits φ ρ (xs ++ ys)) : Fits φ ρ ys :=
  h.elim fun _ h => h.right

variable {g : List (Op N F)}

variable {gs : List (List (Op N F))}

theorem Fits.of_mem (h : Fits φ ρ gs.flatten) (hg : g ∈ gs) :
    Fits φ ρ g := by
  induction gs with
  | nil => simp at hg
  | cons g' gs ih =>
      rw [List.flatten_cons] at h
      rcases List.mem_cons.mp hg with rfl | hg
      · exact h.left
      · exact ih h.right hg

/-- A gadget that fits holds under one valuation, up to its seal. -/
theorem Fits.holds (h : Fits φ ρ (xs ++ ys)) (hs : sealFree xs = true) :
    ∃ l, Holds φ (glue ρ l) xs := by
  obtain ⟨l, h⟩ := h
  exact ⟨l, ((along_append hs).mp h).1⟩

theorem Fits.holds_all {xs : List (Op N F)} (h : Fits φ ρ xs) (hs : sealFree xs = true) :
    ∃ l, Holds φ (glue ρ l) xs := by
  rw [← List.append_nil xs] at h
  exact h.holds hs

/-- Whatever fits after a gadget fits together with it, under any weaker
condition. -/
def Passes (φ : (N → F) → Op N F → Prop) (ρ : N → F) (g : List (Op N F)) : Prop :=
  ∀ ψ : (N → F) → Op N F → Prop, (∀ σ op, φ σ op → ψ σ op) →
    ∀ ops, Fits ψ ρ ops → Fits ψ ρ (g ++ ops)

theorem Passes.fits (h : Passes φ ρ g) : Fits φ ρ g := by
  have hnil : Fits φ ρ [] := ⟨ρ, along_nil⟩
  simpa using h φ (fun _ _ h => h) [] hnil

variable {ψ : (N → F) → Op N F → Prop}

theorem Passes.mono (hψ : ∀ σ op, φ σ op → ψ σ op) (h : Passes φ ρ g) : Passes ψ ρ g :=
  fun χ hχ => h χ fun σ op ho => hχ σ op (hψ σ op ho)

theorem Passes.append {g g' : List (Op N F)} (h : Passes φ ρ g) (h' : Passes φ ρ g') :
    Passes φ ρ (g ++ g') := by
  intro ψ hψ ops hops
  rw [List.append_assoc]
  exact h ψ hψ _ (h' ψ hψ _ hops)

theorem passes_nil : Passes φ ρ [] := fun _ _ _ h => h

theorem passes_flatten (h : ∀ g ∈ gs, Passes φ ρ g) :
    Passes φ ρ gs.flatten := by
  induction gs with
  | nil => exact passes_nil
  | cons g gs ih =>
      rw [List.flatten_cons]
      exact (h g (List.mem_cons_self ..)).append
        (ih fun g' hg' => h g' (List.mem_cons_of_mem _ hg'))

theorem passes_flatMap {α : Type} {xs : List α} {g : α → List (Op N F)}
    (h : ∀ x ∈ xs, Passes φ ρ (g x)) : Passes φ ρ (xs.flatMap g) := by
  rw [List.flatMap_def]
  refine passes_flatten fun g' hg' => ?_
  obtain ⟨x, hx, rfl⟩ := List.mem_map.mp hg'
  exact h x hx

/-- A gadget without local names, whose calls hold whatever these are. -/
theorem passes_of_holds (hs : sealFree g = true) (h : ∀ l, Holds φ (glue ρ l) g) :
    Passes φ ρ g := by
  rintro ψ hψ ops ⟨l, hops⟩
  exact ⟨l, (along_append hs).mpr ⟨(h l).mono (hψ _), hops⟩⟩

/-- A gadget with local names, up to its seal. -/
theorem passes_sealed (hs : sealFree g = true) (l : N → F) (h : Holds φ (glue ρ l) g) :
    Passes φ ρ (g ++ [Op.sealLocals]) := by
  rintro ψ hψ ops hops
  rw [List.append_assoc]
  exact ⟨l, (along_append hs).mpr ⟨h.mono (hψ _), along_seal.mpr hops⟩⟩

theorem Along.mono {ops : List (Op N F)} (hψ : ∀ σ op, φ σ op → ψ σ op) (h : Along φ ρ ops l) :
    Along ψ ρ ops l := by
  induction ops generalizing l with
  | nil => exact along_nil
  | cons op ops ih =>
      by_cases hop : op = .sealLocals
      · subst hop
        rw [along_seal] at h ⊢
        exact h.imp fun _ h => ih h
      · rw [along_cons hop] at h ⊢
        exact ⟨hψ _ _ h.1, ih h.2⟩

theorem Fits.mono {ops : List (Op N F)} (hψ : ∀ σ op, φ σ op → ψ σ op) (h : Fits φ ρ ops) :
    Fits ψ ρ ops :=
  h.imp fun _ h => h.mono hψ

end Holds

end NexusVm.Builder
