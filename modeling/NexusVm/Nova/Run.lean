import Mathlib.Data.List.GetD
import Mathlib.Tactic.Module
import Mathlib.Tactic.LinearCombination

/-!
# Fallible runs and vectors

Rust code that returns an error or panics, and the vectors of field elements
that the folding code combines entry by entry.
-/

namespace NexusVm.Nova

/-- Why a call does not return a value. -/
inductive Failure (E : Type)
  | panic
  | error (e : E)
deriving DecidableEq

/-- A call that may fail. -/
abbrev Run (E α : Type) := Except (Failure E) α

section Run

variable {E α β : Type}

/-- `assert!`. -/
def Run.assert (c : Prop) [Decidable c] : Run E Unit :=
  if c then .ok () else .error .panic

/-- Return an error if a condition holds. -/
def Run.failIf (c : Prop) [Decidable c] (e : E) : Run E Unit :=
  if c then .error (.error e) else .ok ()

/-- `From` between error types, as `?` uses it. -/
def Run.mapError {E' : Type} (convert : E → E') : Run E α → Run E' α
  | .ok a => .ok a
  | .error .panic => .error .panic
  | .error (.error e) => .error (.error (convert e))

variable {x : Run E α}

theorem mapError_eq_ok {E' : Type} {convert : E → E'} {a : α} :
    x.mapError convert = .ok a ↔ x = .ok a := by
  cases x with
  | ok a' => simp [Run.mapError]
  | error e => cases e <;> simp [Run.mapError]

variable {f : α → Run E β}

/-- A run returns if its parts do. -/
theorem bind_eq_ok {b : β} :
    (x >>= f) = .ok b ↔ ∃ a, x = .ok a ∧ f a = .ok b := by
  cases x with
  | error e =>
      constructor
      · intro h
        cases h
      · rintro ⟨a, ha, -⟩
        cases ha
  | ok a =>
      constructor
      · intro h
        exact ⟨a, rfl, h⟩
      · rintro ⟨a', ha, h⟩
        cases ha
        exact h

variable {c : Prop}

theorem assert_eq_ok [Decidable c] {u : Unit} :
    (Run.assert c : Run E Unit) = .ok u ↔ c := by
  unfold Run.assert
  split_ifs with h <;> simp [h]

theorem failIf_eq_ok [Decidable c] {e : E} {u : Unit} :
    Run.failIf c e = .ok u ↔ ¬ c := by
  unfold Run.failIf
  split_ifs with h <;> simp [h]

variable {l : List α}

/-- A map whose calls all return under the same condition. -/
theorem mapM_eq_ok {P : Prop} {g : α → β} {bs : List β}
    (h : ∀ a ∈ l, ∀ b, f a = .ok b ↔ P ∧ g a = b) :
    l.mapM f = .ok bs ↔ (l ≠ [] → P) ∧ l.map g = bs := by
  induction l generalizing bs with
  | nil =>
      rw [List.mapM_nil]
      constructor
      · intro hnil
        exact ⟨fun hne => absurd rfl hne, Except.ok.inj hnil⟩
      · rintro ⟨-, rfl⟩
        rfl
  | cons a l ih =>
      have htail : ∀ cs, l.mapM f = .ok cs ↔ (l ≠ [] → P) ∧ l.map g = cs :=
        fun cs => ih fun a' ha' => h a' (List.mem_cons_of_mem _ ha')
      rw [List.mapM_cons, bind_eq_ok]
      constructor
      · rintro ⟨b, hb, hrest⟩
        obtain ⟨cs, hcs, heq⟩ := bind_eq_ok.mp hrest
        obtain ⟨hP, rfl⟩ := (h a List.mem_cons_self b).mp hb
        obtain ⟨-, rfl⟩ := (htail cs).mp hcs
        exact ⟨fun _ => hP, Except.ok.inj heq⟩
      · rintro ⟨hP, rfl⟩
        have hP' := hP (List.cons_ne_nil a l)
        exact ⟨g a, (h a List.mem_cons_self _).mpr ⟨hP', rfl⟩,
          bind_eq_ok.mpr ⟨l.map g, (htail _).mpr ⟨fun _ => hP', rfl⟩, rfl⟩⟩

/-- A loop returns if its body does on every element. -/
theorem forM_eq_ok {f : α → Run E Unit} {u : Unit} :
    l.forM f = .ok u ↔ ∀ a ∈ l, f a = .ok () := by
  induction l with
  | nil => exact ⟨fun _ _ h => by simp at h, fun _ => rfl⟩
  | cons a l ih =>
      rw [List.forall_mem_cons, ← ih]
      show ((f a >>= fun _ => l.forM f) = .ok u) ↔ _
      rw [bind_eq_ok]
      constructor
      · rintro ⟨_, ha, hl⟩
        exact ⟨ha, hl⟩
      · rintro ⟨ha, hl⟩
        exact ⟨(), ha, hl⟩

/-- A map returns if all its calls do. -/
theorem mapM_eq_ok_iff {bs : List β} :
    l.mapM f = .ok bs ↔ List.Forall₂ (fun a b => f a = .ok b) l bs := by
  induction l generalizing bs with
  | nil =>
      rw [List.mapM_nil, List.forall₂_nil_left_iff]
      constructor
      · intro h
        exact (Except.ok.inj h).symm
      · rintro rfl
        rfl
  | cons a l ih =>
      rw [List.mapM_cons, bind_eq_ok, List.forall₂_cons_left_iff]
      constructor
      · rintro ⟨b, hb, hrest⟩
        obtain ⟨cs, hcs, heq⟩ := bind_eq_ok.mp hrest
        exact ⟨b, cs, hb, ih.mp hcs, (Except.ok.inj heq).symm⟩
      · rintro ⟨b, cs, hb, hcs, rfl⟩
        exact ⟨b, hb, bind_eq_ok.mpr ⟨cs, ih.mpr hcs, rfl⟩⟩

/-- A result of a map is the result of a call. -/
theorem exists_of_mem_mapM {bs : List β} (h : l.mapM f = .ok bs) {b : β} (hb : b ∈ bs) :
    ∃ a ∈ l, f a = .ok b := by
  rw [mapM_eq_ok_iff] at h
  induction h with
  | nil => cases hb
  | cons hab _ ih =>
      rcases List.mem_cons.mp hb with rfl | hb
      · exact ⟨_, List.mem_cons_self, hab⟩
      · obtain ⟨a, ha, hfa⟩ := ih hb
        exact ⟨a, List.mem_cons_of_mem _ ha, hfa⟩

theorem exists_mapM :
    (∃ bs, l.mapM f = .ok bs) ↔ ∀ a ∈ l, ∃ b, f a = .ok b := by
  simp only [mapM_eq_ok_iff]
  induction l with
  | nil => simp
  | cons a l ih =>
      rw [List.forall_mem_cons, ← ih]
      simp only [List.forall₂_cons_left_iff]
      constructor
      · rintro ⟨_, b, bs, hb, hbs, -⟩
        exact ⟨⟨b, hb⟩, bs, hbs⟩
      · rintro ⟨⟨b, hb⟩, bs, hbs⟩
        exact ⟨_, b, bs, hb, hbs, rfl⟩

variable {P : β → Prop}

/-- A loop whose steps return and keep an invariant. -/
theorem exists_foldlM {f : β → α → Run E β} {b : β} (hb : P b)
    (h : ∀ a ∈ l, ∀ b, P b → ∃ b', f b a = .ok b' ∧ P b') :
    ∃ b', l.foldlM f b = .ok b' ∧ P b' := by
  induction l generalizing b with
  | nil => exact ⟨b, rfl, hb⟩
  | cons a l ih =>
      rw [List.forall_mem_cons] at h
      obtain ⟨b₁, hstep, hb₁⟩ := h.1 b hb
      obtain ⟨b₂, hrun, hb₂⟩ := ih hb₁ h.2
      refine ⟨b₂, ?_, hb₂⟩
      rw [List.foldlM_cons]
      exact bind_eq_ok.mpr ⟨b₁, hstep, hrun⟩

/-- What the steps of a loop keep. -/
theorem foldlM_invariant {f : β → α → Run E β} {b b' : β} (hrun : l.foldlM f b = .ok b') (hb : P b)
    (h : ∀ a ∈ l, ∀ b b', P b → f b a = .ok b' → P b') :
    P b' := by
  induction l generalizing b with
  | nil =>
      obtain rfl := Except.ok.inj hrun
      exact hb
  | cons a l ih =>
      rw [List.forall_mem_cons] at h
      rw [List.foldlM_cons] at hrun
      obtain ⟨b₁, hstep, hrest⟩ := bind_eq_ok.mp hrun
      exact ih hrest (h.1 _ _ hb hstep) h.2

/-- Every step of a loop that returns has returned. -/
theorem exists_step_of_foldlM {f : β → α → Run E β} {b b' : β} (hrun : l.foldlM f b = .ok b') :
    ∀ a ∈ l, ∃ b₁ b₂, f b₁ a = .ok b₂ := by
  induction l generalizing b with
  | nil => simp
  | cons a l ih =>
      rw [List.foldlM_cons] at hrun
      obtain ⟨b₁, hstep, hrest⟩ := bind_eq_ok.mp hrun
      rw [List.forall_mem_cons]
      exact ⟨⟨b, b₁, hstep⟩, ih hrest⟩

/-! ## Runs that do not panic, guarded runs and safe runs -/

theorem bind_ne_panic_iff :
    (x >>= f) ≠ .error .panic ↔ x ≠ .error .panic ∧ ∀ a, x = .ok a → f a ≠ .error .panic := by
  cases x with
  | ok a =>
      constructor
      · intro h
        constructor
        · exact fun hx => nomatch hx
        · intro b hb
          obtain rfl := Except.ok.inj hb
          exact h
      · exact fun h => h.2 a rfl
  | error e =>
      have hbind : (Except.error e : Run E α) >>= f = .error e := rfl
      rw [hbind]
      simp

theorem mapError_ne_panic_iff {E' : Type} {convert : E → E'} :
    x.mapError convert ≠ .error .panic ↔ x ≠ .error .panic := by
  cases x with
  | ok a => simp [Run.mapError]
  | error e => cases e <;> simp [Run.mapError]

theorem assert_ne_panic_iff [Decidable c] :
    (Run.assert c : Run E Unit) ≠ .error .panic ↔ c := by
  unfold Run.assert
  split_ifs with h <;> simp [h]

theorem failIf_ne_panic [Decidable c] {e : E} : Run.failIf c e ≠ .error .panic := by
  unfold Run.failIf
  split_ifs <;> simp

theorem ok_ne_panic (a : α) : (Except.ok a : Run E α) ≠ .error .panic := fun h => nomatch h

/-- A run whose only failures are its assertions: it returns a value under a condition, and panics
otherwise. -/
structure Run.Guarded (x : Run E α) (c : Prop) (a : α) : Prop where
  returns : c → x = .ok a
  panics : ¬ c → x = .error .panic

namespace Run.Guarded

theorem ok (a : α) : Guarded (.ok a : Run E α) True a where
  returns _ := rfl
  panics h := absurd trivial h

theorem assert (c : Prop) [Decidable c] : Guarded (Run.assert c : Run E Unit) c () where
  returns := assert_eq_ok.mpr
  panics h := if_neg h

variable {x : Run E α}

/-- The conditions of a sequence of guarded runs hold one after the other. -/
theorem bind {f : α → Run E β} {c d : Prop} {a : α} {b : β} (hx : Guarded x c a)
    (hf : c → Guarded (f a) d b) : Guarded (x >>= f) (c ∧ d) b where
  returns := by
    rintro ⟨hc, hd⟩
    exact bind_eq_ok.mpr ⟨a, hx.returns hc, (hf hc).returns hd⟩
  panics := by
    intro hcd
    by_cases hc : c
    · rw [hx.returns hc]
      exact (hf hc).panics fun hd => hcd ⟨hc, hd⟩
    · rw [hx.panics hc]
      rfl

theorem congr {c d : Prop} {a b : α} (hx : Guarded x c a) (hcd : c ↔ d) (hab : d → a = b) :
    Guarded x d b where
  returns hd := by
    rw [← hab hd]
    exact hx.returns (hcd.mpr hd)
  panics hd := hx.panics (mt hcd.mp hd)

theorem ne_panic_iff {c : Prop} {a : α} (hx : Guarded x c a) :
    x ≠ .error .panic ↔ c := by
  by_cases hc : c
  · rw [hx.returns hc]
    exact iff_of_true (ok_ne_panic a) hc
  · exact iff_of_false (not_not_intro (hx.panics hc)) hc

theorem eq_ok_iff {c : Prop} {a b : α} (hx : Guarded x c a) :
    x = .ok b ↔ c ∧ a = b := by
  constructor
  · intro h
    have hc : c := by
      apply hx.ne_panic_iff.mp
      rw [h]
      exact ok_ne_panic b
    exact ⟨hc, Except.ok.inj ((hx.returns hc).symm.trans h)⟩
  · rintro ⟨hc, rfl⟩
    exact hx.returns hc

end Run.Guarded

/-- A call does not panic, and what it returns satisfies a condition; an error is safe. -/
def Run.Safe (x : Run E α) (P : α → Prop) : Prop := x ≠ .error .panic ∧ ∀ a, x = .ok a → P a

theorem safe_true_iff : x.Safe (fun _ => True) ↔ x ≠ .error .panic :=
  and_iff_left fun _ _ => trivial

theorem safe_ok_iff {a : α} {P : α → Prop} : Run.Safe (.ok a : Run E α) P ↔ P a := by
  constructor
  · exact fun h => h.2 a rfl
  · intro h
    refine ⟨ok_ne_panic a, fun b hb => ?_⟩
    rwa [← Except.ok.inj hb]

theorem safe_bind_iff :
    Run.Safe (x >>= f) P ↔ x.Safe fun a => (f a).Safe P := by
  unfold Run.Safe
  rw [bind_ne_panic_iff]
  constructor
  · rintro ⟨⟨hx, hf⟩, hP⟩
    exact ⟨hx, fun a ha => ⟨hf a ha, fun b hb => hP b (bind_eq_ok.mpr ⟨a, ha, hb⟩)⟩⟩
  · rintro ⟨hx, hf⟩
    refine ⟨⟨hx, fun a ha => (hf a ha).1⟩, fun b hb => ?_⟩
    obtain ⟨a, ha, hb⟩ := bind_eq_ok.mp hb
    exact (hf a ha).2 b hb

theorem safe_bind_of_eq_ok {a : α} (h : x = .ok a) : Run.Safe (x >>= f) P ↔ (f a).Safe P := by
  rw [safe_bind_iff, h, safe_ok_iff]

theorem safe_mapError_iff {E' : Type} {convert : E → E'} {P : α → Prop} :
    (x.mapError convert).Safe P ↔ x.Safe P := by
  unfold Run.Safe
  rw [mapError_ne_panic_iff]
  simp only [mapError_eq_ok]

theorem Run.Safe.congr {P Q : α → Prop} (h : ∀ a, P a ↔ Q a) :
    x.Safe P ↔ x.Safe Q := by
  simp only [Run.Safe, h]

theorem Run.Guarded.safe_iff {a : α} {P : α → Prop} (hx : Run.Guarded x c a) :
    x.Safe P ↔ c ∧ P a := by
  rw [Run.Safe, hx.ne_panic_iff]
  apply and_congr_right
  intro hc
  rw [hx.returns hc]
  constructor
  · exact fun h => h a rfl
  · intro h b hb
    rwa [← Except.ok.inj hb]

/-- After a guarded run the rest of a call decides. -/
theorem Run.Guarded.safe_bind_iff {a : α} (hx : Run.Guarded x c a) :
    Run.Safe (x >>= f) P ↔ c ∧ (f a).Safe P := by
  rw [Nova.safe_bind_iff, hx.safe_iff]

theorem safe_assert_bind_iff [Decidable c] {f : Unit → Run E β} :
    Run.Safe (Run.assert c >>= f) P ↔ c ∧ (f ()).Safe P := (Run.Guarded.assert c).safe_bind_iff

end Run

/-! ## Combinations of vectors and quadratics with three zeros -/

section Vectors

variable {F : Type} [Field F]

theorem foldl_mul_eq {α : Type} (v : α → F) (c : F) (l : List α) :
    l.foldl (fun x a => x * v a) c = c * (l.map v).prod := by
  induction l generalizing c with
  | nil => simp
  | cons a l ih => rw [List.foldl_cons, ih, List.map_cons, List.prod_cons, mul_assoc]

theorem foldl_add_eq {α : Type} (v : α → F) (c : F) (l : List α) :
    l.foldl (fun x a => x + v a) c = c + (l.map v).sum := by
  induction l generalizing c with
  | nil => simp
  | cons a l ih => rw [List.foldl_cons, ih, List.map_cons, List.sum_cons, add_assoc]

/-- `x * a + y * b`, entry by entry, as far as both vectors go. -/
def comb (x y : F) (as bs : List F) : List F :=
  List.zipWith (fun a b => x * a + y * b) as bs

theorem length_comb (x y : F) (as bs : List F) :
    (comb x y as bs).length = min as.length bs.length :=
  List.length_zipWith

variable {as bs : List F}

theorem length_comb_of_eq (h : as.length = bs.length) (x y : F) :
    (comb x y as bs).length = as.length := by
  rw [length_comb, h, min_self]

theorem comb_append (h : as.length = bs.length) (x y : F) (as' bs' : List F) :
    comb x y (as ++ as') (bs ++ bs') = comb x y as bs ++ comb x y as' bs' :=
  List.zipWith_append h

theorem comb_map {α : Type} (x y : F) (l : List α) (f g : α → F) :
    comb x y (l.map f) (l.map g) = l.map fun a => x * f a + y * g a := by
  rw [comb, List.zipWith_map, List.zipWith_self]

/-- An entry of a combination of two vectors of one length, also past their end. -/
theorem getD_zipWith {f : F → F → F} (hf : f 0 0 = 0) (h : as.length = bs.length) (i : ℕ) :
    (List.zipWith f as bs).getD i 0 = f (as.getD i 0) (bs.getD i 0) := by
  induction as generalizing bs i with
  | nil =>
      cases bs with
      | nil => simp [hf]
      | cons b bs => cases h
  | cons a as ih =>
      cases bs with
      | nil => cases h
      | cons b bs =>
          cases i with
          | zero => simp
          | succ i => simpa using ih (by simpa using h) i

theorem getD_comb (h : as.length = bs.length) (x y : F) (i : ℕ) :
    (comb x y as bs).getD i 0 = x * as.getD i 0 + y * bs.getD i 0 :=
  getD_zipWith (by simp) h i

theorem getD_map_mul (as : List F) (u : F) (i : ℕ) :
    (as.map (u * ·)).getD i 0 = u * as.getD i 0 := by
  have h := List.getD_map (l := as) (n := i) (d := 0) (f := (u * ·))
  rwa [mul_zero] at h

/-- Vectors of one length are equal when their entries are. -/
theorem ext_getD (h : as.length = bs.length) (hi : ∀ i, i < as.length → as.getD i 0 = bs.getD i 0) :
    as = bs := by
  apply List.ext_getElem h
  intro i h₁ h₂
  have := hi i h₁
  rwa [List.getD_eq_getElem _ _ h₁, List.getD_eq_getElem _ _ h₂] at this

/-- The folds of the code, where the first vector has no factor. -/
theorem zipWith_fold (r : F) (as bs : List F) :
    List.zipWith (fun a b => a + r * b) as bs = comb 1 r as bs := by
  simp only [comb, one_mul]

theorem sum_comb (h : as.length = bs.length) (x y : F) :
    (comb x y as bs).sum = x * as.sum + y * bs.sum := by
  induction as generalizing bs with
  | nil =>
      cases bs with
      | nil => simp [comb]
      | cons b bs => cases h
  | cons a as ih =>
      cases bs with
      | nil => cases h
      | cons b bs =>
          have htail : (comb x y as bs).sum = x * as.sum + y * bs.sum := ih (by simpa using h)
          rw [List.sum_cons, List.sum_cons, mul_add, mul_add]
          calc (comb x y (a :: as) (b :: bs)).sum = x * a + y * b + (comb x y as bs).sum := rfl
            _ = x * a + x * as.sum + (y * b + y * bs.sum) := by rw [htail]; ring

end Vectors

section Quadratic

variable {F M : Type} [Field F] [AddCommGroup M] [Module F M]

/-- A line with two zeros is zero. -/
theorem line_eq_zero {r s : F} (hrs : r ≠ s) {a b : M} (hr : a + r • b = 0)
    (hs : a + s • b = 0) : a = 0 ∧ b = 0 := by
  have hb : (r - s) • b = 0 := by
    have : (a + r • b) - (a + s • b) = (r - s) • b := by module
    rw [← this, hr, hs, sub_zero]
  have hb0 : b = 0 := (smul_eq_zero.mp hb).resolve_left (sub_ne_zero.mpr hrs)
  constructor
  · simpa [hb0] using hr
  · exact hb0

/-- A quadratic with three zeros is zero. -/
theorem quadratic_eq_zero {r s t : F} (hrs : r ≠ s) (hrt : r ≠ t) (hst : s ≠ t) {a b c : M}
    (hr : a + r • b + (r * r) • c = 0) (hs : a + s • b + (s * s) • c = 0)
    (ht : a + t • b + (t * t) • c = 0) : a = 0 ∧ b = 0 ∧ c = 0 := by
  have hdiff : ∀ {u v : F}, u ≠ v → a + u • b + (u * u) • c = 0 → a + v • b + (v * v) • c = 0 →
      b + u • c + v • c = 0 := by
    intro u v huv hu hv
    have : (a + u • b + (u * u) • c) - (a + v • b + (v * v) • c) =
        (u - v) • (b + u • c + v • c) := by module
    rw [hu, hv, sub_zero] at this
    exact (smul_eq_zero.mp this.symm).resolve_left (sub_ne_zero.mpr huv)
  have h₁ := hdiff hrs hr hs
  have h₂ := hdiff hrt hr ht
  obtain ⟨hbr, hc⟩ := line_eq_zero hst h₁ h₂
  have hb : b = 0 := by simpa [hc] using hbr
  exact ⟨by simpa [hb, hc] using hr, hb, hc⟩

end Quadratic

end NexusVm.Nova
