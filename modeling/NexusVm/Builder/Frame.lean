import NexusVm.Builder.Like

/-!
# Changing some values

A gadget that passes for one valuation passes for every other that agrees with
it on the names of its rows.  Which names a row mentions is checked by
evaluation (`avoids`), and like programs share the answer.
-/

namespace NexusVm.Builder

variable {N F G : Type}

section Frame

variable [ScopedName N] {φ φ' : (N → F) → Op N F → Prop} {ρ ρ' : N → F}

/-- A program is read alike with equal values of the local names. -/
theorem Along.congr_local {ops : List (Op N F)} {l l' : N → F}
    (hl : ∀ n, isLocal n = true → l n = l' n) (h : Along φ ρ ops l) : Along φ ρ ops l' := by
  have hglue : glue ρ l = glue ρ l' := by
    ext n
    cases hn : isLocal n with
    | false => rw [glue_global hn, glue_global hn]
    | true => rw [glue_local hn, glue_local hn, hl n hn]
  induction ops with
  | nil => exact along_nil
  | cons op ops ih =>
      by_cases hop : op = .sealLocals
      · subst hop
        exact along_seal.mpr (along_seal.mp h)
      · rw [along_cons hop] at h ⊢
        exact ⟨hglue ▸ h.1, ih h.2⟩

/-- A call of a program that fits satisfies the condition under some valuation. -/
theorem Along.exists_of_mem {ops : List (Op N F)} {l : N → F} (h : Along φ ρ ops l)
    {op : Op N F} (hop : op ∈ ops) (hs : op ≠ .sealLocals) : ∃ σ, φ σ op := by
  induction ops generalizing l with
  | nil => cases hop
  | cons op' ops ih =>
      by_cases hseal : op' = .sealLocals
      · subst hseal
        obtain ⟨l', hl'⟩ := along_seal.mp h
        exact ih hl' ((List.mem_cons.mp hop).resolve_left hs)
      · rw [along_cons hseal] at h
        rcases List.mem_cons.mp hop with rfl | hop
        · exact ⟨_, h.1⟩
        · exact ih h.2 hop

/-- **Frame rule**: a gadget that passes for one valuation passes for another one,
if each of its calls is carried over.  `bad` is a call that never satisfies `φ`; it
marks the end of the gadget. -/
theorem Passes.frame {g : List (Op N F)} {bad : Op N F} (hbad : bad ≠ .sealLocals)
    (hφ : ∀ σ, ¬ φ σ bad) (h : Passes φ ρ g)
    (hg : ∀ op ∈ g, ∀ l, φ (glue ρ l) op → φ' (glue ρ' l) op) : Passes φ' ρ' g := by
  intro ψ hψ ops hops
  obtain ⟨l₀, hops⟩ := hops
  have hnot : bad ∉ g := by
    intro hmem
    obtain ⟨l, hl⟩ := h.fits
    obtain ⟨σ, hσ⟩ := hl.exists_of_mem hmem hbad
    exact hφ σ hσ
  -- the end of the gadget is reached with the local values that the rest asks for
  have hend : Fits (fun σ op => φ σ op ∨ (op = bad ∧ ∀ n, isLocal n = true → σ n = l₀ n)) ρ
      [bad] := by
    refine ⟨l₀, (along_cons hbad).mpr ⟨Or.inr ⟨rfl, fun n hn => ?_⟩, along_nil⟩⟩
    rw [glue_local hn]
  obtain ⟨l, hl⟩ := h _ (fun σ op ho => Or.inl ho) [bad] hend
  refine ⟨l, ?_⟩
  clear hend h
  induction g generalizing l with
  | nil =>
      rw [List.nil_append, along_cons hbad] at hl
      rcases hl.1 with ho | ⟨-, ho⟩
      · exact absurd ho (hφ _)
      · refine hops.congr_local fun n hn => ?_
        rw [← ho n hn, glue_local hn]
  | cons op g ih =>
      have hop : op ≠ bad := fun he => hnot (he ▸ List.mem_cons_self ..)
      have ih' := ih (fun op' ho' => hg op' (List.mem_cons_of_mem _ ho'))
        fun ho => hnot (List.mem_cons_of_mem _ ho)
      rw [List.cons_append] at hl ⊢
      by_cases hs : op = .sealLocals
      · subst hs
        rw [along_seal] at hl ⊢
        obtain ⟨l', hl'⟩ := hl
        exact ⟨l', ih' l' hl'⟩
      · rw [along_cons hs] at hl ⊢
        refine ⟨hψ _ _ (hg op (List.mem_cons_self ..) l ?_), ih' l hl.2⟩
        exact hl.1.resolve_right fun ho => hop ho.1

end Frame

section Avoids

/-- A term mentions no name of `q`. -/
def Term.avoids (q : N → Bool) : Term N F → Bool
  | .const _ => true
  | .put n _ => !q n
  | .acc n _ => !q n

/-- The row of a call, if it is one, mentions no name of `q`. -/
def Op.avoids (q : N → Bool) : Op N F → Bool
  | .constraint a b c => a.all (Term.avoids q) && b.all (Term.avoids q) && c.all (Term.avoids q)
  | _ => true

/-- The rows of a program mention no name of `q`. -/
def avoids (q : N → Bool) (ops : List (Op N F)) : Bool := ops.all (Op.avoids q)

variable {q : N → Bool}

variable {xs ys : List (Op N F)}

theorem lc_frame [Field F] {σ τ : N → F} {ts : List (Term N F)}
    (h : ts.all (Term.avoids q) = true) (hστ : ∀ n, q n = false → σ n = τ n) :
    lc σ ts = lc τ ts := by
  refine lc_congr fun t ht n hn => hστ n ?_
  have hq := List.all_eq_true.mp h t ht
  cases t with
  | const x => cases hn
  | put m x =>
      obtain rfl : m = n := Option.some.inj hn
      simpa [Term.avoids] using hq
  | acc m x =>
      obtain rfl : m = n := Option.some.inj hn
      simpa [Term.avoids] using hq

theorem Op.sat_frame [Field F] {σ τ : N → F} {op : Op N F} (h : op.avoids q = true)
    (hστ : ∀ n, q n = false → σ n = τ n) (hs : op.Sat σ) : op.Sat τ := by
  cases op with
  | constraint a b c =>
      simp only [Op.avoids, Bool.and_eq_true] at h
      rw [Op.Sat] at hs ⊢
      rw [← lc_frame h.1.1 hστ, ← lc_frame h.1.2 hστ, ← lc_frame h.2 hστ]
      exact hs
  | _ => trivial

/-- A gadget whose rows avoid `q` passes for every valuation that differs at most
on `q`. -/
theorem Passes.of_avoids [Field F] [DecidableEq N] [ScopedName N] {ρ ρ' : N → F}
    {redo : N → Bool} {g : List (Op N F)} (h : Passes (Op.Tracked True redo) ρ g)
    (ha : avoids q g = true) (hρ : ∀ n, q n = false → ρ n = ρ' n) : Passes Op.Sat ρ' g := by
  have hbad : ∀ σ, ¬ Op.Tracked True redo σ (.check [] fun _ => false : Op N F) :=
    fun σ hσ => Bool.false_ne_true hσ.1
  refine h.frame (by simp) hbad fun op ho l hs => ?_
  · refine Op.sat_frame (List.all_eq_true.mp ha op ho) (fun n hn => ?_) (hs.2 trivial)
    rw [glue, glue, hρ n hn]

variable {R : F → G → Prop}

theorem Term.avoids_like {t : Term N F} {u : Term N G} (h : t.Like R u) :
    t.avoids q = u.avoids q := by
  cases t <;> cases u <;> simp only [Term.Like] at h
  · rfl
  · rw [Term.avoids, Term.avoids, h.1]
  · rw [Term.avoids, Term.avoids, h.1]

theorem all_avoids_like {a : List (Term N F)} {b : List (Term N G)}
    (h : List.Forall₂ (Term.Like R) a b) : a.all (Term.avoids q) = b.all (Term.avoids q) := by
  induction h with
  | nil => rfl
  | @cons t u a b ht _ ih => rw [List.all_cons, List.all_cons, Term.avoids_like ht, ih]

/-- The rows of like programs with equal coefficients hold together. -/
theorem holds_like [Field F] {σ : N → F} (h : Like Eq xs ys) (hx : Holds Op.Sat σ xs) :
    Holds Op.Sat σ ys := by
  induction h with
  | nil => exact holds_nil
  | @cons x y xs ys hxy _ ih =>
      rw [holds_cons] at hx ⊢
      exact ⟨(op_sat_like hxy).mp hx.1, ih hx.2⟩

/-- Like programs mention the same names. -/
theorem avoids_like {xs : List (Op N F)} {ys : List (Op N G)} (h : Like R xs ys) :
    avoids q xs = avoids q ys := by
  induction h with
  | nil => rfl
  | @cons x y xs ys hxy _ ih =>
      have hop : x.avoids q = y.avoids q := by
        cases x <;> cases y <;> simp only [Op.Like] at hxy <;> try rfl
        rw [Op.avoids, Op.avoids, all_avoids_like hxy.1, all_avoids_like hxy.2.1,
          all_avoids_like hxy.2.2]
      rw [avoids, List.all_cons, hop]
      exact congrArg (y.avoids q && ·) ih

/-- Gadget by gadget, like programs avoid the same names. -/
theorem forall_avoids_like {gs : List (List (Op N F))} {hs : List (List (Op N G))}
    (h : List.Forall₂ (Like R) gs hs) (ha : hs.all (avoids q) = true) :
    ∀ g ∈ gs, avoids q g = true := by
  induction h with
  | nil => exact fun g hg => absurd hg (List.not_mem_nil)
  | @cons x y gs hs hxy _ ih =>
      rw [List.all_cons, Bool.and_eq_true] at ha
      intro g hg
      rcases List.mem_cons.mp hg with rfl | hg
      · exact (avoids_like hxy).trans ha.1
      · exact ih ha.2 g hg

end Avoids

end NexusVm.Builder
