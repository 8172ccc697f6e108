import Mathlib.Logic.Function.Basic
import Mathlib.Logic.Relation

/-!
# Interleaved programs

Threads run programs of atomic actions on a shared state.  A thread's program is
finite; where it ends it names the next one, so that loops are jumps.  What a thread
owns is a resource, and an invariant relates the shared state to the resources of all
threads.  A program is safe if each of its actions keeps the invariant while it changes
the resource of its own thread only.
-/

namespace NexusVm.Concurrent

/-- A program that updates the shared state by atomic actions, each of which may decide
by the state it finds how to go on. -/
inductive Prog (σ α : Type)
  | ret (a : α)
  | act (update : σ → σ) (next : σ → Prog σ α)

namespace Prog

variable {σ α β γ : Type}

def bind : Prog σ α → (α → Prog σ β) → Prog σ β
  | .ret a, k => k a
  | .act update next, k => .act update fun s => (next s).bind k

instance : Monad (Prog σ) where
  pure := .ret
  bind := Prog.bind

/-- One atomic action with a result. -/
def atomic (f : σ → α × σ) : Prog σ α := .act (fun s => (f s).2) fun s => .ret (f s).1

@[simp] theorem pure_eq (a : α) : (pure a : Prog σ α) = .ret a := rfl

@[simp] theorem ret_bind (a : α) (k : α → Prog σ β) : (.ret a >>= k) = k a := rfl

@[simp] theorem act_bind (update : σ → σ) (next : σ → Prog σ α) (k : α → Prog σ β) :
    (.act update next >>= k) = .act update fun s => next s >>= k := rfl

@[simp] theorem atomic_bind (f : σ → α × σ) (k : α → Prog σ β) :
    (atomic f >>= k) = .act (fun s => (f s).2) fun s => k (f s).1 := rfl

theorem bind_assoc (p : Prog σ α) (k : α → Prog σ β) (l : β → Prog σ γ) :
    ((p >>= k) >>= l) = (p >>= fun a => k a >>= l) := by
  induction p with
  | ret a => rfl
  | act update next ih => exact congrArg (Prog.act update) (funext ih)

end Prog

/-- The shared state and what is left of each thread's program. -/
structure Config (σ T Λ : Type) where
  state : σ
  threads : T → Prog σ Λ

section Steps

variable {σ T Λ : Type} [DecidableEq T] (code : T → Λ → Option (Prog σ Λ))

/-- A step of one thread: an atomic action, or a jump to the program of a label. -/
inductive Step (t : T) (c : Config σ T Λ) : Config σ T Λ → Prop
  | act {update : σ → σ} {next : σ → Prog σ Λ} (h : c.threads t = .act update next) :
      Step t c ⟨update c.state, Function.update c.threads t (next c.state)⟩
  | jump {l : Λ} {p : Prog σ Λ} (h : c.threads t = .ret l) (hcode : code t l = some p) :
      Step t c ⟨c.state, Function.update c.threads t p⟩

/-- Any number of steps of any threads. -/
def Steps : Config σ T Λ → Config σ T Λ → Prop :=
  Relation.ReflTransGen fun c c' => ∃ t, Step code t c c'

variable {code}

theorem Steps.refl (c : Config σ T Λ) : Steps code c c := Relation.ReflTransGen.refl

variable {c₁ c₂ c₃ : Config σ T Λ}

theorem Steps.trans (h₁ : Steps code c₁ c₂) (h₂ : Steps code c₂ c₃) :
    Steps code c₁ c₃ := Relation.ReflTransGen.trans h₁ h₂

theorem Step.steps {t : T} {c c' : Config σ T Λ} (h : Step code t c c') : Steps code c c' :=
  Relation.ReflTransGen.single ⟨t, h⟩

theorem Steps.tail {t : T} (h₁ : Steps code c₁ c₂) (h₂ : Step code t c₂ c₃) :
    Steps code c₁ c₃ := h₁.trans h₂.steps

section Schedule

variable (code)

/-- The next step of a thread, if it has one. -/
def Config.next (c : Config σ T Λ) (t : T) : Config σ T Λ :=
  match c.threads t with
  | .act update next => ⟨update c.state, Function.update c.threads t (next c.state)⟩
  | .ret l =>
      match code t l with
      | some p => ⟨c.state, Function.update c.threads t p⟩
      | none => c

/-- A run by a schedule. -/
def Config.exec : List T → Config σ T Λ → Config σ T Λ
  | [], c => c
  | t :: ts, c => Config.exec ts (c.next code t)

/-- The thread has a step. -/
def Config.enabled (c : Config σ T Λ) (t : T) : Bool :=
  match c.threads t with
  | .act _ _ => true
  | .ret l => (code t l).isSome

variable {code}

theorem step_next {c : Config σ T Λ} {t : T} (h : c.enabled code t = true) :
    Step code t c (c.next code t) := by
  unfold Config.enabled at h
  unfold Config.next
  cases hthread : c.threads t with
  | act update next => exact Step.act hthread
  | ret l =>
      rw [hthread] at h
      obtain ⟨p, hl⟩ := Option.isSome_iff_exists.mp h
      simp only [hl]
      exact Step.jump hthread hl

theorem next_of_not_enabled {c : Config σ T Λ} {t : T} (h : c.enabled code t = false) :
    c.next code t = c := by
  unfold Config.enabled at h
  unfold Config.next
  cases hthread : c.threads t with
  | act update next =>
      rw [hthread] at h
      cases h
  | ret l =>
      rw [hthread] at h
      have hnone : code t l = none := by simpa using h
      simp only [hnone]

theorem steps_next (c : Config σ T Λ) (t : T) : Steps code c (c.next code t) := by
  cases h : c.enabled code t with
  | true => exact (step_next h).steps
  | false =>
      rw [next_of_not_enabled h]
      exact Steps.refl c

theorem steps_exec (ts : List T) (c : Config σ T Λ) : Steps code c (c.exec code ts) := by
  induction ts generalizing c with
  | nil => exact Steps.refl c
  | cons t ts ih => exact (steps_next c t).trans (ih _)

end Schedule

/-- **Programs end.**  A thread that runs alone comes to a label. -/
theorem exists_steps_ret (t : T) (c : Config σ T Λ) :
    ∃ c' l, Steps code c c' ∧ c'.threads t = .ret l ∧ ∀ u, u ≠ t → c'.threads u = c.threads u := by
  cases h : c.threads t with
  | ret l => exact ⟨c, l, Steps.refl c, h, fun _ _ => rfl⟩
  | act update next =>
      suffices hall : ∀ (p : Prog σ Λ) (c : Config σ T Λ), c.threads t = p →
          ∃ c' l, Steps code c c' ∧ c'.threads t = .ret l ∧
            ∀ u, u ≠ t → c'.threads u = c.threads u from hall _ c h
      intro p
      induction p with
      | ret l => exact fun c hc => ⟨c, l, Steps.refl c, hc, fun _ _ => rfl⟩
      | act update next ih =>
          intro c hc
          obtain ⟨c', l, hsteps, hret, hothers⟩ := ih c.state
            ⟨update c.state, Function.update c.threads t (next c.state)⟩
            (Function.update_self t _ _)
          refine ⟨c', l, (Step.act hc).steps.trans hsteps, hret, fun u hu => ?_⟩
          rw [hothers u hu]
          exact Function.update_of_ne hu _ _

/-- Several threads come to their labels one after another. -/
theorem exists_steps_labels (ts : List T) (c : Config σ T Λ) :
    ∃ c', Steps code c c' ∧ ∀ t, (t ∈ ts ∨ ∃ l, c.threads t = .ret l) →
      ∃ l, c'.threads t = .ret l := by
  induction ts generalizing c with
  | nil => exact ⟨c, Steps.refl c, fun t ht => ht.resolve_left (List.not_mem_nil)⟩
  | cons u ts ih =>
      have hu : ∃ c' l, Steps code c c' ∧ c'.threads u = .ret l ∧
          ∀ v, v ≠ u → c'.threads v = c.threads v := exists_steps_ret u c
      obtain ⟨c₁, l, hsteps₁, hret, hothers⟩ := hu
      obtain ⟨c₂, hsteps₂, hlabels⟩ := ih c₁
      refine ⟨c₂, hsteps₁.trans hsteps₂, fun t ht => hlabels t ?_⟩
      by_cases hu : t = u
      · exact Or.inr ⟨l, by rw [hu, hret]⟩
      · rw [hothers t hu]
        rcases ht with hmem | hret'
        · exact Or.inl ((List.mem_cons.mp hmem).resolve_left hu)
        · exact Or.inr hret'

end Steps

/-! ## Safe programs, programs that are safe under a condition and all actions of a program -/

section Safe

variable {σ T Λ ρ α β : Type} [DecidableEq T] (I : σ → (T → ρ) → Prop) (t : T)

/-- Every action of a program keeps the invariant, and what the thread owns in the end
fulfills the postcondition. -/
def Safe (post : α → ρ → Prop) : Prog σ α → ρ → Prop
  | .ret a, r => post a r
  | .act update next, r => ∀ s rs, I s rs → rs t = r →
      ∃ r', I (update s) (Function.update rs t r') ∧ Safe post (next s) r'

variable {I t} {post : α → ρ → Prop} {r : ρ}

variable {k : β → Prog σ α}

theorem safe_bind {p : Prog σ β} {mid : β → ρ → Prop} (hp : Safe I t mid p r)
    (hk : ∀ b r', mid b r' → Safe I t post (k b) r') : Safe I t post (p >>= k) r := by
  induction p generalizing r with
  | ret b => exact hk b r hp
  | act update next ih =>
      intro s rs hI hr
      obtain ⟨r', hI', hnext⟩ := hp s rs hI hr
      exact ⟨r', hI', ih s hnext⟩

/-- The result and what the thread owns with it. -/
def Returns (a : α) (r' : ρ) : α → ρ → Prop := fun x s => x = a ∧ s = r'

theorem safe_ret {a : α} (h : post a r) : Safe I t post (.ret a) r := h

/-- A part of a program whose result is known. -/
theorem safe_seq {p : Prog σ β} {b : β} {r' : ρ} (hp : Safe I t (Returns b r') p r)
    (hk : Safe I t post (k b) r') :
    Safe I t post (p >>= k) r := by
  refine safe_bind hp ?_
  rintro _ _ ⟨rfl, rfl⟩
  exact hk

/-- Before an action the invariant holds of what the thread has. -/
theorem safe_of_inv {update : σ → σ} {next : σ → Prog σ α}
    (h : (∃ s rs, I s rs ∧ rs t = r) → Safe I t post (.act update next) r) :
    Safe I t post (.act update next) r :=
  fun s rs hI hr => h ⟨s, rs, hI, hr⟩ s rs hI hr

/-- One action. -/
theorem safe_action {f : σ → α × σ} (h : ∀ s rs, I s rs → rs t = r →
    ∃ r', I (f s).2 (Function.update rs t r') ∧ post (f s).1 r') :
    Safe I t post (Prog.atomic f) r := h

/-- One action whose result is known. -/
theorem safe_atomic {f : σ → α × σ} {a : α} {r' : ρ}
    (h : ∀ s rs, I s rs → rs t = r → (f s).1 = a ∧ I (f s).2 (Function.update rs t r')) :
    Safe I t (Returns a r') (Prog.atomic f) r := by
  intro s rs hI hr
  obtain ⟨ha, hI'⟩ := h s rs hI hr
  exact ⟨r', hI', ha, rfl⟩

theorem Safe.mono {p : Prog σ α} {post' : α → ρ → Prop} (h : Safe I t post p r)
    (hpost : ∀ a r', post a r' → post' a r') : Safe I t post' p r := by
  induction p generalizing r with
  | ret a => exact hpost a r h
  | act update next ih =>
      intro s rs hI hr
      obtain ⟨r', hI', hnext⟩ := h s rs hI hr
      exact ⟨r', hI', ih s hnext⟩

end Safe

section SafeIf

variable {σ T ρ α β : Type} [DecidableEq T] (I : σ → (T → ρ) → Prop) (t : T) (G : σ → σ → Prop)

/-- Every action of a program that meets a condition keeps the invariant. -/
def SafeIf (post : α → ρ → Prop) : Prog σ α → ρ → Prop
  | .ret a, r => post a r
  | .act update next, r => ∀ s rs, I s rs → rs t = r → G s (update s) →
      ∃ r', I (update s) (Function.update rs t r') ∧ SafeIf post (next s) r'

variable {I t G} {post : α → ρ → Prop} {r : ρ}

theorem Safe.safeIf {p : Prog σ α} (h : Safe I t post p r) : SafeIf I t G post p r := by
  induction p generalizing r with
  | ret a => exact h
  | act update next ih =>
      intro s rs hI hr _
      obtain ⟨r', hI', hnext⟩ := h s rs hI hr
      exact ⟨r', hI', ih s hnext⟩

/-- Where every action meets the condition there is none. -/
theorem SafeIf.safe {p : Prog σ α} (h : SafeIf I t G post p r) (hG : ∀ s s', G s s') :
    Safe I t post p r := by
  induction p generalizing r with
  | ret a => exact h
  | act update next ih =>
      intro s rs hI hr
      obtain ⟨r', hI', hnext⟩ := h s rs hI hr (hG _ _)
      exact ⟨r', hI', ih s hnext⟩

variable {k : β → Prog σ α}

theorem safeIf_bind {p : Prog σ β} {mid : β → ρ → Prop} (hp : SafeIf I t G mid p r)
    (hk : ∀ b r', mid b r' → SafeIf I t G post (k b) r') :
    SafeIf I t G post (p >>= k) r := by
  induction p generalizing r with
  | ret b => exact hk b r hp
  | act update next ih =>
      intro s rs hI hr hG
      obtain ⟨r', hI', hnext⟩ := hp s rs hI hr hG
      exact ⟨r', hI', ih s hnext⟩

/-- A safe part of a program whose result is known. -/
theorem safeIf_seq {p : Prog σ β} {b : β} {r' : ρ} (hp : Safe I t (Returns b r') p r)
    (hk : SafeIf I t G post (k b) r') :
    SafeIf I t G post (p >>= k) r := by
  apply safeIf_bind hp.safeIf
  rintro _ _ ⟨rfl, rfl⟩
  exact hk

end SafeIf

section All

variable {σ T Λ α β : Type} (P : (σ → σ) → Prop)

/-- All updates of a program, whatever states it finds, have a property. -/
def Prog.All : Prog σ α → Prop
  | .ret _ => True
  | .act update next => P update ∧ ∀ s, (next s).All

variable {P}

theorem Prog.all_atomic {f : σ → α × σ} (h : P fun s => (f s).2) : (Prog.atomic f).All P :=
  ⟨h, fun _ => trivial⟩

theorem Prog.all_bind {p : Prog σ β} {k : β → Prog σ α} (hp : p.All P) (hk : ∀ b, (k b).All P) :
    (p >>= k).All P := by
  induction p with
  | ret b => exact hk b
  | act update next ih => exact ⟨hp.1, fun s => ih s (hp.2 s)⟩

variable {c c' : Config σ T Λ} {code : T → Λ → Option (Prog σ Λ)}

/-- A thread's updates have the property in the whole run if its programs have it. -/
theorem Steps.all [DecidableEq T] {t : T} (hcode : ∀ l p, code t l = some p → p.All P)
    (hc : (c.threads t).All P) (h : Steps code c c') : (c'.threads t).All P := by
  induction h with
  | refl => exact hc
  | tail _ hstep ih =>
      obtain ⟨u, hstep⟩ := hstep
      by_cases hu : t = u
      · subst hu
        cases hstep with
        | act hact =>
            rw [hact] at ih
            simp only [Function.update_self]
            exact ih.2 _
        | jump _ hl =>
            simp only [Function.update_self]
            exact hcode _ _ hl
      · cases hstep with
        | act hact => simpa only [Function.update_of_ne hu] using ih
        | jump _ hl => simpa only [Function.update_of_ne hu] using ih

/-- What the thread does to the state in a step has the property. -/
theorem Step.update [DecidableEq T] {t : T} (h : Step code t c c') (hall : (c.threads t).All P) :
    c'.state = c.state ∨ ∃ update, P update ∧ c'.state = update c.state := by
  cases h with
  | act hact =>
      rw [hact] at hall
      exact Or.inr ⟨_, hall.1, rfl⟩
  | jump _ _ => exact Or.inl rfl

/-- **A safe program that runs alone** ends with its postcondition; on the way it keeps what
all its updates keep. -/
theorem Safe.exists_post [DecidableEq T] {ρ : Type} {I : σ → (T → ρ) → Prop} {t : T}
    {post : α → ρ → Prop} {p : Prog σ α} {s : σ} {rs : T → ρ} {Q : σ → Prop}
    (h : Safe I t post p (rs t)) (hI : I s rs) (hall : p.All P)
    (hkeeps : ∀ update, P update → ∀ s, Q s → Q (update s)) (hQ : Q s) :
    ∃ a s' rs', post a (rs' t) ∧ I s' rs' ∧ Q s' := by
  induction p generalizing s rs with
  | ret a => exact ⟨a, s, rs, h, hI, hQ⟩
  | act update next ih =>
      obtain ⟨r', hI', hnext⟩ := h s rs hI rfl
      have hr' : Function.update rs t r' t = r' := Function.update_self t r' rs
      rw [← hr'] at hnext
      exact ih s hnext hI' (hall.2 s) (hkeeps update hall.1 s hQ)

end All

/-! ## A thread alone and invariants of runs -/

section Along

variable {σ T Λ α β : Type} (I : σ → Prop) (Q : α → σ → Prop)

/-- A program that runs alone comes through states with a property only, and to a result
with a property. -/
def Prog.Along : Prog σ α → σ → Prop
  | .ret a, s => Q a s
  | .act update next, s => I (update s) ∧ (next s).Along (update s)

variable {I Q}

@[simp] theorem along_ret (a : α) (s : σ) : (Prog.ret a).Along I Q s ↔ Q a s := Iff.rfl

@[simp] theorem along_atomic (f : σ → α × σ) (s : σ) :
    (Prog.atomic f).Along I Q s ↔ I (f s).2 ∧ Q (f s).1 (f s).2 := Iff.rfl

@[simp] theorem along_atomic_bind (f : σ → β × σ) (k : β → Prog σ α) (s : σ) :
    (Prog.atomic f >>= k).Along I Q s ↔ I (f s).2 ∧ (k (f s).1).Along I Q (f s).2 := Iff.rfl

variable [DecidableEq T] {code : T → Λ → Option (Prog σ Λ)}

/-- If a property holds wherever a run can go on to, then along each program that a thread
can run alone. -/
theorem along_jump {I : σ → Prop} {c : Config σ T Λ} {t : T} {l : Λ} {p : Prog σ Λ}
    (hret : c.threads t = .ret l) (hcode : code t l = some p)
    (h : ∀ c', Steps code c c' → I c'.state) :
    p.Along I (fun l s => Steps code c ⟨s, Function.update c.threads t (.ret l)⟩) c.state := by
  suffices hall : ∀ (q : Prog σ Λ) (s : σ),
      Steps code c ⟨s, Function.update c.threads t q⟩ →
      q.Along I (fun l s => Steps code c ⟨s, Function.update c.threads t (.ret l)⟩) s from
    hall p c.state (Step.jump hret hcode).steps
  intro q
  induction q with
  | ret l => exact fun s hs => hs
  | act update next ih =>
      intro s hs
      have hstep : Step code t ⟨s, Function.update c.threads t (.act update next)⟩
          ⟨update s, Function.update c.threads t (next s)⟩ := by
        have hact : Step code t ⟨s, Function.update c.threads t (.act update next)⟩
            ⟨update s, Function.update (Function.update c.threads t (.act update next)) t
              (next s)⟩ := Step.act (Function.update_self t (Prog.act update next) c.threads)
        simpa only [Function.update_idem] using hact
      have hs' := hs.tail hstep
      exact ⟨h _ hs', ih s (update s) hs'⟩

/-- If no thread changes the state then no run does. -/
theorem steps_quiet {Q : T → Λ → Prop} {s : σ} {c c' : Config σ T Λ}
    (hcode : ∀ t l p, Q t l → code t l = some p → p.Along (· = s) (fun l _ => Q t l) s)
    (hs : c.state = s) (hc : ∀ t, (c.threads t).Along (· = s) (fun l _ => Q t l) s)
    (h : Steps code c c') :
    c'.state = s ∧ ∀ t, (c'.threads t).Along (· = s) (fun l _ => Q t l) s := by
  have hupdate : ∀ {threads : T → Prog σ Λ} {t : T} {p : Prog σ Λ},
      (∀ u, (threads u).Along (· = s) (fun l _ => Q u l) s) →
      p.Along (· = s) (fun l _ => Q t l) s →
      ∀ u, Prog.Along (· = s) (fun l _ => Q u l) (Function.update threads t p u) s := by
    intro threads t p hthreads hp u
    by_cases hu : u = t
    · subst hu
      simpa only [Function.update_self] using hp
    · simpa only [Function.update_of_ne hu] using hthreads u
  induction h with
  | refl => exact ⟨hs, hc⟩
  | tail _ hstep ih =>
      obtain ⟨ihs, ihc⟩ := ih
      obtain ⟨t, hstep⟩ := hstep
      cases hstep with
      | act hact =>
          have ht := ihc t
          rw [hact] at ht
          obtain ⟨hsame, hnext⟩ := ht
          rw [hsame] at hnext
          rw [ihs]
          exact ⟨hsame, hupdate ihc hnext⟩
      | jump hret hl =>
          have ht := ihc t
          rw [hret] at ht
          exact ⟨ihs, hupdate ihc (hcode t _ _ ht hl)⟩

end Along

section Sound

variable {σ T Λ ρ : Type} [DecidableEq T]

/-- There are resources for which the invariant holds and all threads are safe under a
condition. -/
def SoundIf (G : T → σ → σ → Prop) (I : σ → (T → ρ) → Prop) (post : T → Λ → ρ → Prop)
    (c : Config σ T Λ) : Prop :=
  ∃ rs, I c.state rs ∧ ∀ t, SafeIf I t (G t) (post t) (c.threads t) (rs t)

/-- There are resources for which the invariant holds and all threads are safe. -/
def Sound (I : σ → (T → ρ) → Prop) (post : T → Λ → ρ → Prop) (c : Config σ T Λ) : Prop :=
  ∃ rs, I c.state rs ∧ ∀ t, Safe I t (post t) (c.threads t) (rs t)

/-- Steps that all meet a condition. -/
def StepsIf (code : T → Λ → Option (Prog σ Λ)) (G : T → σ → σ → Prop) :
    Config σ T Λ → Config σ T Λ → Prop :=
  Relation.ReflTransGen fun c c' => ∃ t, Step code t c c' ∧ G t c.state c'.state

variable {code : T → Λ → Option (Prog σ Λ)} {G : T → σ → σ → Prop}
  {I : σ → (T → ρ) → Prop} {post : T → Λ → ρ → Prop}

variable {c c' : Config σ T Λ}

theorem StepsIf.steps (h : StepsIf code G c c') : Steps code c c' := by
  induction h with
  | refl => exact Steps.refl c
  | tail _ hstep ih =>
      obtain ⟨t, hstep, -⟩ := hstep
      exact ih.tail hstep

theorem StepsIf.mono {G' : T → σ → σ → Prop} (h : StepsIf code G c c')
    (hG : ∀ t s s', G t s s' → G' t s s') : StepsIf code G' c c' := by
  induction h with
  | refl => exact .refl
  | tail _ hstep ih =>
      obtain ⟨t, hstep, ht⟩ := hstep
      exact .tail ih ⟨t, hstep, hG t _ _ ht⟩

theorem Sound.soundIf {c : Config σ T Λ} (h : Sound I post c) : SoundIf G I post c := by
  obtain ⟨rs, hI, hsafe⟩ := h
  exact ⟨rs, hI, fun t => (hsafe t).safeIf⟩

theorem SoundIf.sound {c : Config σ T Λ} (h : SoundIf G I post c) (hG : ∀ t s s', G t s s') :
    Sound I post c := by
  obtain ⟨rs, hI, hsafe⟩ := h
  exact ⟨rs, hI, fun t => (hsafe t).safe (hG t)⟩

theorem SoundIf.step {t : T} (h : SoundIf G I post c)
    (hcode : ∀ t l p r, code t l = some p → post t l r → SafeIf I t (G t) (post t) p r)
    (hstep : Step code t c c') (hG : G t c.state c'.state) : SoundIf G I post c' := by
  obtain ⟨rs, hI, hsafe⟩ := h
  cases hstep with
  | act hact =>
      have ht := hsafe t
      rw [hact] at ht
      obtain ⟨r', hI', hnext⟩ := ht c.state rs hI rfl hG
      refine ⟨Function.update rs t r', hI', fun u => ?_⟩
      show SafeIf I u (G u) (post u) (Function.update c.threads t _ u) (Function.update rs t r' u)
      by_cases hu : u = t
      · rw [hu, Function.update_self, Function.update_self]
        exact hnext
      · rw [Function.update_of_ne hu, Function.update_of_ne hu]
        exact hsafe u
  | jump hret hl =>
      have ht := hsafe t
      rw [hret] at ht
      refine ⟨rs, hI, fun u => ?_⟩
      show SafeIf I u (G u) (post u) (Function.update c.threads t _ u) (rs u)
      by_cases hu : u = t
      · rw [hu, Function.update_self]
        exact hcode t _ _ _ hl ht
      · rw [Function.update_of_ne hu]
        exact hsafe u

/-- **Sound programs stay sound** as long as the steps meet the condition. -/
theorem SoundIf.steps (h : SoundIf G I post c)
    (hcode : ∀ t l p r, code t l = some p → post t l r → SafeIf I t (G t) (post t) p r)
    (hsteps : StepsIf code G c c') : SoundIf G I post c' := by
  induction hsteps with
  | refl => exact h
  | tail _ hstep ih =>
      obtain ⟨t, hstep, hG⟩ := hstep
      exact ih.step hcode hstep hG

theorem Sound.step {t : T} (h : Sound I post c)
    (hcode : ∀ t l p r, code t l = some p → post t l r → Safe I t (post t) p r)
    (hstep : Step code t c c') : Sound I post c' := by
  have hif : SoundIf (fun _ _ _ => True) I post c := h.soundIf
  exact (hif.step (fun t l p r hl hp => (hcode t l p r hl hp).safeIf) hstep trivial).sound
    fun _ _ _ => trivial

/-- **Sound programs stay sound**, whatever the order of the threads' steps. -/
theorem Sound.steps (h : Sound I post c)
    (hcode : ∀ t l p r, code t l = some p → post t l r → Safe I t (post t) p r)
    (hsteps : Steps code c c') : Sound I post c' := by
  induction hsteps with
  | refl => exact h
  | tail _ hstep ih =>
      obtain ⟨t, hstep⟩ := hstep
      exact ih.step hcode hstep

/-- A step changes the resource of its own thread only. -/
theorem Sound.exists_update {t : T} (h : Sound I post c) (hstep : Step code t c c') :
    ∃ rs r', I c.state rs ∧ I c'.state (Function.update rs t r') := by
  obtain ⟨rs, hI, hsafe⟩ := h
  cases hstep with
  | act hact =>
      have ht := hsafe t
      rw [hact] at ht
      obtain ⟨r', hI', -⟩ := ht c.state rs hI rfl
      exact ⟨rs, r', hI, hI'⟩
  | jump _ _ => exact ⟨rs, rs t, hI, by rwa [Function.update_eq_self]⟩

/-- A run by a schedule of threads whose steps all meet the condition. -/
theorem stepsIf_exec {ts : List T} (hG : ∀ t ∈ ts, ∀ s s', G t s s') (c : Config σ T Λ) :
    StepsIf code G c (c.exec code ts) := by
  induction ts generalizing c with
  | nil => exact .refl
  | cons t ts ih =>
      have hrest := ih (fun u hu => hG u (List.mem_cons_of_mem t hu)) (c.next code t)
      cases henabled : c.enabled code t with
      | true => exact .head ⟨t, step_next henabled, hG t List.mem_cons_self _ _⟩ hrest
      | false =>
          rw [next_of_not_enabled henabled] at hrest
          show StepsIf code G c ((c.next code t).exec code ts)
          rwa [next_of_not_enabled henabled]

end Sound

end NexusVm.Concurrent
