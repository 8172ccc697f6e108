import NexusVm.Concurrent.Prog

/-!
# Runs with their history

An observer takes notes of what each step changes.  The notes are ghost state: no program reads
them, so every run has its notes, and an invariant may speak of both.
-/

namespace NexusVm.Concurrent

section Recorded

variable {σ η T Λ ρ α β : Type} (note : T → σ → σ → η → η)

/-- A program whose actions are observed. -/
def Prog.record (t : T) : Prog σ α → Prog (σ × η) α
  | .ret a => .ret a
  | .act update next =>
      .act (fun x => (update x.1, note t x.1 (update x.1) x.2)) fun x => (next x.1).record t

theorem record_bind (t : T) (p : Prog σ β) (k : β → Prog σ α) :
    (p >>= k).record note t = p.record note t >>= fun b => (k b).record note t := by
  induction p with
  | ret b => rfl
  | act update next ih => exact congrArg (Prog.act _) (funext fun x => ih x.1)

/-- The threads of a configuration are observed, and these are the notes so far. -/
def Config.record (c : Config σ T Λ) (h : η) : Config (σ × η) T Λ :=
  ⟨(c.state, h), fun t => (c.threads t).record note t⟩

variable [DecidableEq T] (code : T → Λ → Option (Prog σ Λ))

/-- A run and the notes on it. -/
inductive Recorded (c₀ : Config σ T Λ) (h₀ : η) : Config σ T Λ → η → Prop
  | refl : Recorded c₀ h₀ c₀ h₀
  | tail {c c' : Config σ T Λ} {h : η} {t : T} (hrun : Recorded c₀ h₀ c h)
      (hstep : Step code t c c') : Recorded c₀ h₀ c' (note t c.state c'.state h)

variable {note code} {c₀ c : Config σ T Λ} {h₀ h : η}

theorem Recorded.steps (hrun : Recorded note code c₀ h₀ c h) : Steps code c₀ c := by
  induction hrun with
  | refl => exact Steps.refl _
  | tail _ hstep ih => exact ih.tail hstep

/-- Every run has its notes. -/
theorem Steps.exists_recorded (hsteps : Steps code c₀ c) (h₀ : η) :
    ∃ h, Recorded note code c₀ h₀ c h := by
  induction hsteps with
  | refl => exact ⟨h₀, .refl⟩
  | tail _ hstep ih =>
      obtain ⟨h, hrun⟩ := ih
      obtain ⟨t, hstep⟩ := hstep
      exact ⟨_, hrun.tail hstep⟩

theorem record_update (threads : T → Prog σ Λ) (t : T) (p : Prog σ Λ) :
    (fun u => (Function.update threads t p u).record note u) =
      Function.update (fun u => (threads u).record note u) t (p.record note t) := by
  ext u
  by_cases hu : u = t
  · rw [hu, Function.update_self, Function.update_self]
  · rw [Function.update_of_ne hu, Function.update_of_ne hu]

/-- A step of the observed program, if jumps are not noted. -/
theorem Step.record (hquiet : ∀ t s h, note t s s h = h) {c' : Config σ T Λ} {t : T}
    (hstep : Step code t c c') (h : η) :
    Step (fun t l => (code t l).map (Prog.record note t)) t (c.record note h)
      (c'.record note (note t c.state c'.state h)) := by
  cases hstep with
  | act hact =>
      have hthread : (c.record note h).threads t = (Prog.act _ _).record note t :=
        congrArg (Prog.record note t) hact
      have hlift : Step (fun t l => (code t l).map (Prog.record note t)) t (c.record note h) _ :=
        Step.act hthread
      unfold Config.record at hlift ⊢
      rwa [record_update]
  | @jump l p hret hcode =>
      have hthread : (c.record note h).threads t = (Prog.ret l).record note t :=
        congrArg (Prog.record note t) hret
      have hlift : Step (fun t l => (code t l).map (Prog.record note t)) t (c.record note h) _ :=
        Step.jump hthread (congrArg (Option.map (Prog.record note t)) hcode)
      unfold Config.record at hlift ⊢
      rwa [record_update, hquiet]

section Tracked

variable (note) (I : σ × η → (T → ρ) → Prop) (t : T)

/-- An observed program keeps an invariant of the state and the notes. -/
def Tracked (post : α → ρ → Prop) (p : Prog σ α) (r : ρ) : Prop :=
  Safe I t post (p.record note t) r

variable {note I t} {post : α → ρ → Prop} {r : ρ}

theorem tracked_ret {a : α} (h : post a r) : Tracked note I t post (.ret a) r := h

theorem tracked_bind {p : Prog σ β} {k : β → Prog σ α} {mid : β → ρ → Prop}
    (hp : Tracked note I t mid p r) (hk : ∀ b r', mid b r' → Tracked note I t post (k b) r') :
    Tracked note I t post (p >>= k) r := by
  unfold Tracked at hp hk ⊢
  rw [record_bind]
  exact safe_bind hp hk

theorem tracked_atomic {f : σ → α × σ} (h : ∀ s n rs, I (s, n) rs → rs t = r →
    ∃ r', I ((f s).2, note t s (f s).2 n) (Function.update rs t r') ∧ post (f s).1 r') :
    Tracked note I t post (Prog.atomic f) r :=
  fun x rs hI hr => h x.1 x.2 rs hI hr

/-- A program all of whose updates keep the invariant, whatever else happens. -/
theorem tracked_of_all {P : (σ → σ) → Prop} {p : Prog σ α} (hall : p.All P)
    (hkeeps : ∀ update, P update → ∀ s n rs, I (s, n) rs → I (update s, note t s (update s) n) rs) :
    Tracked note I t (fun _ r' => r' = r) p r := by
  induction p with
  | ret a => exact rfl
  | act update next ih =>
      intro x rs hI hr
      refine ⟨r, ?_, ih x.1 (hall.2 x.1)⟩
      rw [← hr, Function.update_eq_self]
      exact hkeeps update hall.1 x.1 x.2 rs hI

end Tracked

/-- **Tracked programs keep the invariant** of the state and the notes, in any order of the
threads' steps. -/
theorem Recorded.sound {I : σ × η → (T → ρ) → Prop} {post : T → Λ → ρ → Prop}
    (hquiet : ∀ t s h, note t s s h = h) (hinit : Sound I post (c₀.record note h₀))
    (hcode : ∀ t l p r, code t l = some p → post t l r → Tracked note I t (post t) p r)
    (hrun : Recorded note code c₀ h₀ c h) : Sound I post (c.record note h) := by
  induction hrun with
  | refl => exact hinit
  | tail _ hstep ih =>
      refine ih.step ?_ (hstep.record hquiet _)
      intro t l p r hl hpost
      obtain ⟨q, hq, rfl⟩ := Option.map_eq_some_iff.mp hl
      exact hcode t l q r hq hpost

end Recorded

end NexusVm.Concurrent
