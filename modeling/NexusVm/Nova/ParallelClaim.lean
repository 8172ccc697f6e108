import NexusVm.Nova.ParallelTree
import NexusVm.Numerals

/-!
# Concurrent claims of a task

`try_start_processing` stores the buffer id before the compare-and-swap, and a call that
loses takes the id back.  Any number of calls run on one task; where each of them stands
is its phase.
-/

namespace NexusVm.Nova.ParallelTree

open Concurrent

variable {L P : Type}

/-- The state from which a task is claimed. -/
def Kind.claimable : Kind → ℕ
  | .leaf => LeafState.notStarted
  | .node => NodeState.waitingBothChildren

/-- The state of a claimed task. -/
def Kind.claimed : Kind → ℕ
  | .leaf => LeafState.processing
  | .node => NodeState.processing

/-- `try_start_processing` of both variants. -/
def Kind.tryStartProcessing : Kind → ℕ → ℕ → Act L P Bool
  | .leaf => LeafTask.tryStartProcessing
  | .node => NodeTask.tryStartProcessing

theorem Kind.claimable_ne_claimed (kind : Kind) : kind.claimable ≠ kind.claimed := by
  cases kind <;> decide

/-- Calls that have returned do nothing more. -/
def noJump {n : ℕ} : Fin n → Bool → Option (Act L P Bool) := fun _ _ => none

/-- `n` calls on the task `i` with their buffer ids, before their first step. -/
def calls (kind : Kind) (i : ℕ) {n : ℕ} (ids : Fin n → ℕ) (s : State L P) :
    Config (State L P) (Fin n) Bool :=
  ⟨s, fun t => kind.tryStartProcessing i (ids t)⟩

/-- All calls have returned. -/
def Returned {n : ℕ} (c : Config (State L P) (Fin n) Bool) : Prop :=
  ∀ t, ∃ b, c.threads t = .ret b

/-- The call has succeeded. -/
def Wins {n : ℕ} (c : Config (State L P) (Fin n) Bool) (t : Fin n) : Prop :=
  c.threads t = .ret true

/-- **The claim is exclusive** in a state of the calls: no two have succeeded, one has when
all have returned, and from the success on the task is as the winner has set it. -/
structure Exclusive (kind : Kind) (i : ℕ) {n : ℕ} (ids : Fin n → ℕ)
    (c : Config (State L P) (Fin n) Bool) : Prop where
  unique : ∀ t u, Wins c t → Wins c u → t = u
  exists_winner : Returned c → ∃ t, Wins c t
  task : ∀ t, Wins c t → c.state.tasks i = ⟨some (ids t), kind.claimed⟩

/-- Where a call stands: before its store, before its compare-and-swap, and after it
before and after the id is taken back. -/
inductive Phase
  | start
  | swap
  | won
  | lost
  | failed
deriving DecidableEq

/-- What is left of a call in a phase. -/
def Phase.program (kind : Kind) (i b : ℕ) : Phase → Act L P Bool
  | .start => kind.tryStartProcessing i b
  | .swap => do
      if ← compareExchange i kind.claimable kind.claimed then return true
      else
        storeBufferId i none
        return false
  | .won => .ret true
  | .lost => do
      storeBufferId i none
      return false
  | .failed => .ret false

/-- The next phase and the task after it. -/
def Phase.next (kind : Kind) (b : ℕ) (task : Task) : Phase → Option (Phase × Task)
  | .start => some (.swap, { task with bufferId := some b })
  | .swap =>
      if task.state = kind.claimable then some (.won, { task with state := kind.claimed })
      else some (.lost, task)
  | .lost => some (.failed, { task with bufferId := none })
  | .won | .failed => none

variable {kind : Kind}

/-- **A step of a call** is a step of its phase. -/
theorem exists_next_of_step {i b n : ℕ} {p : Phase} {t : Fin n}
    {c c' : Config (State L P) (Fin n) Bool} (h : Step noJump t c c')
    (hp : c.threads t = p.program kind i b) :
    ∃ p', p.next kind b (c.state.tasks i) = some (p', c'.state.tasks i) ∧
      c'.threads = Function.update c.threads t (p'.program kind i b) := by
  cases h with
  | jump _ hcode => cases hcode
  | act hact =>
      rw [hp] at hact
      cases p with
      | start =>
          refine ⟨.swap, ?_⟩
          cases kind with
          | leaf =>
              cases hact
              exact ⟨congrArg (fun task => some (Phase.swap, task)) (State.setTask_self _ _ _).symm, rfl⟩
          | node =>
              cases hact
              exact ⟨congrArg (fun task => some (Phase.swap, task)) (State.setTask_self _ _ _).symm, rfl⟩
      | swap =>
          cases hact
          rw [Phase.next]
          dsimp only
          split_ifs with hstate
          · exact ⟨.won, by rw [State.setTask_self], rfl⟩
          · exact ⟨.lost, rfl, rfl⟩
      | lost =>
          cases hact
          exact ⟨.failed,
            congrArg (fun task => some (Phase.failed, task)) (State.setTask_self _ _ _).symm, rfl⟩
      | won => cases hact
      | failed => cases hact

/-- **What holds of the phases and the task.**  Before the first successful swap the task
is claimable, afterwards there is one winner; a call that has failed has taken the id back,
or another call is about to; and a call that is alone has its id in the task. -/
structure Claims (kind : Kind) {n : ℕ} (ids : Fin n → ℕ) (task : Task) (ph : Fin n → Phase) :
    Prop where
  state : (task.state = kind.claimable ∧ ∀ t, ph t = .start ∨ ph t = .swap) ∨
    (task.state = kind.claimed ∧ ∃ w, ph w = .won ∧ ∀ u, ph u = .won → u = w)
  failed : (∃ t, ph t = .failed) → task.bufferId = none ∨ ∃ u, ph u = .swap ∨ ph u = .lost
  alone : ∀ t, (∀ u, u ≠ t → ph u = .start) → ph t ≠ .start → task.bufferId = some (ids t)

section Invariant

variable {kind : Kind} {n : ℕ} {ids : Fin n → ℕ} {task : Task} {ph : Fin n → Phase}

theorem claims_start (htask : task.state = kind.claimable) :
    Claims kind ids task fun _ => .start := by
  constructor
  · exact Or.inl ⟨htask, fun _ => Or.inl rfl⟩
  · rintro ⟨t, ht⟩
    cases ht
  · intro t _ hne
    exact absurd rfl hne

theorem update_phase (t : Fin n) (p : Phase) (u : Fin n) :
    Function.update ph t p u = if u = t then p else ph u := by
  rw [Function.update_apply]

/-- **Each step keeps the invariant.** -/
theorem Claims.next (h : Claims kind ids task ph) {t : Fin n} {p : Phase} {task' : Task}
    (hnext : (ph t).next kind (ids t) task = some (p, task')) :
    Claims kind ids task' (Function.update ph t p) := by
  have hself : Function.update ph t p t = p := Function.update_self t p ph
  have hother : ∀ u, u ≠ t → Function.update ph t p u = ph u :=
    fun u hu => Function.update_of_ne hu p ph
  cases ht : ph t with
  | start =>
      rw [ht] at hnext
      cases hnext
      constructor
      · rcases h.state with ⟨hstate, hall⟩ | ⟨hstate, w, hw, huniq⟩
        · refine Or.inl ⟨hstate, fun u => ?_⟩
          rw [update_phase]
          split_ifs
          · exact Or.inr rfl
          · exact hall u
        · have hwt : w ≠ t := by
            rintro rfl
            rw [ht] at hw
            cases hw
          refine Or.inr ⟨hstate, w, (hother w hwt).trans hw, fun u hu => ?_⟩
          rw [update_phase] at hu
          split_ifs at hu
          exact huniq u hu
      · intro _
        exact Or.inr ⟨t, Or.inl hself⟩
      · intro u hothers _
        by_cases hut : u = t
        · rw [hut]
        · have hswap := hothers t (Ne.symm hut)
          rw [hself] at hswap
          cases hswap
  | swap =>
      rw [ht, Phase.next] at hnext
      have halone : ∀ u, (∀ v, v ≠ u → Function.update ph t p v = .start) →
          p ≠ .start → task.bufferId = some (ids u) := by
        intro u hothers hp
        have hut : u = t := by
          by_contra hut
          have hstart := hothers t (Ne.symm hut)
          rw [hself] at hstart
          exact hp hstart
        subst hut
        refine h.alone u (fun v hv => ?_) (by rw [ht]; exact nofun)
        rw [← hother v hv]
        exact hothers v hv
      split_ifs at hnext with hclaim
      · cases hnext
        have hall : ∀ u, ph u = .start ∨ ph u = .swap := by
          rcases h.state with ⟨-, hall⟩ | ⟨hstate, -⟩
          · exact hall
          · exact absurd (hclaim.symm.trans hstate) kind.claimable_ne_claimed
        constructor
        · refine Or.inr ⟨rfl, t, hself, fun u hu => ?_⟩
          rw [update_phase] at hu
          split_ifs at hu with hut
          · exact hut
          · rcases hall u with hstart | hswap
            · rw [hstart] at hu
              cases hu
            · rw [hswap] at hu
              cases hu
        · rintro ⟨u, hu⟩
          rw [update_phase] at hu
          split_ifs at hu
          rcases hall u with hstart | hswap
          · rw [hstart] at hu
            cases hu
          · rw [hswap] at hu
            cases hu
        · intro u hothers _
          exact halone u hothers nofun
      · cases hnext
        obtain ⟨hstate, w, hw, huniq⟩ : task.state = kind.claimed ∧
            ∃ w, ph w = .won ∧ ∀ u, ph u = .won → u = w := by
          rcases h.state with ⟨hstate, -⟩ | hclaimed
          · exact absurd hstate hclaim
          · exact hclaimed
        have hwt : w ≠ t := by
          rintro rfl
          rw [ht] at hw
          cases hw
        constructor
        · refine Or.inr ⟨hstate, w, (hother w hwt).trans hw, fun u hu => ?_⟩
          rw [update_phase] at hu
          split_ifs at hu
          exact huniq u hu
        · intro _
          exact Or.inr ⟨t, Or.inr hself⟩
        · intro u hothers _
          exact halone u hothers nofun
  | lost =>
      rw [ht] at hnext
      cases hnext
      obtain ⟨hstate, w, hw, huniq⟩ : task.state = kind.claimed ∧
          ∃ w, ph w = .won ∧ ∀ u, ph u = .won → u = w := by
        rcases h.state with ⟨-, hall⟩ | hclaimed
        · rcases hall t with hstart | hswap
          · rw [ht] at hstart
            cases hstart
          · rw [ht] at hswap
            cases hswap
        · exact hclaimed
      have hwt : w ≠ t := by
        rintro rfl
        rw [ht] at hw
        cases hw
      constructor
      · refine Or.inr ⟨hstate, w, (hother w hwt).trans hw, fun u hu => ?_⟩
        rw [update_phase] at hu
        split_ifs at hu
        exact huniq u hu
      · intro _
        exact Or.inl rfl
      · intro u hothers _
        -- the winner has left its start, and so has the call that fails
        have hwu : w = u := by
          by_contra hwu
          have hstart := hothers w hwu
          rw [hother w hwt, hw] at hstart
          cases hstart
        have htu : t = u := by
          by_contra htu
          have hstart := hothers t htu
          rw [hself] at hstart
          cases hstart
        exact absurd (hwu.trans htu.symm) hwt
  | won =>
      rw [ht] at hnext
      cases hnext
  | failed =>
      rw [ht] at hnext
      cases hnext

end Invariant

/-- **In every run of the calls** each call stands in a phase, and the invariant holds. -/
theorem claims_of_steps {i n : ℕ} {ids : Fin n → ℕ} {s : State L P}
    (hs : (s.tasks i).state = kind.claimable) {c : Config (State L P) (Fin n) Bool}
    (hrun : Steps noJump (calls kind i ids s) c) :
    ∃ ph : Fin n → Phase, (∀ t, c.threads t = (ph t).program kind i (ids t)) ∧
      Claims kind ids (c.state.tasks i) ph := by
  induction hrun with
  | refl => exact ⟨fun _ => .start, fun _ => rfl, claims_start hs⟩
  | tail _ hstep ih =>
      obtain ⟨t, hstep⟩ := hstep
      obtain ⟨ph, hthreads, hclaims⟩ := ih
      obtain ⟨p, hnext, hupdate⟩ := exists_next_of_step hstep (hthreads t)
      refine ⟨Function.update ph t p, fun u => ?_, hclaims.next hnext⟩
      rw [hupdate]
      by_cases hut : u = t
      · rw [hut, Function.update_self, Function.update_self]
      · rw [Function.update_of_ne hut, Function.update_of_ne hut]
        exact hthreads u

/-! ## Winners and losers -/

theorem program_eq_ret {i b : ℕ} {p : Phase} {r : Bool} :
    p.program kind i b = (.ret r : Act L P Bool) ↔ (p = .won ∧ r = true) ∨
      (p = .failed ∧ r = false) := by
  cases p with
  | start =>
      refine iff_of_false ?_ (by rintro (⟨h, -⟩ | ⟨h, -⟩) <;> cases h)
      cases kind with
      | leaf => exact nofun
      | node => exact nofun
  | swap => exact iff_of_false nofun (by rintro (⟨h, -⟩ | ⟨h, -⟩) <;> cases h)
  | lost => exact iff_of_false nofun (by rintro (⟨h, -⟩ | ⟨h, -⟩) <;> cases h)
  | won =>
      constructor
      · intro h
        cases h
        exact Or.inl ⟨rfl, rfl⟩
      · rintro (⟨-, rfl⟩ | ⟨h, -⟩)
        · rfl
        · cases h
  | failed =>
      constructor
      · intro h
        cases h
        exact Or.inr ⟨rfl, rfl⟩
      · rintro (⟨h, -⟩ | ⟨-, rfl⟩)
        · cases h
        · rfl

section Outcome

variable {kind : Kind} {i n : ℕ} {ids : Fin n → ℕ} {c : Config (State L P) (Fin n) Bool}
  {ph : Fin n → Phase}

theorem wins_iff (hthreads : ∀ t, c.threads t = (ph t).program kind i (ids t)) (t : Fin n) :
    Wins c t ↔ ph t = .won := by
  rw [Wins, hthreads, program_eq_ret]
  constructor
  · rintro (⟨hwon, -⟩ | ⟨-, hfalse⟩)
    · exact hwon
    · cases hfalse
  · intro hwon
    exact Or.inl ⟨hwon, rfl⟩

theorem phase_of_returned (hthreads : ∀ t, c.threads t = (ph t).program kind i (ids t))
    (hret : Returned c) (t : Fin n) : ph t = .won ∨ ph t = .failed := by
  obtain ⟨b, hb⟩ := hret t
  rw [hthreads, program_eq_ret] at hb
  rcases hb with ⟨hwon, -⟩ | ⟨hfailed, -⟩
  · exact Or.inl hwon
  · exact Or.inr hfailed

/-- **One call succeeds**, and what the others do to the buffer id. -/
theorem Claims.outcome (h : Claims kind ids (c.state.tasks i) ph)
    (hthreads : ∀ t, c.threads t = (ph t).program kind i (ids t)) (hn : 0 < n) :
    (∀ t u, Wins c t → Wins c u → t = u) ∧
      (Returned c → (∃ t, Wins c t) ∧ (n ≠ 1 → (c.state.tasks i).bufferId = none)) := by
  constructor
  · intro t u ht hu
    rw [wins_iff hthreads] at ht hu
    rcases h.state with ⟨-, hall⟩ | ⟨-, w, -, huniq⟩
    · rcases hall t with hstart | hswap
      · rw [ht] at hstart
        cases hstart
      · rw [ht] at hswap
        cases hswap
    · rw [huniq t ht, huniq u hu]
  · intro hret
    have hphase := phase_of_returned hthreads hret
    have hnot : ∀ t, ph t ≠ .start ∧ ph t ≠ .swap ∧ ph t ≠ .lost := by
      intro t
      rcases hphase t with hwon | hfailed
      · rw [hwon]
        exact ⟨nofun, nofun, nofun⟩
      · rw [hfailed]
        exact ⟨nofun, nofun, nofun⟩
    obtain ⟨w, hw, huniq⟩ : ∃ w, ph w = .won ∧ ∀ u, ph u = .won → u = w := by
      rcases h.state with ⟨-, hall⟩ | ⟨-, hclaimed⟩
      · rcases hall ⟨0, hn⟩ with hstart | hswap
        · exact absurd hstart (hnot _).1
        · exact absurd hswap (hnot _).2.1
      · exact hclaimed
    refine ⟨⟨w, (wins_iff hthreads w).mpr hw⟩, fun hne => ?_⟩
    obtain ⟨u, hu⟩ : ∃ u, u ≠ w := by
      have : Nontrivial (Fin n) := Fin.nontrivial_iff_two_le.mpr (by omega)
      exact exists_ne w
    have hfailed : ph u = .failed := (hphase u).resolve_left fun hwon => hu (huniq u hwon)
    rcases h.failed ⟨u, hfailed⟩ with hnone | ⟨v, hv⟩
    · exact hnone
    · rcases hv with hswap | hlost
      · exact absurd hswap (hnot v).2.1
      · exact absurd hlost (hnot v).2.2

end Outcome

/-- **A claim is exclusive** in all runs exactly if there is one call.  Of more calls one
succeeds as well, but its buffer id is gone when they have returned. -/
theorem try_start_processing_iff {i n : ℕ} {ids : Fin n → ℕ} {s : State L P} (hn : 0 < n)
    (hs : (s.tasks i).state = kind.claimable) :
    ((∀ c, Steps noJump (calls kind i ids s) c → Exclusive kind i ids c) ↔ n = 1) ∧
      ∀ c, Steps noJump (calls kind i ids s) c →
        (∀ t u, Wins c t → Wins c u → t = u) ∧
        (Returned c → (∃ t, Wins c t) ∧ (n ≠ 1 → (c.state.tasks i).bufferId = none)) := by
  have hall : ∀ c, Steps noJump (calls kind i ids s) c →
      (∀ t u, Wins c t → Wins c u → t = u) ∧
      (Returned c → (∃ t, Wins c t) ∧ (n ≠ 1 → (c.state.tasks i).bufferId = none)) := by
    intro c hrun
    obtain ⟨ph, hthreads, hclaims⟩ := claims_of_steps hs hrun
    exact hclaims.outcome hthreads hn
  refine ⟨⟨fun hexclusive => ?_, ?_⟩, hall⟩
  · by_contra hne
    have hend : ∃ c, Steps noJump (calls kind i ids s) c ∧ ∀ t, (t ∈ List.finRange n ∨
        ∃ b, (calls kind i ids s).threads t = .ret b) → ∃ b, c.threads t = .ret b :=
      exists_steps_labels (List.finRange n) (calls kind i ids s)
    obtain ⟨c, hrun, hlabels⟩ := hend
    have hret : Returned c := fun t => hlabels t (Or.inl (List.mem_finRange t))
    obtain ⟨⟨w, hw⟩, hnone⟩ := (hall c hrun).2 hret
    have htask := (hexclusive c hrun).task w hw
    have hid := hnone hne
    rw [htask] at hid
    cases hid
  · rintro rfl c hrun
    obtain ⟨ph, hthreads, hclaims⟩ := claims_of_steps hs hrun
    obtain ⟨hunique, hreturned⟩ := hclaims.outcome hthreads hn
    refine ⟨hunique, fun hret => (hreturned hret).1, fun t ht => ?_⟩
    rw [wins_iff hthreads] at ht
    have hid := hclaims.alone t (fun u hu => absurd (Subsingleton.elim u t) hu)
      (by rw [ht]; exact nofun)
    have hstate : (c.state.tasks i).state = kind.claimed := by
      rcases hclaims.state with ⟨-, hstart⟩ | ⟨hclaimed, -⟩
      · rcases hstart t with h | h
        · rw [ht] at h
          cases h
        · rw [ht] at h
          cases h
      · exact hclaimed
    rw [← hid, ← hstate]

/-- Tasks that have not been started. -/
def idle : State Unit Unit :=
  ⟨fun _ => ⟨none, LeafState.notStarted⟩, fun _ => none, [], fun _ => [], fun _ => [], false⟩

/-- One call on a leaf. -/
theorem try_start_processing_one :
    (∀ c, Steps noJump (calls .leaf 0 (fun _ : Fin 1 => 5) idle) c →
      Exclusive .leaf 0 (fun _ : Fin 1 => 5) c) ↔ 1 = 1 :=
  (try_start_processing_iff Nat.one_pos rfl).1

/-- Two calls on a leaf, the second after the first: the winner's buffer id is gone. -/
theorem try_start_processing_two : ∃ c : Config (State Unit Unit) (Fin 2) Bool,
    Steps noJump (calls .leaf 0 (fun t : Fin 2 => t.val) idle) c ∧ Returned c ∧ Wins c 0 ∧
      c.state.tasks 0 = ⟨none, LeafState.processing⟩ := by
  refine ⟨(calls .leaf 0 (fun t : Fin 2 => t.val) idle).exec noJump [0, 0, 1, 1, 1],
    steps_exec _ _, fun t => ?_, rfl, rfl⟩
  fin_cases t
  · exact ⟨true, rfl⟩
  · exact ⟨false, rfl⟩

end NexusVm.Nova.ParallelTree
