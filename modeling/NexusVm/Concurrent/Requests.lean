import Mathlib.Algebra.BigOperators.Group.Finset.Basic
import Mathlib.Data.Fintype.Basic
import Mathlib.Tactic.Ring

/-!
# Tasks and pools of workers

A task waits for the results of other tasks, then makes one request, whose response is its result.
Workers take requests from a queue; to serve one, a worker has a job done by a second pool.  Each
request and each job comes with a channel of its own for the response.
-/

namespace NexusVm.Concurrent.Requests

/-- A task: whose results it waits for, and what it requests with them; `none` is a failure. -/
structure Task (Req Res : Type) where
  needs : List ℕ
  request : List Res → Option Req

/-- What workers do: the first turn a request into a job and what to make of its result, unless
they fail; the second do jobs. -/
structure Pools (Req Res Job Out : Type) where
  start : Req → Option (Job × (Out → Res))
  run : Job → Out

/-- A message, with the channel for the response. -/
structure Work (M : Type) where
  msg : M
  response : ℕ

inductive TaskState (Res : Type)
  | spawned
  | waiting (response : ℕ)
  | done (res : Res)
  | failed

inductive Worker (Req Res Job Out : Type)
  | idle
  | taken (work : Work Req)
  | started (job : Job) (make : Out → Res) (response reply : ℕ)

/-- The tasks, both queues, the channels, and the workers `W` and `V` of both pools. -/
structure State (Req Res Job Out W V : Type) where
  tasks : ℕ → TaskState Res
  requests : List (Work Req)
  jobs : List (Work Job)
  responses : ℕ → Option Res
  replies : ℕ → Option Out
  nextResponse : ℕ
  nextReply : ℕ
  workers : W → Worker Req Res Job Out
  jobWorkers : V → Option (Work Job)
  /-- The requests so far, each with its task. -/
  asked : List (ℕ × Req)

section Pools

variable {Req Res Job Out W V : Type} [DecidableEq W] [DecidableEq V]
  (pools : Pools Req Res Job Out) (plan : List (Task Req Res))

/-- All tasks spawned, all workers idle. -/
def State.initial : State Req Res Job Out W V where
  tasks _ := .spawned
  requests := []
  jobs := []
  responses _ := none
  replies _ := none
  nextResponse := 0
  nextReply := 0
  workers _ := .idle
  jobWorkers _ := none
  asked := []

/-- One step of a task or of a worker. -/
inductive Step (s : State Req Res Job Out W V) : State Req Res Job Out W V → Prop
  | ask {h : ℕ} {task : Task Req Res} {results : List Res} {req : Req}
      (htask : plan[h]? = some task) (hstate : s.tasks h = .spawned)
      (hneeds : task.needs.map s.tasks = results.map .done)
      (hreq : task.request results = some req) :
      Step s { s with
        tasks := Function.update s.tasks h (.waiting s.nextResponse)
        requests := s.requests ++ [⟨req, s.nextResponse⟩]
        nextResponse := s.nextResponse + 1
        asked := s.asked ++ [(h, req)] }
  | fail {h : ℕ} {task : Task Req Res} {results : List Res}
      (htask : plan[h]? = some task) (hstate : s.tasks h = .spawned)
      (hneeds : task.needs.map s.tasks = results.map .done)
      (hreq : task.request results = none) :
      Step s { s with tasks := Function.update s.tasks h .failed }
  | failNeeds {h : ℕ} {task : Task Req Res} {results : List Res}
      (htask : plan[h]? = some task) (hstate : s.tasks h = .spawned)
      -- needs are awaited in their order
      (hneeds : results.map .done ++ [.failed] <+: task.needs.map s.tasks) :
      Step s { s with tasks := Function.update s.tasks h .failed }
  | receive {h ch : ℕ} {res : Res} (hstate : s.tasks h = .waiting ch)
      (hres : s.responses ch = some res) :
      Step s { s with tasks := Function.update s.tasks h (.done res) }
  | take {w : W} {work : Work Req} {rest : List (Work Req)} (hworker : s.workers w = .idle)
      (hqueue : s.requests = work :: rest) :
      Step s { s with
        requests := rest
        workers := Function.update s.workers w (.taken work) }
  | start {w : W} {work : Work Req} {job : Job} {make : Out → Res}
      (hworker : s.workers w = .taken work) (hstart : pools.start work.msg = some (job, make)) :
      Step s { s with
        jobs := s.jobs ++ [⟨job, s.nextReply⟩]
        nextReply := s.nextReply + 1
        workers := Function.update s.workers w (.started job make work.response s.nextReply) }
  | takeJob {v : V} {work : Work Job} {rest : List (Work Job)} (hworker : s.jobWorkers v = none)
      (hqueue : s.jobs = work :: rest) :
      Step s { s with
        jobs := rest
        jobWorkers := Function.update s.jobWorkers v (some work) }
  | reply {v : V} {work : Work Job} (hworker : s.jobWorkers v = some work) :
      Step s { s with
        replies := Function.update s.replies work.response (some (pools.run work.msg))
        jobWorkers := Function.update s.jobWorkers v none }
  | respond {w : W} {job : Job} {make : Out → Res} {response reply : ℕ} {out : Out}
      (hworker : s.workers w = .started job make response reply)
      (hreply : s.replies reply = some out) :
      Step s { s with
        responses := Function.update s.responses response (some (make out))
        workers := Function.update s.workers w .idle }

/-- Any number of steps, in any order. -/
abbrev Steps : State Req Res Job Out W V → State Req Res Job Out W V → Prop :=
  Relation.ReflTransGen (Step pools plan)

/-- The result of a task, from the results of the tasks that it needs. -/
inductive Value : ℕ → Res → Prop
  | mk {h : ℕ} {task : Task Req Res} {results : List Res} {req : Req} {job : Job}
      {make : Out → Res} (htask : plan[h]? = some task)
      (hlength : task.needs.length = results.length)
      (hneeds : ∀ (i h' : ℕ) (res : Res), task.needs[i]? = some h' → results[i]? = some res →
        Value h' res)
      (hreq : task.request results = some req) (hstart : pools.start req = some (job, make)) :
      Value h (make (pools.run job))

/-- The request of a task. -/
structure Asks (h : ℕ) (req : Req) : Prop where
  request : ∃ task results, plan[h]? = some task ∧ task.needs.length = results.length ∧
    (∀ (i h' : ℕ) (res : Res), task.needs[i]? = some h' → results[i]? = some res →
      Value pools plan h' res) ∧ task.request results = some req

variable {pools plan}

theorem Asks.value {h : ℕ} {req : Req} {job : Job} {make : Out → Res}
    (hasks : Asks pools plan h req) (hstart : pools.start req = some (job, make)) :
    Value pools plan h (make (pools.run job)) := by
  obtain ⟨task, results, htask, hlength, hneeds, hreq⟩ := hasks.request
  exact .mk htask hlength hneeds hreq hstart

/-- The parts of a result. -/
theorem Value.cases {h : ℕ} {res : Res} (hvalue : Value pools plan h res) :
    ∃ task results req job make, plan[h]? = some task ∧ task.needs.length = results.length ∧
      (∀ (i h' : ℕ) (res : Res), task.needs[i]? = some h' → results[i]? = some res →
        Value pools plan h' res) ∧
      task.request results = some req ∧ pools.start req = some (job, make) ∧
        res = make (pools.run job) := by
  obtain ⟨htask, hlength, hneeds, hreq, hstart⟩ := hvalue
  exact ⟨_, _, _, _, _, htask, hlength, hneeds, hreq, hstart, rfl⟩

variable {results results' : List Res} {needs : List ℕ}

/-- Lists of results agree if results do. -/
theorem results_eq (hlength : needs.length = results.length)
    (hlength' : needs.length = results'.length)
    (h : ∀ (i h : ℕ) (res res' : Res), needs[i]? = some h → results[i]? = some res → results'[i]? = some res' → res = res') :
    results = results' := by
  apply List.ext_getElem (hlength.symm.trans hlength')
  intro i hi hi'
  exact h i _ _ _ (List.getElem?_eq_getElem (hlength ▸ hi)) (List.getElem?_eq_getElem hi)
    (List.getElem?_eq_getElem hi')

/-- The result of a task is unique. -/
theorem Value.unique {h : ℕ} {res res' : Res} (hvalue : Value pools plan h res)
    (hvalue' : Value pools plan h res') : res = res' := by
  induction hvalue generalizing res' with
  | @mk h task results req job make htask hlength hneeds hreq hstart ih =>
      obtain ⟨task', results', req', job', make', htask', hlength', hneeds', hreq', hstart', rfl⟩ :=
        hvalue'.cases
      rw [htask, Option.some.injEq] at htask'
      subst htask'
      have heq : results = results' := results_eq hlength hlength' fun i h res res' hi hres hres' =>
        ih i h res hi hres (hneeds' i h res' hi hres')
      rw [← heq, hreq, Option.some.injEq] at hreq'
      rw [← hreq', hstart, Option.some.injEq, Prod.mk.injEq] at hstart'
      rw [hstart'.1, hstart'.2]

/-- So are the results that a task needs. -/
theorem results_unique (hlength : needs.length = results.length)
    (hneeds : ∀ (i h : ℕ) (res : Res), needs[i]? = some h → results[i]? = some res → Value pools plan h res)
    (hlength' : needs.length = results'.length)
    (hneeds' : ∀ (i h : ℕ) (res : Res), needs[i]? = some h → results'[i]? = some res → Value pools plan h res) :
    results = results' :=
  results_eq hlength hlength' fun i h res res' hi hres hres' =>
    (hneeds i h res hi hres).unique (hneeds' i h res' hi hres')

/-! ## What is in flight -/

/-- A request that is queued or with a worker. -/
def State.InFlight (s : State Req Res Job Out W V) (work : Work Req) : Prop :=
  work ∈ s.requests ∨ ∃ w, s.workers w = .taken work

/-- A job that is queued or with a worker. -/
def State.JobInFlight (s : State Req Res Job Out W V) (work : Work Job) : Prop :=
  work ∈ s.jobs ∨ ∃ v, s.jobWorkers v = some work

variable (pools plan)

/-- **Responses stay matched.**  A response channel belongs to one task, a reply channel to one
worker, and only what answers them is on the way to them. -/
structure Matched (s : State Req Res Job Out W V) : Prop where
  done : ∀ h res, s.tasks h = .done res → Value pools plan h res
  failed : ∀ h, s.tasks h = .failed → ∀ res, ¬ Value pools plan h res
  waiting : ∀ h ch, s.tasks h = .waiting ch → ch < s.nextResponse ∧
    ∀ res, s.responses ch = some res → Value pools plan h res
  request : ∀ work, s.InFlight work → work.response < s.nextResponse ∧
    (∃ h, Asks pools plan h work.msg) ∧
      ∀ h, s.tasks h = .waiting work.response → Asks pools plan h work.msg
  started : ∀ w job make response reply, s.workers w = .started job make response reply →
    response < s.nextResponse ∧
      ∀ h, s.tasks h = .waiting response → Value pools plan h (make (pools.run job))
  reply : ∀ w job make response reply, s.workers w = .started job make response reply →
    reply < s.nextReply ∧ (∀ work, s.JobInFlight work → work.response = reply → work.msg = job) ∧
      ∀ out, s.replies reply = some out → out = pools.run job
  job : ∀ work, s.JobInFlight work → work.response < s.nextReply
  fresh : ∀ ch, s.nextResponse ≤ ch → s.responses ch = none
  freshReply : ∀ ch, s.nextReply ≤ ch → s.replies ch = none

variable {pools plan}

omit [DecidableEq W] [DecidableEq V] in
theorem matched_initial :
    Matched pools plan (State.initial : State Req Res Job Out W V) := by
  constructor <;> simp [State.initial, State.InFlight, State.JobInFlight]

variable {s : State Req Res Job Out W V}

omit [DecidableEq W] [DecidableEq V] in
/-- Needs that are met have their values. -/
theorem value_of_needs {task : Task Req Res} {results : List Res}
    (hdone : ∀ h res, s.tasks h = .done res → Value pools plan h res)
    (hneeds : task.needs.map s.tasks = results.map .done) :
    task.needs.length = results.length ∧ ∀ (i h : ℕ) (res : Res), task.needs[i]? = some h →
      results[i]? = some res → Value pools plan h res := by
  constructor
  · simpa only [List.length_map] using congrArg List.length hneeds
  · intro i h res hi hres
    have hget := congrArg (·[i]?) hneeds
    simp only [List.getElem?_map, hi, hres, Option.map_some, Option.some.injEq] at hget
    exact hdone h res hget

variable {tasks : ℕ → TaskState Res}

omit [DecidableEq W] [DecidableEq V] in
/-- Tasks that end leave the rest matched. -/
theorem Matched.of_tasks (hs : Matched pools plan s)
    (hdone : ∀ h res, tasks h = .done res → Value pools plan h res)
    (hfailed : ∀ h, tasks h = .failed → ∀ res, ¬ Value pools plan h res)
    (hwaiting : ∀ h ch, tasks h = .waiting ch → s.tasks h = .waiting ch) :
    Matched pools plan { s with tasks := tasks } where
  done := hdone
  failed := hfailed
  waiting h ch hch := hs.waiting h ch (hwaiting h ch hch)
  request work hwork :=
    ⟨(hs.request work hwork).1, (hs.request work hwork).2.1, fun h hch =>
      (hs.request work hwork).2.2 h (hwaiting h _ hch)⟩
  started w job make response reply hw :=
    ⟨(hs.started w job make response reply hw).1, fun h hch =>
      (hs.started w job make response reply hw).2 h (hwaiting h _ hch)⟩
  reply := hs.reply
  job := hs.job
  fresh := hs.fresh
  freshReply := hs.freshReply

omit [DecidableEq W] [DecidableEq V] in
/-- The need that failed. -/
theorem exists_failed {results : List Res}
    (hneeds : results.map .done ++ [.failed] <+: needs.map s.tasks) :
    ∃ h, needs[results.length]? = some h ∧ s.tasks h = .failed := by
  obtain ⟨rest, hrest⟩ := hneeds
  have hget := congrArg (·[results.length]?) hrest
  simp only [List.append_assoc, List.singleton_append, List.getElem?_map] at hget
  rw [List.getElem?_append_right (by rw [List.length_map]), List.length_map, Nat.sub_self] at hget
  obtain ⟨h, hneed, hh⟩ := Option.map_eq_some_iff.mp hget.symm
  exact ⟨h, hneed, hh⟩

variable {s s' : State Req Res Job Out W V}

/-- Every step keeps responses matched. -/
theorem Step.matched (hstep : Step pools plan s s') (hs : Matched pools plan s) :
    Matched pools plan s' := by
  cases hstep with
  | @ask i task results req htask hstate hneeds hreq =>
      have hneeds := value_of_needs hs.done hneeds
      have hasks : Asks pools plan i req := ⟨_, _, htask, hneeds.1, hneeds.2, hreq⟩
      have hdone := hs.done
      have hwaiting := hs.waiting
      have hfailed := hs.failed
      have hfresh := hs.fresh
      constructor
      · grind [Function.update_apply]
      · grind [Function.update_apply]
      · grind [Function.update_apply]
      · intro work hwork
        have hcases : s.InFlight work ∨ work = ⟨req, s.nextResponse⟩ := by
          rcases hwork with hmem | hw
          · rcases List.mem_append.mp hmem with hmem | hmem
            · exact Or.inl (Or.inl hmem)
            · exact Or.inr (List.mem_singleton.mp hmem)
          · exact Or.inl (Or.inr hw)
        rcases hcases with hwork | rfl
        · obtain ⟨hlt, hexists, hall⟩ := hs.request work hwork
          refine ⟨Nat.lt_succ_of_lt hlt, hexists, ?_⟩
          grind [Function.update_apply]
        · refine ⟨Nat.lt_succ_self _, ⟨i, hasks⟩, ?_⟩
          grind [Function.update_apply]
      · have hstarted := hs.started
        grind [Function.update_apply]
      · exact hs.reply
      · exact hs.job
      · grind
      · exact hs.freshReply
  | @fail i task results htask hstate hneeds hreq =>
      have hneeds := value_of_needs hs.done hneeds
      have hnone : ∀ res, ¬ Value pools plan i res := by
        intro res hvalue
        obtain ⟨task', results', req, job, make, htask', hlength, hneeds', hreq', -⟩ := hvalue.cases
        rw [htask, Option.some.injEq] at htask'
        subst htask'
        rw [results_unique hneeds.1 hneeds.2 hlength hneeds', hreq'] at hreq
        cases hreq
      have hdone := hs.done
      have hfailed := hs.failed
      apply hs.of_tasks <;> grind [Function.update_apply]
  | @failNeeds i task results htask hstate hneeds =>
      have hnone : ∀ res, ¬ Value pools plan i res := by
        intro res hvalue
        obtain ⟨task', results', req, job, make, htask', hlength, hneeds', -⟩ := hvalue.cases
        rw [htask, Option.some.injEq] at htask'
        subst htask'
        obtain ⟨h, hneed, hh⟩ := exists_failed hneeds
        have hlt := hlength ▸ (List.getElem?_eq_some_iff.mp hneed).1
        exact hs.failed h hh _ (hneeds' _ h _ hneed (List.getElem?_eq_getElem hlt))
      have hdone := hs.done
      have hfailed := hs.failed
      apply hs.of_tasks <;> grind [Function.update_apply]
  | receive hstate hres =>
      have hdone := hs.done
      have hfailed := hs.failed
      have hvalue := (hs.waiting _ _ hstate).2 _ hres
      apply hs.of_tasks <;> grind [Function.update_apply]
  | take hworker hqueue =>
      have hrequest := hs.request
      have hstarted := hs.started
      have hreply := hs.reply
      refine ⟨hs.done, hs.failed, hs.waiting, ?_, ?_, ?_, hs.job, hs.fresh, hs.freshReply⟩
      · grind [Function.update_apply, State.InFlight]
      · grind [Function.update_apply]
      · grind [Function.update_apply, State.JobInFlight]
  | start hworker hstart =>
      have hrequest := hs.request
      have htaken := hrequest _ (Or.inr ⟨_, hworker⟩)
      have hvalue := fun h hch => (htaken.2.2 h hch).value hstart
      have hstarted := hs.started
      have hreply := hs.reply
      have hjob := hs.job
      have hfresh := hs.freshReply
      refine ⟨hs.done, hs.failed, hs.waiting, ?_, ?_, ?_, ?_, hs.fresh, ?_⟩
      · grind [Function.update_apply, State.InFlight]
      · grind [Function.update_apply]
      · grind [Function.update_apply, State.JobInFlight]
      · grind [State.JobInFlight]
      · grind
  | takeJob hworker hqueue =>
      have hreply := hs.reply
      have hjob := hs.job
      refine ⟨hs.done, hs.failed, hs.waiting, hs.request, hs.started, ?_, ?_, hs.fresh,
        hs.freshReply⟩
      · grind [Function.update_apply, State.JobInFlight]
      · grind [Function.update_apply, State.JobInFlight]
  | reply hworker =>
      have hreply := hs.reply
      have hjob := hs.job
      have hbusy := hjob _ (Or.inr ⟨_, hworker⟩)
      have hfresh := hs.freshReply
      refine ⟨hs.done, hs.failed, hs.waiting, hs.request, hs.started, ?_, ?_, hs.fresh, ?_⟩
      · grind [Function.update_apply, State.JobInFlight]
      · grind [Function.update_apply, State.JobInFlight]
      · grind [Function.update_apply]
  | respond hworker hreply =>
      have hstarted := hs.started
      have hrequest := hs.request
      have hreplies := hs.reply
      have hwaiting := hs.waiting
      obtain ⟨hlt, hvalue⟩ := hstarted _ _ _ _ _ hworker
      have hout := (hreplies _ _ _ _ _ hworker).2.2 _ hreply
      have hfresh := hs.fresh
      refine ⟨hs.done, hs.failed, ?_, ?_, ?_, ?_, hs.job, ?_, hs.freshReply⟩
      · grind [Function.update_apply]
      · grind [Function.update_apply, State.InFlight]
      · grind [Function.update_apply]
      · grind [Function.update_apply, State.JobInFlight]
      · grind [Function.update_apply]

/-! ## Nothing is lost, each task asks once and runs -/

/-- **Nothing is lost.**  What a task or a worker waits for is there or on the way. -/
structure Held (s : State Req Res Job Out W V) : Prop where
  response : ∀ h ch, s.tasks h = .waiting ch → (∃ res, s.responses ch = some res) ∨
    (∃ work, s.InFlight work ∧ work.response = ch) ∨
      ∃ w job make reply, s.workers w = .started job make ch reply
  reply : ∀ w job make response reply, s.workers w = .started job make response reply →
    (∃ out, s.replies reply = some out) ∨ ∃ work, s.JobInFlight work ∧ work.response = reply

omit [DecidableEq W] [DecidableEq V] in
theorem held_initial : Held (State.initial : State Req Res Job Out W V) := by
  constructor <;> nofun

omit [DecidableEq W] [DecidableEq V] in
/-- Tasks that end lose nothing. -/
theorem Held.of_tasks (hs : Held s)
    (hwaiting : ∀ h ch, tasks h = .waiting ch → s.tasks h = .waiting ch) :
    Held { s with tasks := tasks } where
  response h ch hch := hs.response h ch (hwaiting h ch hch)
  reply := hs.reply

/-- A value that is held elsewhere is still there after an update. -/
theorem exists_update {α β : Type} [DecidableEq α] {f : α → β} {a : α} {b c : β}
    (h : ∃ a, f a = c) (hne : f a ≠ c) : ∃ a', Function.update f a b a' = c := by
  obtain ⟨a', ha'⟩ := h
  have hother : a' ≠ a := by
    rintro rfl
    exact hne ha'
  exact ⟨a', by rw [Function.update_of_ne hother, ha']⟩

/-- No step loses anything. -/
theorem Step.held (hstep : Step pools plan s s') (hs : Held s) : Held s' := by
  cases hstep with
  | @ask i task results req htask hstate hneeds hreq =>
      refine ⟨?_, hs.reply⟩
      intro h ch hch
      by_cases hh : s.tasks h = .waiting ch
      · rcases hs.response h ch hh with hres | ⟨work, hwork, rfl⟩ | hstarted
        · exact Or.inl hres
        · exact Or.inr (Or.inl ⟨work, hwork.imp_left (List.mem_append_left _), rfl⟩)
        · exact Or.inr (Or.inr hstarted)
      · refine Or.inr (Or.inl ⟨⟨req, ch⟩, Or.inl (List.mem_append_right _ ?_), rfl⟩)
        grind [Function.update_apply]
  | fail htask hstate hneeds hreq =>
      apply hs.of_tasks
      grind [Function.update_apply]
  | failNeeds htask hstate hneeds =>
      apply hs.of_tasks
      grind [Function.update_apply]
  | receive hstate hres =>
      apply hs.of_tasks
      grind [Function.update_apply]
  | @take w taken rest hworker hqueue =>
      have hidle : ∀ work, s.workers w ≠ .taken work := by
        intro work
        rw [hworker]
        nofun
      constructor
      · intro h ch hch
        rcases hs.response h ch hch with hres | ⟨work, hmem | htaken, rfl⟩ |
          ⟨w', job, make, reply, hw'⟩
        · exact Or.inl hres
        · rw [hqueue] at hmem
          rcases List.mem_cons.mp hmem with rfl | hmem
          · exact Or.inr (Or.inl ⟨work, Or.inr ⟨w, Function.update_self w _ _⟩, rfl⟩)
          · exact Or.inr (Or.inl ⟨work, Or.inl hmem, rfl⟩)
        · exact Or.inr (Or.inl ⟨work, Or.inr (exists_update htaken (hidle work)), rfl⟩)
        · refine Or.inr (Or.inr ⟨w', job, make, reply, ?_⟩)
          grind [Function.update_apply]
      · have hreply := hs.reply
        grind [Function.update_apply, State.JobInFlight]
  | @start w taken job make hworker hstart =>
      constructor
      · intro h ch hch
        rcases hs.response h ch hch with hres | ⟨work, hmem | htaken, rfl⟩ |
          ⟨w', job', make', reply, hw'⟩
        · exact Or.inl hres
        · exact Or.inr (Or.inl ⟨work, Or.inl hmem, rfl⟩)
        · by_cases hsame : taken = work
          · refine Or.inr (Or.inr ⟨w, job, make, s.nextReply, ?_⟩)
            rw [← hsame]
            exact Function.update_self w _ _
          · have hne : s.workers w ≠ .taken work := by
              rw [hworker]
              exact fun heq => hsame (Worker.taken.inj heq)
            exact Or.inr (Or.inl ⟨work, Or.inr (exists_update htaken hne), rfl⟩)
        · refine Or.inr (Or.inr ⟨w', job', make', reply, ?_⟩)
          grind [Function.update_apply]
      · intro w' job' make' response reply hw'
        by_cases hw : s.workers w' = .started job' make' response reply
        · rcases hs.reply w' job' make' response reply hw with hout | ⟨work, hwork, rfl⟩
          · exact Or.inl hout
          · exact Or.inr ⟨work, hwork.imp_left (List.mem_append_left _), rfl⟩
        · refine Or.inr ⟨⟨job, reply⟩, Or.inl (List.mem_append_right _ ?_), rfl⟩
          grind [Function.update_apply]
  | @takeJob v taken rest hworker hqueue =>
      refine ⟨hs.response, ?_⟩
      intro w job make response reply hw
      rcases hs.reply w job make response reply hw with hout | ⟨work, hmem | hbusy, rfl⟩
      · exact Or.inl hout
      · rw [hqueue] at hmem
        rcases List.mem_cons.mp hmem with rfl | hmem
        · exact Or.inr ⟨work, Or.inr ⟨v, Function.update_self v _ _⟩, rfl⟩
        · exact Or.inr ⟨work, Or.inl hmem, rfl⟩
      · have hne : s.jobWorkers v ≠ some work := by
          rw [hworker]
          nofun
        exact Or.inr ⟨work, Or.inr (exists_update hbusy hne), rfl⟩
  | @reply v busy hworker =>
      refine ⟨hs.response, ?_⟩
      intro w job make response reply hw
      rcases hs.reply w job make response reply hw with ⟨out, hout⟩ | ⟨work, hmem | hbusy, rfl⟩
      · grind [Function.update_apply]
      · exact Or.inr ⟨work, Or.inl hmem, rfl⟩
      · by_cases hsame : busy = work
        · rw [← hsame]
          exact Or.inl ⟨_, Function.update_self _ _ _⟩
        · have hne : s.jobWorkers v ≠ some work := by
            rw [hworker]
            exact fun heq => hsame (Option.some.inj heq)
          exact Or.inr ⟨work, Or.inr (exists_update hbusy hne), rfl⟩
  | @respond w job make response reply out hworker hout =>
      have hne : ∀ work, s.workers w ≠ .taken work := by
        intro work
        rw [hworker]
        nofun
      constructor
      · intro h ch hch
        rcases hs.response h ch hch with ⟨res, hres⟩ | ⟨work, hmem | htaken, rfl⟩ |
          ⟨w', job', make', reply', hw'⟩
        · grind [Function.update_apply]
        · exact Or.inr (Or.inl ⟨work, Or.inl hmem, rfl⟩)
        · exact Or.inr (Or.inl ⟨work, Or.inr (exists_update htaken (hne work)), rfl⟩)
        · by_cases hsame : w' = w
          · rw [hsame, hworker] at hw'
            cases hw'
            exact Or.inl ⟨_, Function.update_self _ _ _⟩
          · refine Or.inr (Or.inr ⟨w', job', make', reply', ?_⟩)
            exact (Function.update_of_ne hsame _ _).trans hw'
      · have hreply := hs.reply
        grind [Function.update_apply, State.JobInFlight]

variable (pools plan)

/-- **Each task asks once**, and only tasks of the plan ask. -/
structure AskedOnce (s : State Req Res Job Out W V) : Prop where
  asks : ∀ entry ∈ s.asked, Asks pools plan entry.1 entry.2
  nodup : (s.asked.map Prod.fst).Nodup
  mem : ∀ h, h ∈ s.asked.map Prod.fst ↔
    (∃ ch, s.tasks h = .waiting ch) ∨ ∃ res, s.tasks h = .done res

variable {pools plan}

omit [DecidableEq W] [DecidableEq V] in
theorem askedOnce_initial :
    AskedOnce pools plan (State.initial : State Req Res Job Out W V) := by
  constructor <;> simp [State.initial]

/-- Every step keeps that. -/
theorem Step.askedOnce (hstep : Step pools plan s s') (hmatched : Matched pools plan s)
    (hs : AskedOnce pools plan s) : AskedOnce pools plan s' := by
  have hmem := hs.mem
  cases hstep with
  | @ask i task results req htask hstate hneeds hreq =>
      have hneeds := value_of_needs hmatched.done hneeds
      have hasks : Asks pools plan i req := ⟨_, _, htask, hneeds.1, hneeds.2, hreq⟩
      constructor
      · intro entry hentry
        rcases List.mem_append.mp hentry with hentry | hentry
        · exact hs.asks entry hentry
        · obtain rfl := List.mem_singleton.mp hentry
          exact hasks
      · rw [List.map_append, List.map_singleton, List.nodup_append']
        refine ⟨hs.nodup, List.nodup_singleton _, ?_⟩
        intro h hold hnew
        obtain rfl := List.mem_singleton.mp hnew
        grind
      · intro h
        rw [List.map_append, List.map_singleton, List.mem_append, List.mem_singleton, hmem]
        by_cases hh : h = i
        · subst hh
          simp [Function.update_self]
        · simp [hh]
  | fail htask hstate hneeds hreq =>
      refine ⟨hs.asks, hs.nodup, ?_⟩
      grind [Function.update_apply]
  | failNeeds htask hstate hneeds =>
      refine ⟨hs.asks, hs.nodup, ?_⟩
      grind [Function.update_apply]
  | receive hstate hres =>
      refine ⟨hs.asks, hs.nodup, ?_⟩
      grind [Function.update_apply]
  | take hworker hqueue => exact ⟨hs.asks, hs.nodup, hs.mem⟩
  | start hworker hstart => exact ⟨hs.asks, hs.nodup, hs.mem⟩
  | takeJob hworker hqueue => exact ⟨hs.asks, hs.nodup, hs.mem⟩
  | reply hworker => exact ⟨hs.asks, hs.nodup, hs.mem⟩
  | respond hworker hout => exact ⟨hs.asks, hs.nodup, hs.mem⟩

/-- What holds in every state of a run. -/
structure Invariant (pools : Pools Req Res Job Out) (plan : List (Task Req Res))
    (s : State Req Res Job Out W V) : Prop where
  matched : Matched pools plan s
  held : Held s
  askedOnce : AskedOnce pools plan s

theorem Steps.invariant (hsteps : Steps pools plan s s') (hs : Invariant pools plan s) :
    Invariant pools plan s' := by
  induction hsteps with
  | refl => exact hs
  | tail _ hstep ih =>
      exact ⟨hstep.matched ih.matched, hstep.held ih.held, hstep.askedOnce ih.matched ih.askedOnce⟩

/-- The invariant holds of all reachable states. -/
theorem Steps.invariant_of_initial (hsteps : Steps pools plan State.initial s) :
    Invariant pools plan s :=
  hsteps.invariant ⟨matched_initial, held_initial, askedOnce_initial⟩

omit [DecidableEq W] [DecidableEq V] in
/-- Only tasks of the plan leave their first state. -/
theorem AskedOnce.lt (hs : AskedOnce pools plan s) {h ch : ℕ} (hch : s.tasks h = .waiting ch) :
    h < plan.length := by
  obtain ⟨entry, hentry, rfl⟩ := List.mem_map.mp ((hs.mem h).mpr (Or.inl ⟨ch, hch⟩))
  obtain ⟨task, results, htask, -⟩ := (hs.asks entry hentry).request
  exact (List.getElem?_eq_some_iff.mp htask).1

/-! ## Runs end and tasks with results get done -/

section Measure

variable [Fintype W] [Fintype V]

def TaskState.weight : TaskState Res → ℕ
  | .spawned => 10
  | .waiting _ => 1
  | .done _ => 0
  | .failed => 0

def Worker.weight : Worker Req Res Job Out → ℕ
  | .idle => 0
  | .taken _ => 7
  | .started .. => 1

def jobWeight : Option (Work Job) → ℕ
  | none => 0
  | some _ => 3

/-- A bound on the steps that are left. -/
def State.measure (size : ℕ) (s : State Req Res Job Out W V) : ℕ :=
  ∑ h ∈ Finset.range size, (s.tasks h).weight + 8 * s.requests.length + 4 * s.jobs.length +
    ∑ w, (s.workers w).weight + ∑ v, jobWeight (s.jobWorkers v)

/-- The sum after an update. -/
theorem sum_update {α β : Type} [DecidableEq α] (f : α → β) (weight : β → ℕ) {t : Finset α} {a : α}
    (ha : a ∈ t) (b : β) : ∑ x ∈ t, weight (Function.update f a b x) + weight (f a) =
      ∑ x ∈ t, weight (f x) + weight b := by
  rw [← Finset.add_sum_erase t _ ha, ← Finset.add_sum_erase t (fun x => weight (f x)) ha,
    Function.update_self]
  have hrest : ∑ x ∈ t.erase a, weight (Function.update f a b x) = ∑ x ∈ t.erase a, weight (f x) :=
    Finset.sum_congr rfl fun x hx => by rw [Function.update_of_ne (Finset.ne_of_mem_erase hx)]
  omega

omit [DecidableEq W] [DecidableEq V] [Fintype W] [Fintype V] in
theorem sum_tasks {s : State Req Res Job Out W V} {h : ℕ} (hh : h < plan.length)
    (state : TaskState Res) :
    ∑ h' ∈ Finset.range plan.length, (Function.update s.tasks h state h').weight +
      (s.tasks h).weight = ∑ h' ∈ Finset.range plan.length, (s.tasks h').weight + state.weight :=
  sum_update s.tasks TaskState.weight (Finset.mem_range.mpr hh) state

/-- Every step takes from the bound. -/
theorem Step.measure_lt {s s' : State Req Res Job Out W V} (hstep : Step pools plan s s')
    (hs : AskedOnce pools plan s) : s'.measure plan.length < s.measure plan.length := by
  unfold State.measure
  cases hstep with
  | @ask h task results req htask hstate hneeds hreq =>
      have hsum := sum_tasks (s := s) (List.getElem?_eq_some_iff.mp htask).1
        (.waiting s.nextResponse)
      rw [hstate] at hsum
      change _ + 10 = _ + 1 at hsum
      simp only [List.length_append, List.length_singleton]
      omega
  | fail htask hstate hneeds hreq =>
      have hsum := sum_tasks (s := s) (List.getElem?_eq_some_iff.mp htask).1 .failed
      rw [hstate] at hsum
      change _ + 10 = _ + 0 at hsum
      dsimp only
      omega
  | failNeeds htask hstate hneeds =>
      have hsum := sum_tasks (s := s) (List.getElem?_eq_some_iff.mp htask).1 .failed
      rw [hstate] at hsum
      change _ + 10 = _ + 0 at hsum
      dsimp only
      omega
  | @receive h ch res hstate hres =>
      have hsum := sum_tasks (s := s) (hs.lt hstate) (.done res)
      rw [hstate] at hsum
      change _ + 1 = _ + 0 at hsum
      dsimp only
      omega
  | @take w work rest hworker hqueue =>
      have hsum := sum_update s.workers Worker.weight (Finset.mem_univ w) (.taken work)
      rw [hworker] at hsum
      change _ + 0 = _ + 7 at hsum
      rw [hqueue, List.length_cons]
      dsimp only
      omega
  | @start w work job make hworker hstart =>
      have hsum := sum_update s.workers Worker.weight (Finset.mem_univ w)
        (.started job make work.response s.nextReply)
      rw [hworker] at hsum
      change _ + 7 = _ + 1 at hsum
      simp only [List.length_append, List.length_singleton]
      omega
  | @takeJob v work rest hworker hqueue =>
      have hsum := sum_update s.jobWorkers jobWeight (Finset.mem_univ v) (some work)
      rw [hworker] at hsum
      change _ + 0 = _ + 3 at hsum
      rw [hqueue, List.length_cons]
      dsimp only
      omega
  | @reply v work hworker =>
      have hsum := sum_update s.jobWorkers jobWeight (Finset.mem_univ v) none
      rw [hworker] at hsum
      change _ + 3 = _ + 0 at hsum
      dsimp only
      omega
  | @respond w job make response reply out hworker hreply =>
      have hsum := sum_update s.workers Worker.weight (Finset.mem_univ w) .idle
      rw [hworker] at hsum
      change _ + 1 = _ + 0 at hsum
      dsimp only
      omega

/-- **Every run ends.** -/
theorem not_forall_step {run : ℕ → State Req Res Job Out W V} (hinitial : run 0 = State.initial) :
    ¬ ∀ t, Step pools plan (run t) (run (t + 1)) := by
  intro hrun
  have hinv : ∀ t, Invariant pools plan (run t) := by
    intro t
    apply Steps.invariant_of_initial
    induction t with
    | zero => rw [hinitial]
    | succ t ih => exact ih.tail (hrun t)
  have hbound : ∀ t, (run t).measure plan.length + t ≤ (run 0).measure plan.length := by
    intro t
    induction t with
    | zero => exact le_refl _
    | succ t ih =>
        have hlt := (hrun t).measure_lt (hinv t).askedOnce
        omega
  have hlast := hbound ((run 0).measure plan.length + 1)
  omega

end Measure

section Progress

variable [Nonempty V] {s : State Req Res Job Out W V}

/-- A worker that has started goes on. -/
theorem exists_step_started (hs : Held s) {w : W} {job : Job} {make : Out → Res}
    {response reply : ℕ} (hw : s.workers w = .started job make response reply) :
    ∃ s', Step pools plan s s' := by
  rcases hs.reply w job make response reply hw with ⟨out, hout⟩ | ⟨work, hmem | ⟨v, hv⟩, -⟩
  · exact ⟨_, .respond hw hout⟩
  · obtain ⟨first, rest, hqueue⟩ := List.exists_cons_of_ne_nil (List.ne_nil_of_mem hmem)
    obtain ⟨v⟩ := ‹Nonempty V›
    cases hv : s.jobWorkers v with
    | none => exact ⟨_, .takeJob hv hqueue⟩
    | some busy => exact ⟨_, .reply hv⟩
  · exact ⟨_, .reply hv⟩

/-- A request in flight goes on, if workers do not fail. -/
theorem exists_step_inFlight [Nonempty W] (hs : Held s)
    (hstart : ∀ work, s.InFlight work → ∃ out, pools.start work.msg = some out) {work : Work Req}
    (hwork : s.InFlight work) : ∃ s', Step pools plan s s' := by
  have htaken : ∀ w work, s.workers w = .taken work → ∃ s', Step pools plan s s' := by
    intro w work hw
    obtain ⟨⟨job, make⟩, hout⟩ := hstart work (Or.inr ⟨w, hw⟩)
    exact ⟨_, .start hw hout⟩
  rcases hwork with hmem | ⟨w, hw⟩
  · obtain ⟨first, rest, hqueue⟩ := List.exists_cons_of_ne_nil (List.ne_nil_of_mem hmem)
    obtain ⟨w⟩ := ‹Nonempty W›
    cases hw : s.workers w with
    | idle => exact ⟨_, .take hw hqueue⟩
    | taken other => exact htaken w other hw
    | started job make response reply => exact exists_step_started hs hw
  · exact htaken w work hw

/-- A task with a result is done or something goes on. -/
theorem done_or_step [Nonempty W] (hs : Invariant pools plan s)
    (hstart : ∀ h req, Asks pools plan h req → ∃ out, pools.start req = some out) {h : ℕ}
    {res : Res} (hvalue : Value pools plan h res) :
    s.tasks h = .done res ∨ ∃ s', Step pools plan s s' := by
  induction hvalue with
  | @mk h task results req job make htask hlength hneeds hreq hjob ih =>
      have hvalue : Value pools plan h _ := .mk htask hlength hneeds hreq hjob
      cases hstate : s.tasks h with
      | done res => exact Or.inl (by rw [(hs.matched.done h res hstate).unique hvalue])
      | failed => exact absurd hvalue (hs.matched.failed h hstate _)
      | waiting ch =>
          right
          rcases hs.held.response h ch hstate with ⟨res, hres⟩ | ⟨work, hwork, -⟩ |
            ⟨w, job, make, reply, hw⟩
          · exact ⟨_, .receive hstate hres⟩
          · refine exists_step_inFlight hs.held (fun work hwork => ?_) hwork
            obtain ⟨h', hasks⟩ := (hs.matched.request work hwork).2.1
            exact hstart h' work.msg hasks
          · exact exists_step_started hs.held hw
      | spawned =>
          right
          by_contra hnone
          apply hnone
          refine ⟨_, .ask htask hstate ?_ hreq⟩
          apply List.ext_getElem?
          intro i
          rw [List.getElem?_map, List.getElem?_map]
          cases hneed : task.needs[i]? with
          | none =>
              rw [List.getElem?_eq_none_iff, hlength, ← List.getElem?_eq_none_iff] at hneed
              rw [hneed]
              rfl
          | some h' =>
              have hlt := hlength ▸ (List.getElem?_eq_some_iff.mp hneed).1
              have hget := List.getElem?_eq_getElem hlt
              rw [hget, Option.map_some, Option.map_some]
              exact congrArg some ((ih i h' _ hneed hget).resolve_right hnone)

/-- **Tasks with results get done**, from every state of every run, if no worker fails. -/
theorem exists_steps_done [Fintype W] [Fintype V] [Nonempty W] (hs : Invariant pools plan s)
    (hstart : ∀ h req, Asks pools plan h req → ∃ out, pools.start req = some out) :
    ∃ s', Steps pools plan s s' ∧ ∀ h res, Value pools plan h res → s'.tasks h = .done res := by
  induction hm : s.measure plan.length using Nat.strong_induction_on generalizing s with
  | _ m ih =>
      by_cases hdone : ∀ h res, Value pools plan h res → s.tasks h = .done res
      · exact ⟨s, .refl, hdone⟩
      · push Not at hdone
        obtain ⟨h, res, hvalue, hne⟩ := hdone
        obtain ⟨s₁, hstep⟩ := (done_or_step hs hstart hvalue).resolve_left hne
        obtain ⟨s₂, hsteps, hall⟩ := ih _ (hm ▸ hstep.measure_lt hs.askedOnce)
          (Steps.invariant (.single hstep) hs) rfl
        exact ⟨s₂, .head hstep hsteps, hall⟩

end Progress

end Pools

end NexusVm.Concurrent.Requests
