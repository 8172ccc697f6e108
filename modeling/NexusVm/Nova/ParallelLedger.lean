import NexusVm.Concurrent.Recorded
import NexusVm.Nova.ParallelOwn

/-!
# The ledger of the parallel fold

What happens at each inner task is noted: which child becomes ready, when its children are
counted, and when it is put in a ready queue.  The ledger relates these notes to the queues, to
the states of the tasks, and to what each thread has in hand.
-/

namespace NexusVm.Nova.ParallelTree

open Concurrent

/-- What a thread does at an inner task. -/
inductive Event
  /-- The child becomes ready. -/
  | ready (t : Thread) (c : ℕ)
  /-- One more child is counted. -/
  | counted (t : Thread)
  /-- The task is put in a ready queue. -/
  | enqueued (t : Thread)
deriving DecidableEq

/-- What has happened at each inner task. -/
abbrev History := ℕ → List Event

/-- The threads that have counted a child, in order. -/
def counters (events : List Event) : List Thread :=
  events.filterMap fun
    | .counted t => some t
    | _ => none

/-- The threads that have put the task in a queue, in order. -/
def enqueuers (events : List Event) : List Thread :=
  events.filterMap fun
    | .enqueued t => some t
    | _ => none

@[simp] theorem counters_append (l l' : List Event) :
    counters (l ++ l') = counters l ++ counters l' := List.filterMap_append

@[simp] theorem enqueuers_append (l l' : List Event) :
    enqueuers (l ++ l') = enqueuers l ++ enqueuers l' := List.filterMap_append

section Observe

variable {L P : Type} (leaves : List L) (numWorkers : ℕ) (t : Thread) (s s' : State L P)

def noteReady (c : ℕ) : List Event :=
  if (s.tasks c).state ≠ readyState leaves c ∧ (s'.tasks c).state = readyState leaves c then
    [.ready t c]
  else []

def noteCounted (p : ℕ) : List Event :=
  if (s.tasks p).state < (s'.tasks p).state ∧
      (s'.tasks p).state ≤ NodeState.waitingBothChildren then
    [.counted t]
  else []

def noteEnqueued (p : ℕ) : List Event :=
  if ∃ w < numWorkers, s'.readyQ w = s.readyQ w ++ [p] then [.enqueued t] else []

/-- The events of a step at a task. -/
def events (p : ℕ) : List Event :=
  noteReady leaves t s s' (TaskHeap.left p) ++ noteReady leaves t s s' (TaskHeap.right p) ++
    noteCounted t s s' p ++ noteEnqueued numWorkers t s s' p

/-- The events of a step are noted for each inner task. -/
def observe (h : History) : History := fun p =>
  if p < leaves.length - 1 then h p ++ events leaves numWorkers t s s' p else h p

end Observe

/-- Where a thread is with its task. -/
inductive Hand
  /-- Between two tasks, with at most one task in the ready queue. -/
  | free
  /-- As `free`, where the ready queue is empty, as it is in all other cases. -/
  | idle
  | task (i : ℕ)
  /-- The task is ready, and its parent is not told yet. -/
  | ready (c : ℕ)
  /-- The parent has not taken it as its first child. -/
  | told (c : ℕ)
  /-- The node has both children and is not in a queue yet. -/
  | owes (p : ℕ)
  /-- The root has been in a queue. -/
  | rooted
  /-- The next leaf of the producer. -/
  | cursor (k : ℕ)

/-- The child whose parent is to be told. -/
def Hand.child : Hand → Option ℕ
  | .ready c | .told c => some c
  | _ => none

/-- No child is to be reported and no node to be pushed. -/
def Hand.Settled : Hand → Prop
  | .ready _ | .told _ | .owes _ => False
  | _ => True

theorem Hand.Settled.child_eq_none {r : Hand} (h : r.Settled) : r.child = none := by
  cases r <;> first | rfl | exact h.elim

theorem Hand.Settled.ne_owes {r : Hand} (h : r.Settled) (p : ℕ) : r ≠ .owes p := by
  rintro rfl
  exact h

/-- Where a task is on its way through the queues. -/
inductive Place
  | source
  | queued (w : ℕ)
  | held (t : Thread)
  | spent

section Ledger

variable {L P : Type} (leaves : List L)

/-- Each task is in one place. -/
structure Tokens (s : State L P) (hand : Thread → Hand) (place : ℕ → Place) : Prop where
  readyQ : ∀ w i, i ∈ s.readyQ w → i < leaves.length - 1 ∧ place i = .queued w
  leafQ : ∀ w x, x ∈ s.leafQ w → leaves.length - 1 ≤ x.2 ∧ place x.2 = .queued w
  nodup : ∀ w, ((s.leafQ w).map Prod.snd).Nodup
  short : ∀ w, (s.readyQ w).length ≤ 1
  empty : ∀ w, hand (.worker w) ≠ .free → s.readyQ w = []
  held : ∀ t i, hand t = .task i → place i = .held t
  cursor : ∀ k, hand .producer = .cursor k → ∀ i, leaves.length - 1 ≤ i → k ≤ i →
    place i = .source

/-- The children that have been counted at each inner task, and what follows from them. -/
structure Tally (s : State L P) (h : History) (hand : Thread → Hand) (place : ℕ → Place)
    (arrived : ℕ → List (Thread × ℕ)) : Prop where
  counters : ∀ p < leaves.length - 1, counters (h p) = (arrived p).map Prod.fst
  length : ∀ p < leaves.length - 1, (arrived p).length = min (s.tasks p).state 2
  child : ∀ p, ∀ x ∈ arrived p, 0 < x.2 ∧ up x.2 = p ∧ .ready x.1 x.2 ∈ h p
  nodup : ∀ p, ((arrived p).map Prod.snd).Nodup
  tells : ∀ t c, (hand t).child = some c → 0 < c ∧ up c < leaves.length - 1 ∧
    .ready t c ∈ h (up c) ∧ place c = .spent ∧ ∀ x ∈ arrived (up c), x.2 ≠ c
  unique : ∀ t u c, (hand t).child = some c → (hand u).child = some c → t = u
  told : ∀ t c, hand t = .told c → arrived (up c) ≠ []
  seen : ∀ t c, .ready t c ∈ h (up c) →
    (∃ u, (hand u).child = some c) ∨ ∃ x ∈ arrived (up c), x.2 = c
  unready : ∀ t c, place c ≠ .spent → .ready t c ∉ h (up c)
  source : ∀ p < leaves.length - 1, enqueuers (h p) = [] → place p = .source
  started : ∀ p < leaves.length - 1, NodeState.processing ≤ (s.tasks p).state →
    enqueuers (h p) ≠ []
  owes : ∀ t p, hand t = .owes p → p < leaves.length - 1 ∧ enqueuers (h p) = [] ∧
    ∃ u, (arrived p).map Prod.fst = [u, t]
  enqueued : ∀ p < leaves.length - 1,
    (enqueuers (h p) = [] ∧ ((arrived p).length < 2 ∨ ∃ t, hand t = .owes p)) ∨
      ∃ u t, (arrived p).map Prod.fst = [u, t] ∧ enqueuers (h p) = [t]
  stop : s.stop = true → enqueuers (h 0) ≠ []
  rooted : ∀ t, hand t = .rooted → enqueuers (h 0) ≠ []

/-- The ledger of a state with its history. -/
def Ledger (x : State L P × History) (hand : Thread → Hand) : Prop :=
  ∃ place arrived, Tokens leaves x.1 hand place ∧ Tally leaves x.1 x.2 hand place arrived

/-- Neither the queues nor a count of children change, and no child becomes ready. -/
structure Neutral (s s' : State L P) : Prop where
  readyQ : s'.readyQ = s.readyQ
  leafQ : s'.leafQ = s.leafQ
  stop : s'.stop = s.stop
  ready : ∀ c, 0 < c → (s'.tasks c).state = readyState leaves c →
    (s.tasks c).state = readyState leaves c
  count : ∀ p < leaves.length - 1, min (s'.tasks p).state 2 = min (s.tasks p).state 2

variable {leaves} {numWorkers : ℕ} {t : Thread} {s s' : State L P} {h : History}
  {hand : Thread → Hand} {place : ℕ → Place} {arrived : ℕ → List (Thread × ℕ)}

theorem noteReady_eq_nil {c : ℕ} (h : (s'.tasks c).state = readyState leaves c →
    (s.tasks c).state = readyState leaves c) : noteReady leaves t s s' c = [] :=
  if_neg fun hready => hready.1 (h hready.2)

variable {p : ℕ}

theorem noteCounted_eq_nil (h : min (s'.tasks p).state 2 = min (s.tasks p).state 2) :
    noteCounted t s s' p = [] := by
  refine if_neg fun hcounted => ?_
  have htwo : NodeState.waitingBothChildren = 2 := rfl
  omega

theorem noteEnqueued_eq_nil (h : ∀ w, s'.readyQ w ≠ s.readyQ w ++ [p]) :
    noteEnqueued numWorkers t s s' p = [] :=
  if_neg fun ⟨w, _, hw⟩ => h w hw

/-- A queue that does not get longer. -/
theorem ne_append_of_length_le {l l' : List ℕ} (h : l'.length ≤ l.length) :
    l' ≠ l ++ [p] := by
  rintro rfl
  rw [List.length_append, List.length_singleton] at h
  omega

theorem observe_of_neutral (hneutral : Neutral leaves s s') :
    observe leaves numWorkers t s s' h = h := by
  ext1 p
  unfold observe
  split_ifs with hp
  · have hevents : events leaves numWorkers t s s' p = [] := by
      rw [events, noteReady_eq_nil (hneutral.ready (TaskHeap.left p) (Nat.succ_pos _)),
        noteReady_eq_nil (hneutral.ready (TaskHeap.right p) (Nat.succ_pos _)),
        noteCounted_eq_nil (hneutral.count p hp),
        noteEnqueued_eq_nil fun w => ne_append_of_length_le (by rw [hneutral.readyQ])]
      rfl
    rw [hevents, List.append_nil]
  · rfl

theorem observe_self : observe leaves numWorkers t s s h = h :=
  observe_of_neutral ⟨rfl, rfl, rfl, fun _ _ hc => hc, fun _ _ => rfl⟩

theorem Tokens.congr (hT : Tokens leaves s hand place) (hready : s'.readyQ = s.readyQ)
    (hleaf : s'.leafQ = s.leafQ) : Tokens leaves s' hand place where
  readyQ w i hi := hT.readyQ w i (by rwa [hready] at hi)
  leafQ w x hx := hT.leafQ w x (by rwa [hleaf] at hx)
  nodup w := by
    rw [hleaf]
    exact hT.nodup w
  short w := by
    rw [hready]
    exact hT.short w
  empty w hw := by
    rw [hready]
    exact hT.empty w hw
  held := hT.held
  cursor := hT.cursor

theorem Tally.congr (hA : Tally leaves s h hand place arrived) (hstop : s'.stop = s.stop)
    (hcount : ∀ p < leaves.length - 1, min (s'.tasks p).state 2 = min (s.tasks p).state 2)
    (hstarted : ∀ p < leaves.length - 1, NodeState.processing ≤ (s'.tasks p).state →
      enqueuers (h p) ≠ []) : Tally leaves s' h hand place arrived :=
  { hA with
    length := fun p hp => by rw [hcount p hp, hA.length p hp]
    started := hstarted
    stop := fun hs => hA.stop (by rwa [hstop] at hs) }

/-- A node that has been enqueued has both children. -/
theorem Tally.two_le_of_enqueued (hA : Tally leaves s h hand place arrived)
    (hp : p < leaves.length - 1) (hq : enqueuers (h p) ≠ []) : 2 ≤ (s.tasks p).state := by
  rcases hA.enqueued p hp with ⟨hnil, -⟩ | ⟨u, t, harrived, -⟩
  · exact absurd hnil hq
  · have hlen := congrArg List.length harrived
    rw [List.length_map, hA.length p hp] at hlen
    have htwo : [u, t].length = 2 := rfl
    omega

/-- **A step that the ledger does not notice**, apart from a node whose processing starts. -/
theorem Ledger.neutral (hL : Ledger leaves (s, h) hand) (hneutral : Neutral leaves s s')
    (hstarted : ∀ p < leaves.length - 1, NodeState.processing ≤ (s'.tasks p).state →
      NodeState.processing ≤ (s.tasks p).state ∨ enqueuers (h p) ≠ []) :
    Ledger leaves (s', observe leaves numWorkers t s s' h) hand := by
  obtain ⟨place, arrived, hT, hA⟩ := hL
  rw [observe_of_neutral hneutral]
  refine ⟨place, arrived, hT.congr hneutral.readyQ hneutral.leafQ,
    hA.congr hneutral.stop hneutral.count fun p hp hs => ?_⟩
  rcases hstarted p hp hs with hbefore | hq
  · exact hA.started p hp hbefore
  · exact hq

end Ledger

/-! ## Hands and places and queues -/

section Hands

variable {L P : Type} {leaves : List L} {numWorkers : ℕ} {t : Thread} {s s' : State L P}
  {h : History} {hand : Thread → Hand} {place : ℕ → Place} {arrived : ℕ → List (Thread × ℕ)}
  {r : Hand}

theorem Tokens.setHand (hT : Tokens leaves s hand place)
    (hempty : ∀ w, t = .worker w → r ≠ .free → s.readyQ w = [])
    (hheld : ∀ i, r = .task i → place i = .held t)
    (hcursor : ∀ k, r = .cursor k → t = .producer → ∀ i, leaves.length - 1 ≤ i → k ≤ i →
      place i = .source) : Tokens leaves s (Function.update hand t r) place := by
  refine { hT with empty := ?_, held := ?_, cursor := ?_ }
  · intro w hw
    by_cases ht : .worker w = t
    · rw [ht, Function.update_self] at hw
      exact hempty w ht.symm hw
    · rw [Function.update_of_ne ht] at hw
      exact hT.empty w hw
  · intro u i hu
    by_cases ht : u = t
    · rw [ht, Function.update_self] at hu
      rw [ht]
      exact hheld i hu
    · rw [Function.update_of_ne ht] at hu
      exact hT.held u i hu
  · intro k hk
    by_cases ht : .producer = t
    · rw [ht, Function.update_self] at hk
      exact hcursor k hk ht.symm
    · rw [Function.update_of_ne ht] at hk
      exact hT.cursor k hk

/-- A hand changes that reports the same child. -/
theorem Tally.setHand (hA : Tally leaves s h hand place arrived) (hchild : r.child = (hand t).child)
    (howes : ∀ p, r = .owes p ↔ hand t = .owes p) (htold : ∀ c, r = .told c → arrived (up c) ≠ [])
    (hroot : r = .rooted → enqueuers (h 0) ≠ []) :
    Tally leaves s h (Function.update hand t r) place arrived := by
  have hchild' : ∀ u, (Function.update hand t r u).child = (hand u).child := by
    intro u
    by_cases hu : u = t
    · rw [hu, Function.update_self, hchild]
    · rw [Function.update_of_ne hu]
  have howes' : ∀ u p, Function.update hand t r u = .owes p ↔ hand u = .owes p := by
    intro u p
    by_cases hu : u = t
    · rw [hu, Function.update_self]
      exact howes p
    · rw [Function.update_of_ne hu]
  refine { hA with tells := ?_, unique := ?_, told := ?_, seen := ?_, owes := ?_, enqueued := ?_,
                   rooted := ?_ }
  · intro u c hu
    exact hA.tells u c (by rwa [hchild'] at hu)
  · intro u v c hu hv
    exact hA.unique u v c (by rwa [hchild'] at hu) (by rwa [hchild'] at hv)
  · intro u c hu
    by_cases ht : u = t
    · rw [ht, Function.update_self] at hu
      exact htold c hu
    · rw [Function.update_of_ne ht] at hu
      exact hA.told u c hu
  · intro u c hc
    simp only [hchild']
    exact hA.seen u c hc
  · intro u p hu
    exact hA.owes u p ((howes' u p).mp hu)
  · intro p hp
    simp only [howes']
    exact hA.enqueued p hp
  · intro u hu
    by_cases ht : u = t
    · rw [ht, Function.update_self] at hu
      exact hroot hu
    · rw [Function.update_of_ne ht] at hu
      exact hA.rooted u hu

/-- A hand that is settled changes to another one. -/
theorem Tally.settle (hA : Tally leaves s h hand place arrived) (hold : (hand t).Settled)
    (hnew : r.Settled) (hroot : r = .rooted → enqueuers (h 0) ≠ []) :
    Tally leaves s h (Function.update hand t r) place arrived := by
  refine hA.setHand ?_ ?_ ?_ hroot
  · rw [hnew.child_eq_none, hold.child_eq_none]
  · exact fun p => iff_of_false (hnew.ne_owes p) (hold.ne_owes p)
  · rintro c rfl
    exact hnew.elim

/-- A task that is not spent moves. -/
theorem Tally.setPlace (hA : Tally leaves s h hand place arrived) {i : ℕ} {x : Place}
    (hold : place i ≠ .spent)
    (hsource : i < leaves.length - 1 → enqueuers (h i) = [] → x = .source) :
    Tally leaves s h hand (Function.update place i x) arrived := by
  refine { hA with tells := ?_, unready := ?_, source := ?_ }
  · intro u c hu
    obtain ⟨hc, hup, hready, hspent, harrived⟩ := hA.tells u c hu
    have hci : c ≠ i := by
      rintro rfl
      exact hold hspent
    exact ⟨hc, hup, hready, by rw [Function.update_of_ne hci, hspent], harrived⟩
  · intro u c hc
    by_cases hci : c = i
    · rw [hci]
      exact hA.unready u i hold
    · rw [Function.update_of_ne hci] at hc
      exact hA.unready u c hc
  · intro p hp hq
    by_cases hpi : p = i
    · rw [hpi, Function.update_self]
      rw [hpi] at hp hq
      exact hsource hp hq
    · rw [Function.update_of_ne hpi]
      exact hA.source p hp hq

/-- A hand that is settled changes while the ledger does not notice the step. -/
theorem Ledger.setHand (hL : Ledger leaves (s, h) hand) (hold : (hand t).Settled)
    (hnew : r.Settled) (hroot : r = .rooted → enqueuers (h 0) ≠ [])
    (hempty : ∀ w, t = .worker w → r ≠ .free → s.readyQ w = []) (htask : ∀ i, r ≠ .task i)
    (hcursor : ∀ k, r ≠ .cursor k) : Ledger leaves (s, h) (Function.update hand t r) := by
  obtain ⟨place, arrived, hT, hA⟩ := hL
  exact ⟨place, arrived, hT.setHand hempty (fun i hi => absurd hi (htask i))
    fun k hk => absurd hk (hcursor k), hA.settle hold hnew hroot⟩

theorem setReadyQ_ne_append {w w' p : ℕ} {q : List ℕ} (hq : q ≠ s.readyQ w ++ [p]) :
    Function.update s.readyQ w q w' ≠ s.readyQ w' ++ [p] := by
  by_cases hw : w' = w
  · rw [hw, Function.update_self]
    exact hq
  · rw [Function.update_of_ne hw]
    exact ne_append_of_length_le le_rfl

/-- Where no task changes, only pushes are noted. -/
theorem events_of_tasks (htasks : s'.tasks = s.tasks) (p : ℕ) :
    events leaves numWorkers t s s' p = noteEnqueued numWorkers t s s' p := by
  rw [events, noteReady_eq_nil (by rw [htasks]; exact id),
    noteReady_eq_nil (by rw [htasks]; exact id), noteCounted_eq_nil (by rw [htasks])]
  rfl

/-- A step that only takes something out of the queues. -/
theorem observe_of_tasks (htasks : s'.tasks = s.tasks)
    (hq : ∀ w p, s'.readyQ w ≠ s.readyQ w ++ [p]) : observe leaves numWorkers t s s' h = h := by
  ext1 p
  unfold observe
  split_ifs with hp
  · rw [events_of_tasks htasks, noteEnqueued_eq_nil fun w => hq w p, List.append_nil]
  · rfl

variable {w i : ℕ}

/-- A worker takes a task out of its queue. -/
theorem Tokens.take (hT : Tokens leaves s hand place) (hplace : place i = .queued w)
    (hready : ∀ v j, j ∈ s'.readyQ v → j ∈ s.readyQ v ∧ j ≠ i)
    (hleaf : ∀ v x, x ∈ s'.leafQ v → x ∈ s.leafQ v ∧ x.2 ≠ i)
    (hsub : ∀ v, (s'.leafQ v).Sublist (s.leafQ v))
    (hlen : ∀ v, (s'.readyQ v).length ≤ (s.readyQ v).length) (hempty : s'.readyQ w = []) :
    Tokens leaves s' (Function.update hand (.worker w) (.task i))
      (Function.update place i (.held (.worker w))) := by
  constructor
  · intro v j hj
    obtain ⟨hj, hji⟩ := hready v j hj
    rw [Function.update_of_ne hji]
    exact hT.readyQ v j hj
  · intro v x hx
    obtain ⟨hx, hxi⟩ := hleaf v x hx
    rw [Function.update_of_ne hxi]
    exact hT.leafQ v x hx
  · exact fun v => (hT.nodup v).sublist ((hsub v).map Prod.snd)
  · exact fun v => (hlen v).trans (hT.short v)
  · intro v hv
    by_cases hw : v = w
    · rw [hw, hempty]
    · rw [Function.update_of_ne (by rintro ⟨⟩; exact hw rfl)] at hv
      have hnil := hlen v
      rw [hT.empty v hv] at hnil
      exact List.eq_nil_of_length_eq_zero (Nat.le_zero.mp hnil)
  · intro t j hj
    by_cases ht : t = .worker w
    · rw [ht, Function.update_self] at hj
      rw [← Hand.task.inj hj, Function.update_self, ht]
    · rw [Function.update_of_ne ht] at hj
      have hheld := hT.held t j hj
      have hji : j ≠ i := by
        rintro rfl
        rw [hplace] at hheld
        cases hheld
      rw [Function.update_of_ne hji, hheld]
  · intro k hk j hle hkj
    rw [Function.update_of_ne (by nofun)] at hk
    have hsource := hT.cursor k hk j hle hkj
    have hji : j ≠ i := by
      rintro rfl
      rw [hplace] at hsource
      cases hsource
    rw [Function.update_of_ne hji, hsource]

/-- The task that is taken is not spent, and a node has been put in the queue. -/
theorem Tally.take (hA : Tally leaves s h hand place arrived) (hplace : place i = .queued w)
    (hold : (hand (.worker w)).Settled) :
    Tally leaves s h (Function.update hand (.worker w) (.task i))
      (Function.update place i (.held (.worker w))) arrived := by
  have hspent : place i ≠ .spent := by
    rw [hplace]
    nofun
  refine (hA.setPlace hspent fun hi hq => ?_).settle hold trivial nofun
  rw [hA.source i hi hq] at hplace
  cases hplace

/-- The task that a worker pops from its ready queue. -/
theorem Ledger.popReady {rest : List ℕ} (hL : Ledger leaves (s, h) hand)
    (hold : (hand (.worker w)).Settled) (hpop : s.readyQ w = i :: rest) :
    i < leaves.length - 1 ∧
    Ledger leaves ({ s with readyQ := Function.update s.readyQ w rest }, h)
      (Function.update hand (.worker w) (.task i)) := by
  obtain ⟨place, arrived, hT, hA⟩ := hL
  obtain ⟨hi, hplace⟩ := hT.readyQ w i (by rw [hpop]; exact List.mem_cons_self)
  obtain rfl : rest = [] := by
    have hshort := hT.short w
    rw [hpop, List.length_cons] at hshort
    exact List.eq_nil_of_length_eq_zero (by omega)
  have hself : Function.update s.readyQ w [] w = [] := Function.update_self w [] s.readyQ
  have hother : ∀ v, v ≠ w → Function.update s.readyQ w [] v = s.readyQ v :=
    fun v hv => Function.update_of_ne hv [] s.readyQ
  refine ⟨hi, _, arrived, hT.take hplace ?_ ?_ (fun _ => List.Sublist.refl _) ?_ hself,
    (hA.take hplace hold).congr rfl (fun _ _ => rfl) hA.started⟩
  · intro v j hj
    replace hj : j ∈ Function.update s.readyQ w [] v := hj
    have hv : v ≠ w := by
      rintro rfl
      rw [hself] at hj
      cases hj
    rw [hother v hv] at hj
    refine ⟨hj, ?_⟩
    rintro rfl
    rw [(hT.readyQ v j hj).2] at hplace
    exact hv (Place.queued.inj hplace)
  · intro v x hx
    have hle := (hT.leafQ v x hx).1
    exact ⟨hx, by omega⟩
  · intro v
    show (Function.update s.readyQ w [] v).length ≤ _
    by_cases hv : v = w
    · rw [hv, hself]
      exact Nat.zero_le _
    · rw [hother v hv]

/-- The leaf that a worker pops from its queue. -/
theorem Ledger.popLeaf {w : ℕ} {x : L × ℕ} {rest : List (L × ℕ)} (hL : Ledger leaves (s, h) hand)
    (hold : hand (.worker w) = .idle) (hpop : s.leafQ w = x :: rest) :
    Ledger leaves ({ s with leafQ := Function.update s.leafQ w rest }, h)
      (Function.update hand (.worker w) (.task x.2)) := by
  obtain ⟨place, arrived, hT, hA⟩ := hL
  obtain ⟨hle, hplace⟩ := hT.leafQ w x (by rw [hpop]; exact List.mem_cons_self)
  have hnodup := hT.nodup w
  rw [hpop, List.map_cons, List.nodup_cons] at hnodup
  have hself : Function.update s.leafQ w rest w = rest := Function.update_self w rest s.leafQ
  have hother : ∀ v, v ≠ w → Function.update s.leafQ w rest v = s.leafQ v :=
    fun v hv => Function.update_of_ne hv rest s.leafQ
  refine ⟨_, arrived, hT.take hplace ?_ ?_ ?_ (fun _ => le_rfl)
    (hT.empty w (by rw [hold]; nofun)),
    (hA.take hplace (by rw [hold]; trivial)).congr rfl (fun _ _ => rfl) hA.started⟩
  · intro v j hj
    have hlt := (hT.readyQ v j hj).1
    exact ⟨hj, by omega⟩
  · intro v y hy
    replace hy : y ∈ Function.update s.leafQ w rest v := hy
    by_cases hv : v = w
    · subst hv
      rw [hself] at hy
      refine ⟨by rw [hpop]; exact List.mem_cons_of_mem x hy, ?_⟩
      intro hyx
      exact hnodup.1 (hyx ▸ List.mem_map_of_mem hy)
    · rw [hother v hv] at hy
      refine ⟨hy, ?_⟩
      intro hyx
      rw [← hyx, (hT.leafQ v y hy).2] at hplace
      exact hv (Place.queued.inj hplace)
  · intro v
    show (Function.update s.leafQ w rest v).Sublist (s.leafQ v)
    by_cases hv : v = w
    · rw [hv, hself, hpop]
      exact List.sublist_cons_self x rest
    · rw [hother v hv]

/-- The producer pushes its next leaf. -/
theorem Ledger.pushLeaf {w k : ℕ} {l : L} (hL : Ledger leaves (s, h) hand)
    (hcursor : hand .producer = .cursor k) (hle : leaves.length - 1 ≤ k) :
    Ledger leaves ({ s with leafQ := Function.update s.leafQ w (s.leafQ w ++ [(l, k)]) }, h)
      (Function.update hand .producer (.cursor (k + 1))) := by
  obtain ⟨place, arrived, hT, hA⟩ := hL
  have hsource : place k = .source := hT.cursor k hcursor k hle le_rfl
  have hmoved : ∀ j, place j ≠ .source → Function.update place k (.queued w) j = place j := by
    intro j hj
    exact Function.update_of_ne (fun hjk => hj (by rw [hjk, hsource])) _ place
  have hself : Function.update s.leafQ w (s.leafQ w ++ [(l, k)]) w = s.leafQ w ++ [(l, k)] :=
    Function.update_self _ _ _
  have hother : ∀ v, v ≠ w →
      Function.update s.leafQ w (s.leafQ w ++ [(l, k)]) v = s.leafQ v :=
    fun v hv => Function.update_of_ne hv _ _
  have hspent : place k ≠ .spent := by
    rw [hsource]
    nofun
  have hA' := (hA.setPlace (x := .queued w) hspent fun hlt => absurd hlt (by omega)).settle
    (t := .producer) (r := .cursor (k + 1)) (by rw [hcursor]; trivial) trivial nofun
  refine ⟨_, arrived, ?_, hA'.congr rfl (fun _ _ => rfl) hA.started⟩
  constructor
  · intro v j hj
    obtain ⟨hlt, hq⟩ := hT.readyQ v j hj
    exact ⟨hlt, by rw [hmoved j (by rw [hq]; nofun), hq]⟩
  · intro v x hx
    replace hx : x ∈ Function.update s.leafQ w (s.leafQ w ++ [(l, k)]) v := hx
    have hold : x ∈ s.leafQ v → leaves.length - 1 ≤ x.2 ∧
        Function.update place k (.queued w) x.2 = .queued v := by
      intro hx
      obtain ⟨hle, hq⟩ := hT.leafQ v x hx
      exact ⟨hle, by rw [hmoved x.2 (by rw [hq]; nofun), hq]⟩
    by_cases hv : v = w
    · rw [hv, hself, List.mem_append, List.mem_singleton] at hx
      rcases hx with hx | rfl
      · exact hold (hv ▸ hx)
      · exact ⟨hle, by rw [Function.update_self, hv]⟩
    · rw [hother v hv] at hx
      exact hold hx
  · intro v
    show ((Function.update s.leafQ w (s.leafQ w ++ [(l, k)]) v).map Prod.snd).Nodup
    by_cases hv : v = w
    · rw [hv, hself, List.map_append, List.nodup_append]
      refine ⟨hT.nodup w, List.nodup_singleton k, ?_⟩
      rintro i hi j hj rfl
      obtain ⟨x, hx, rfl⟩ := List.mem_map.mp hi
      rw [List.map_singleton, List.mem_singleton] at hj
      have hq := (hT.leafQ w x hx).2
      rw [hj, hsource] at hq
      cases hq
    · rw [hother v hv]
      exact hT.nodup v
  · exact hT.short
  · intro v hv
    exact hT.empty v hv
  · intro t i hi
    by_cases ht : t = .producer
    · rw [ht, Function.update_self] at hi
      cases hi
    · rw [Function.update_of_ne ht] at hi
      have hheld := hT.held t i hi
      rw [hmoved i (by rw [hheld]; nofun), hheld]
  · intro m hm i hi hmi
    rw [Function.update_self] at hm
    obtain rfl := Hand.cursor.inj hm
    rw [Function.update_of_ne (by omega)]
    exact hT.cursor k hcursor i hi (by omega)

/-! ## One more event and the push -/

/-- The history after an event at a task. -/
def History.add (h : History) (p : ℕ) (e : Event) : History :=
  Function.update h p (h p ++ [e])

theorem History.add_self (h : History) (p : ℕ) (e : Event) : h.add p e p = h p ++ [e] :=
  Function.update_self _ _ _

theorem History.add_of_ne (h : History) {p q : ℕ} (hq : q ≠ p) (e : Event) : h.add p e q = h q :=
  Function.update_of_ne hq _ _

theorem mem_add {p q : ℕ} {e e' : Event} : e' ∈ h.add p e q ↔ e' ∈ h q ∨ (q = p ∧ e' = e) := by
  by_cases hq : q = p
  · rw [hq, History.add_self, List.mem_append, List.mem_singleton, and_iff_right rfl]
  · rw [History.add_of_ne h hq, or_iff_left fun hp => hq hp.1]

variable {e : Event} {p : ℕ}

theorem enqueuers_add (he : ∀ t, e ≠ .enqueued t) (q : ℕ) :
    enqueuers (h.add p e q) = enqueuers (h q) := by
  by_cases hq : q = p
  · rw [hq, History.add_self, enqueuers_append]
    cases e with
    | enqueued t => exact absurd rfl (he t)
    | ready t c => exact List.append_nil _
    | counted t => exact List.append_nil _
  · rw [History.add_of_ne h hq]

theorem counters_add (he : ∀ t, e ≠ .counted t) (q : ℕ) :
    counters (h.add p e q) = counters (h q) := by
  by_cases hq : q = p
  · rw [hq, History.add_self, counters_append]
    cases e with
    | counted t => exact absurd rfl (he t)
    | ready t c => exact List.append_nil _
    | enqueued t => exact List.append_nil _
  · rw [History.add_of_ne h hq]

/-- A step with one event. -/
theorem observe_eq_add (hp : p < leaves.length - 1) (he : events leaves numWorkers t s s' p = [e])
    (hne : ∀ q < leaves.length - 1, q ≠ p → events leaves numWorkers t s s' q = []) :
    observe leaves numWorkers t s s' h = h.add p e := by
  ext1 q
  unfold observe
  by_cases hq : q = p
  · rw [hq, if_pos hp, he, History.add_self]
  · rw [History.add_of_ne h hq]
    split_ifs with hlt
    · rw [hne q hlt hq, List.append_nil]
    · rfl

variable {w p : ℕ}

theorem observe_pushReady (hp : p < leaves.length - 1) (hw : w < numWorkers)
    (hnil : s.readyQ w = []) (htasks : s'.tasks = s.tasks)
    (hqueue : s'.readyQ = Function.update s.readyQ w [p]) :
    observe leaves numWorkers t s s' h = h.add p (.enqueued t) := by
  apply observe_eq_add hp
  · rw [events_of_tasks htasks]
    apply if_pos
    exact ⟨w, hw, by rw [hqueue, Function.update_self, hnil]; rfl⟩
  · intro q _ hq
    rw [events_of_tasks htasks]
    apply noteEnqueued_eq_nil
    intro v
    rw [hqueue]
    apply setReadyQ_ne_append
    rw [hnil, List.nil_append]
    intro hpq
    exact hq (List.singleton_inj.mp hpq).symm

theorem Tokens.pushReady (hT : Tokens leaves s hand place) (hp : p < leaves.length - 1)
    (hsource : place p = .source) :
    Tokens leaves { s with readyQ := Function.update s.readyQ w [p] }
      (Function.update hand (.worker w) .free) (Function.update place p (.queued w)) := by
  have hself : Function.update s.readyQ w [p] w = [p] := Function.update_self w [p] s.readyQ
  have hother : ∀ v, v ≠ w → Function.update s.readyQ w [p] v = s.readyQ v :=
    fun v hv => Function.update_of_ne hv [p] s.readyQ
  have hmoved : ∀ j, place j ≠ .source → Function.update place p (.queued w) j = place j := by
    intro j hj
    exact Function.update_of_ne (fun hjp => hj (by rw [hjp, hsource])) _ place
  constructor
  · intro v j hj
    replace hj : j ∈ Function.update s.readyQ w [p] v := hj
    by_cases hv : v = w
    · rw [hv, hself, List.mem_singleton] at hj
      rw [hj, hv, Function.update_self]
      exact ⟨hp, rfl⟩
    · rw [hother v hv] at hj
      obtain ⟨hlt, hqueued⟩ := hT.readyQ v j hj
      exact ⟨hlt, by rw [hmoved j (by rw [hqueued]; nofun), hqueued]⟩
  · intro v x hx
    obtain ⟨hle, hqueued⟩ := hT.leafQ v x hx
    exact ⟨hle, by rw [hmoved x.2 (by rw [hqueued]; nofun), hqueued]⟩
  · exact hT.nodup
  · intro v
    show (Function.update s.readyQ w [p] v).length ≤ 1
    by_cases hv : v = w
    · rw [hv, hself]
      exact le_rfl
    · rw [hother v hv]
      exact hT.short v
  · intro v hv
    show Function.update s.readyQ w [p] v = []
    by_cases hvw : v = w
    · rw [hvw, Function.update_self] at hv
      exact absurd rfl hv
    · rw [hother v hvw]
      rw [Function.update_of_ne (by rintro ⟨⟩; exact hvw rfl)] at hv
      exact hT.empty v hv
  · intro t i hi
    by_cases ht : t = .worker w
    · rw [ht, Function.update_self] at hi
      cases hi
    · rw [Function.update_of_ne ht] at hi
      have hheld := hT.held t i hi
      rw [hmoved i (by rw [hheld]; nofun), hheld]
  · intro k hk i hi hki
    rw [Function.update_of_ne (by nofun)] at hk
    rw [Function.update_of_ne (by omega)]
    exact hT.cursor k hk i hi hki

theorem Tally.pushReady {x : Place} (hA : Tally leaves s h hand place arrived)
    (howes : hand t = .owes p) :
    Tally leaves s (h.add p (.enqueued t)) (Function.update hand t .free)
      (Function.update place p x) arrived := by
  obtain ⟨hp, hq, u, hcounters⟩ := hA.owes t p howes
  have hsource := hA.source p hp hq
  have hself : enqueuers (h.add p (.enqueued t) p) = [t] := by
    rw [History.add_self, enqueuers_append, hq]
    rfl
  have hother : ∀ q, q ≠ p → enqueuers (h.add p (.enqueued t) q) = enqueuers (h q) :=
    fun q hqp => by rw [History.add_of_ne h hqp]
  have hgrows : ∀ q, enqueuers (h q) ≠ [] → enqueuers (h.add p (.enqueued t) q) ≠ [] := by
    intro q hne
    by_cases hqp : q = p
    · rw [hqp, hself]
      exact List.cons_ne_nil _ _
    · rwa [hother q hqp]
  have hready : ∀ v c q, Event.ready v c ∈ h.add p (.enqueued t) q ↔ Event.ready v c ∈ h q := by
    intro v c q
    rw [mem_add, or_iff_left]
    rintro ⟨-, ⟨⟩⟩
  have hchild : ∀ v, (Function.update hand t .free v).child = (hand v).child := by
    intro v
    by_cases hv : v = t
    · rw [hv, Function.update_self, howes]
      rfl
    · rw [Function.update_of_ne hv]
  have hhand : ∀ v, v = t ∧ Function.update hand t .free v = .free ∨
      v ≠ t ∧ Function.update hand t .free v = hand v := by
    intro v
    by_cases hv : v = t
    · exact Or.inl ⟨hv, by rw [hv, Function.update_self]⟩
    · exact Or.inr ⟨hv, Function.update_of_ne hv _ _⟩
  constructor
  · intro q hlt
    have hcounted : ∀ v, Event.enqueued t ≠ .counted v := nofun
    rw [counters_add hcounted]
    exact hA.counters q hlt
  · exact hA.length
  · intro q y hy
    rw [hready]
    exact hA.child q y hy
  · exact hA.nodup
  · intro v c hv
    rw [hchild] at hv
    obtain ⟨hc, hup, hmem, hspent, harrived⟩ := hA.tells v c hv
    have hcp : c ≠ p := by
      rintro rfl
      rw [hsource] at hspent
      cases hspent
    exact ⟨hc, hup, (hready v c _).mpr hmem, by rw [Function.update_of_ne hcp, hspent], harrived⟩
  · intro v v' c hv hv'
    rw [hchild] at hv hv'
    exact hA.unique v v' c hv hv'
  · intro v c hv
    rcases hhand v with ⟨-, hfree⟩ | ⟨-, hsame⟩
    · rw [hfree] at hv
      cases hv
    · exact hA.told v c (hsame ▸ hv)
  · intro v c hmem
    simp only [hchild]
    exact hA.seen v c ((hready v c _).mp hmem)
  · intro v c hspent
    rw [hready]
    by_cases hcp : c = p
    · rw [hcp]
      exact hA.unready v p (by rw [hsource]; nofun)
    · rw [Function.update_of_ne hcp] at hspent
      exact hA.unready v c hspent
  · intro q hlt hnil
    have hqp : q ≠ p := by
      rintro rfl
      rw [hself] at hnil
      cases hnil
    rw [hother q hqp] at hnil
    rw [Function.update_of_ne hqp]
    exact hA.source q hlt hnil
  · exact fun q hlt hs => hgrows q (hA.started q hlt hs)
  · intro v q hv
    rcases hhand v with ⟨-, hfree⟩ | ⟨hvt, hsame⟩
    · rw [hfree] at hv
      cases hv
    · rw [hsame] at hv
      obtain ⟨hlt, hnil, u', harrived⟩ := hA.owes v q hv
      have hqp : q ≠ p := by
        rintro rfl
        rw [hcounters] at harrived
        exact hvt (List.cons.inj (List.cons.inj harrived).2).1.symm
      exact ⟨hlt, by rw [hother q hqp, hnil], u', harrived⟩
  · intro q hlt
    by_cases hqp : q = p
    · rw [hqp]
      exact Or.inr ⟨u, t, hcounters, hself⟩
    · rw [hother q hqp]
      rcases hA.enqueued q hlt with ⟨hnil, hshort | ⟨v, hv⟩⟩ | hdone
      · exact Or.inl ⟨hnil, Or.inl hshort⟩
      · have hvt : v ≠ t := by
          rintro rfl
          rw [howes] at hv
          exact hqp (Hand.owes.inj hv).symm
        exact Or.inl ⟨hnil, Or.inr ⟨v, by rw [Function.update_of_ne hvt, hv]⟩⟩
      · exact Or.inr hdone
  · exact fun hs => hgrows 0 (hA.stop hs)
  · intro v hv
    rcases hhand v with ⟨-, hfree⟩ | ⟨-, hsame⟩
    · rw [hfree] at hv
      cases hv
    · exact hgrows 0 (hA.rooted v (hsame ▸ hv))

/-- **The worker of the second child pushes the node** to its queue, which is empty. -/
theorem Ledger.pushReady (hL : Ledger leaves (s, h) hand) (howes : hand (.worker w) = .owes p)
    (hw : w < numWorkers) :
    s.readyQ w = [] ∧
    Ledger leaves ({ s with readyQ := Function.update s.readyQ w [p] },
      observe leaves numWorkers (.worker w) s
        { s with readyQ := Function.update s.readyQ w [p] } h)
      (Function.update hand (.worker w) .free) := by
  obtain ⟨place, arrived, hT, hA⟩ := hL
  have hnil : s.readyQ w = [] := hT.empty w (by rw [howes]; nofun)
  obtain ⟨hp, hq, -⟩ := hA.owes _ p howes
  refine ⟨hnil, ?_⟩
  have hnote : observe leaves numWorkers (.worker w) s
      { s with readyQ := Function.update s.readyQ w [p] } h = h.add p (.enqueued (.worker w)) :=
    observe_pushReady hp hw hnil rfl rfl
  rw [hnote]
  have hA' := hA.pushReady (x := .queued w) howes
  exact ⟨_, arrived, hT.pushReady hp (hA.source p hp hq),
    hA'.congr rfl (fun _ _ => rfl) hA'.started⟩

/-! ## A task becomes ready -/

/-- The children of a task are its left and its right one. -/
theorem up_eq_iff {c p : ℕ} (hc : 0 < c) :
    up c = p ↔ c = TaskHeap.left p ∨ c = TaskHeap.right p := by
  unfold up TaskHeap.left TaskHeap.right
  omega

theorem up_lt {c : ℕ} (hc : 0 < c) : up c < c := by
  unfold up
  omega

variable {task : Task} {i : ℕ}

theorem noteEnqueued_setTask (q : ℕ) :
    noteEnqueued numWorkers t s (s.setTask i task) q = [] := by
  apply noteEnqueued_eq_nil
  intro w
  exact ne_append_of_length_le le_rfl

/-- What is noted where only one task changes. -/
theorem events_setTask {q : ℕ} (hq : q ≠ i) (hup : 0 < i → q ≠ up i) :
    events leaves numWorkers t s (s.setTask i task) q = [] := by
  have hother : ∀ j, j ≠ i → (s.setTask i task).tasks j = s.tasks j :=
    fun j hj => s.setTask_of_ne hj task
  have hchild : ∀ c, 0 < c → up c = q → c ≠ i := by
    rintro c hc rfl rfl
    exact hup hc rfl
  have hleft : TaskHeap.left q ≠ i :=
    hchild _ (Nat.succ_pos _) ((up_eq_iff (Nat.succ_pos _)).mpr (Or.inl rfl))
  have hright : TaskHeap.right q ≠ i :=
    hchild _ (Nat.succ_pos _) ((up_eq_iff (Nat.succ_pos _)).mpr (Or.inr rfl))
  rw [events, noteReady_eq_nil (by rw [hother _ hleft]; exact id),
    noteReady_eq_nil (by rw [hother _ hright]; exact id),
    noteCounted_eq_nil (by rw [hother q hq]), noteEnqueued_setTask]
  rfl

theorem observe_ready (h0 : 0 < i) (hi : up i < leaves.length - 1)
    (hstate : (s.tasks i).state ≠ readyState leaves i)
    (hnode : i < leaves.length - 1 → (s.tasks i).state = NodeState.processing)
    (htask : task.state = readyState leaves i) :
    observe leaves numWorkers t s (s.setTask i task) h = h.add (up i) (.ready t i) := by
  have hself := s.setTask_self i task
  have hother : ∀ j, j ≠ i → (s.setTask i task).tasks j = s.tasks j :=
    fun j hj => s.setTask_of_ne hj task
  have hready : noteReady leaves t s (s.setTask i task) i = [.ready t i] :=
    if_pos ⟨hstate, by rw [hself, htask]⟩
  apply observe_eq_add hi
  · have hcount : noteCounted t s (s.setTask i task) (up i) = [] :=
      noteCounted_eq_nil (by rw [hother _ (up_lt h0).ne])
    rcases (up_eq_iff h0).mp rfl with hleft | hright
    · have hother' : noteReady leaves t s (s.setTask i task) (TaskHeap.right (up i)) = [] := by
        apply noteReady_eq_nil
        rw [hother _ (by unfold TaskHeap.left at hleft; unfold TaskHeap.right; omega)]
        exact id
      rw [events, ← hleft, hready, hother', hcount, noteEnqueued_setTask]
      rfl
    · have hother' : noteReady leaves t s (s.setTask i task) (TaskHeap.left (up i)) = [] := by
        apply noteReady_eq_nil
        rw [hother _ (by unfold TaskHeap.right at hright; unfold TaskHeap.left; omega)]
        exact id
      rw [events, ← hright, hready, hother', hcount, noteEnqueued_setTask]
      rfl
  · intro q hlt hq
    by_cases hqi : q = i
    · -- a node that becomes ready gets no child
      subst hqi
      have hchild : ∀ c, up c = q → 0 < c → noteReady leaves t s (s.setTask q task) c = [] := by
        rintro c rfl hc
        apply noteReady_eq_nil
        rw [hother c (up_lt hc).ne']
        exact id
      have hcount : noteCounted t s (s.setTask q task) q = [] := by
        apply noteCounted_eq_nil
        rw [hself, htask, hnode hlt, readyState, if_pos hlt]
        rfl
      rw [events, hchild (TaskHeap.left q) ((up_eq_iff (Nat.succ_pos _)).mpr (Or.inl rfl))
          (Nat.succ_pos _),
        hchild (TaskHeap.right q) ((up_eq_iff (Nat.succ_pos _)).mpr (Or.inr rfl)) (Nat.succ_pos _),
        hcount, noteEnqueued_setTask]
      rfl
    · exact events_setTask hqi fun _ => hq

theorem Tokens.ready (hT : Tokens leaves s hand place) (hhand : hand t = .task i) :
    Tokens leaves s (Function.update hand t (.ready i)) (Function.update place i .spent) := by
  have hheld := hT.held t i hhand
  have hmoved : ∀ j, place j ≠ .held t → Function.update place i .spent j = place j := by
    intro j hj
    exact Function.update_of_ne (fun hji => hj (by rw [hji, hheld])) _ place
  have hset := hT.setHand (t := t) (r := .ready i) (fun w hw _ => hT.empty w (by
    rw [← hw, hhand]
    nofun)) nofun nofun
  constructor
  · intro v j hj
    obtain ⟨hlt, hq⟩ := hT.readyQ v j hj
    exact ⟨hlt, by rw [hmoved j (by rw [hq]; nofun), hq]⟩
  · intro v x hx
    obtain ⟨hle, hq⟩ := hT.leafQ v x hx
    exact ⟨hle, by rw [hmoved x.2 (by rw [hq]; nofun), hq]⟩
  · exact hT.nodup
  · exact hT.short
  · exact hset.empty
  · intro u j hu
    by_cases ht : u = t
    · rw [ht, Function.update_self] at hu
      cases hu
    · have hj := hset.held u j hu
      rw [hmoved j (by rw [hj]; rintro ⟨⟩; exact ht rfl), hj]
  · intro k hk j hle hkj
    have hj := hset.cursor k hk j hle hkj
    rw [hmoved j (by rw [hj]; nofun), hj]

theorem Tally.ready (hA : Tally leaves s h hand place arrived) (hhand : hand t = .task i)
    (hplace : place i = .held t) (h0 : 0 < i) (hi : up i < leaves.length - 1) :
    Tally leaves s (h.add (up i) (.ready t i)) (Function.update hand t (.ready i))
      (Function.update place i .spent) arrived := by
  have hspent : place i ≠ .spent := by
    rw [hplace]
    nofun
  have hnot : ∀ v, Event.ready t i ≠ .enqueued v := nofun
  have henq : ∀ q, enqueuers (h.add (up i) (.ready t i) q) = enqueuers (h q) :=
    enqueuers_add hnot
  have hother : ∀ u, u ≠ t → Function.update hand t (.ready i) u = hand u :=
    fun u hu => Function.update_of_ne hu _ _
  have hself : Function.update hand t (.ready i) t = .ready i := Function.update_self _ _ _
  have hmem : ∀ {e : Event} {q : ℕ}, e ∈ h q → e ∈ h.add (up i) (.ready t i) q :=
    fun he => mem_add.mpr (Or.inl he)
  -- nobody else has this child in hand
  have hchild : ∀ u, (hand u).child ≠ some i :=
    fun u hu => hspent (hA.tells u i hu).2.2.2.1
  have howes : ∀ u p, Function.update hand t (.ready i) u = .owes p ↔ hand u = .owes p := by
    intro u p
    by_cases hu : u = t
    · rw [hu, hself, hhand]
      exact iff_of_false nofun nofun
    · rw [hother u hu]
  constructor
  · intro q hq
    have hcounted : ∀ v, Event.ready t i ≠ .counted v := nofun
    rw [counters_add hcounted]
    exact hA.counters q hq
  · exact hA.length
  · intro q y hy
    obtain ⟨hpos, hup, hready⟩ := hA.child q y hy
    exact ⟨hpos, hup, hmem hready⟩
  · exact hA.nodup
  · intro u c hu
    by_cases hut : u = t
    · rw [hut, hself] at hu
      obtain rfl := Option.some.inj hu
      rw [hut]
      refine ⟨h0, hi, mem_add.mpr (Or.inr ⟨rfl, rfl⟩), Function.update_self _ _ _, ?_⟩
      rintro y hy rfl
      exact hA.unready y.1 y.2 hspent (hA.child _ y hy).2.2
    · rw [hother u hut] at hu
      obtain ⟨hpos, hup, hready, hc, harrived⟩ := hA.tells u c hu
      have hci : c ≠ i := by
        rintro rfl
        exact hchild u hu
      exact ⟨hpos, hup, hmem hready, by rw [Function.update_of_ne hci, hc], harrived⟩
  · intro u v c hu hv
    by_cases hut : u = t
    · by_cases hvt : v = t
      · rw [hut, hvt]
      · rw [hut, hself] at hu
        rw [hother v hvt, ← hu] at hv
        exact absurd hv (hchild v)
    · by_cases hvt : v = t
      · rw [hvt, hself] at hv
        rw [hother u hut, ← hv] at hu
        exact absurd hu (hchild u)
      · exact hA.unique u v c (hother u hut ▸ hu) (hother v hvt ▸ hv)
  · intro u c hu
    by_cases hut : u = t
    · rw [hut, hself] at hu
      cases hu
    · exact hA.told u c (hother u hut ▸ hu)
  · intro u c hc
    rcases mem_add.mp hc with hold | ⟨-, hnew⟩
    · rcases hA.seen u c hold with ⟨v, hv⟩ | harrived
      · have hvt : v ≠ t := by
          rintro rfl
          rw [hhand] at hv
          cases hv
        exact Or.inl ⟨v, by rw [hother v hvt, hv]⟩
      · exact Or.inr harrived
    · obtain ⟨-, rfl⟩ := Event.ready.inj hnew
      exact Or.inl ⟨t, by rw [hself]; rfl⟩
  · intro u c hc hmem'
    have hci : c ≠ i := by
      rintro rfl
      exact hc (Function.update_self _ _ _)
    rw [Function.update_of_ne hci] at hc
    rcases mem_add.mp hmem' with hold | ⟨-, hnew⟩
    · exact hA.unready u c hc hold
    · exact hci (Event.ready.inj hnew).2
  · intro q hq hnil
    rw [henq] at hnil
    have hsource := hA.source q hq hnil
    have hqi : q ≠ i := by
      rintro rfl
      rw [hplace] at hsource
      cases hsource
    rw [Function.update_of_ne hqi, hsource]
  · intro q hq hs
    rw [henq]
    exact hA.started q hq hs
  · intro u q hu
    rw [henq]
    exact hA.owes u q ((howes u q).mp hu)
  · intro q hq
    simp only [henq, howes]
    exact hA.enqueued q hq
  · rw [henq]
    exact hA.stop
  · intro u hu
    by_cases hut : u = t
    · rw [hut, hself] at hu
      cases hu
    · rw [henq]
      exact hA.rooted u (hother u hut ▸ hu)

/-- **A task in hand becomes ready.** -/
theorem Ledger.ready (hL : Ledger leaves (s, h) hand) (hhand : hand t = .task i) (h0 : 0 < i)
    (hi : up i < leaves.length - 1) (hstate : (s.tasks i).state ≠ readyState leaves i)
    (hnode : i < leaves.length - 1 → (s.tasks i).state = NodeState.processing)
    (htask : task.state = readyState leaves i) :
    Ledger leaves (s.setTask i task, observe leaves numWorkers t s (s.setTask i task) h)
      (Function.update hand t (.ready i)) := by
  obtain ⟨place, arrived, hT, hA⟩ := hL
  rw [observe_ready h0 hi hstate hnode htask]
  have hA' := hA.ready hhand (hT.held t i hhand) h0 hi
  have hself := s.setTask_self i task
  have hother : ∀ j, j ≠ i → (s.setTask i task).tasks j = s.tasks j :=
    fun j hj => s.setTask_of_ne hj task
  refine ⟨_, arrived, (hT.ready hhand).congr rfl rfl, hA'.congr rfl ?_ ?_⟩
  · intro q hq
    by_cases hqi : q = i
    · subst hqi
      rw [hself, htask, hnode hq, readyState, if_pos hq]
      rfl
    · rw [hother q hqi]
  · intro q hq hs
    by_cases hqi : q = i
    · subst hqi
      exact hA'.started q hq (hnode hq).ge
    · rw [hother q hqi] at hs
      exact hA'.started q hq hs

/-! ## A child is counted -/

theorem observe_counted {p k : ℕ} (hp : p < leaves.length - 1) (hstate : (s.tasks p).state = k)
    (hk : k < 2) (htask : task.state = k + 1) :
    observe leaves numWorkers t s (s.setTask p task) h = h.add p (.counted t) := by
  have hself := s.setTask_self p task
  have hother : ∀ j, j ≠ p → (s.setTask p task).tasks j = s.tasks j :=
    fun j hj => s.setTask_of_ne hj task
  have hnode : readyState leaves p = 4 := if_pos hp
  -- a count is not the state of a ready node
  have hready : ∀ c, noteReady leaves t s (s.setTask p task) c = [] := by
    intro c
    apply noteReady_eq_nil
    by_cases hc : c = p
    · rw [hc, hself, htask, hnode]
      intro hfour
      omega
    · rw [hother c hc]
      exact id
  apply observe_eq_add hp
  · have hcounted : noteCounted t s (s.setTask p task) p = [.counted t] := by
      apply if_pos
      rw [hself, htask, hstate]
      exact ⟨Nat.lt_succ_self k, hk⟩
    rw [events, hready, hready, hcounted, noteEnqueued_setTask]
    rfl
  · intro q _ hq
    rw [events, hready, hready, noteCounted_eq_nil (by rw [hother q hq]), noteEnqueued_setTask]
    rfl

/-- What the worker has in hand after a child is counted. -/
def Hand.after (p : ℕ) : ℕ → Hand
  | 0 => .idle
  | _ => .owes p

theorem Tally.count {c k : ℕ} (hA : Tally leaves s h hand place arrived)
    (hchild : (hand t).child = some c) (hstate : (s.tasks (up c)).state = k) (hk : k < 2)
    (hcount : ∀ p < leaves.length - 1,
      min (s'.tasks p).state 2 = if p = up c then k + 1 else min (s.tasks p).state 2)
    (hstarted : ∀ p < leaves.length - 1, NodeState.processing ≤ (s'.tasks p).state →
      NodeState.processing ≤ (s.tasks p).state) (hstop : s'.stop = s.stop) :
    Tally leaves s' (h.add (up c) (.counted t)) (Function.update hand t (Hand.after (up c) k))
      place (Function.update arrived (up c) (arrived (up c) ++ [(t, c)])) := by
  obtain ⟨h0, hp, hready, hspent, hnew⟩ := hA.tells t c hchild
  have hlength : (arrived (up c)).length = k := by
    rw [hA.length _ hp, hstate]
    omega
  have hnil : enqueuers (h (up c)) = [] := by
    rcases hA.enqueued _ hp with ⟨hnil, -⟩ | ⟨u, v, harrived, -⟩
    · exact hnil
    · have hlen := congrArg List.length harrived
      rw [List.length_map, hlength] at hlen
      have htwo : [u, v].length = 2 := rfl
      omega
  have hnot : ∀ v, Event.counted t ≠ .enqueued v := nofun
  have henq : ∀ q, enqueuers (h.add (up c) (.counted t) q) = enqueuers (h q) :=
    enqueuers_add hnot
  have hmem : ∀ v d q, Event.ready v d ∈ h.add (up c) (.counted t) q ↔ Event.ready v d ∈ h q := by
    intro v d q
    rw [mem_add, or_iff_left]
    rintro ⟨-, ⟨⟩⟩
  have harr : ∀ q y, y ∈ Function.update arrived (up c) (arrived (up c) ++ [(t, c)]) q ↔
      y ∈ arrived q ∨ (q = up c ∧ y = (t, c)) := by
    intro q y
    by_cases hq : q = up c
    · rw [hq, Function.update_self, List.mem_append, List.mem_singleton, and_iff_right rfl]
    · rw [Function.update_of_ne hq, or_iff_left fun hy => hq hy.1]
  have hother : ∀ u, u ≠ t → Function.update hand t (Hand.after (up c) k) u = hand u :=
    fun u hu => Function.update_of_ne hu _ _
  have hself : Function.update hand t (Hand.after (up c) k) t = Hand.after (up c) k :=
    Function.update_self _ _ _
  have hnone : (Hand.after (up c) k).child = none := by
    cases k <;> rfl
  have hchild' : ∀ u d, (Function.update hand t (Hand.after (up c) k) u).child = some d →
      u ≠ t ∧ (hand u).child = some d ∧ d ≠ c := by
    intro u d hu
    have hut : u ≠ t := by
      rintro rfl
      rw [hself, hnone] at hu
      cases hu
    rw [hother u hut] at hu
    refine ⟨hut, hu, ?_⟩
    rintro rfl
    exact hut (hA.unique u t d hu hchild)
  constructor
  · intro q hq
    by_cases hqp : q = up c
    · rw [hqp, History.add_self, Function.update_self, counters_append, hA.counters _ hp,
        List.map_append]
      rfl
    · rw [History.add_of_ne h hqp, Function.update_of_ne hqp, hA.counters q hq]
  · intro q hq
    rw [hcount q hq]
    by_cases hqp : q = up c
    · rw [hqp, Function.update_self, if_pos rfl, List.length_append, hlength]
      rfl
    · rw [Function.update_of_ne hqp, if_neg hqp, hA.length q hq]
  · intro q y hy
    rw [hmem]
    rcases (harr q y).mp hy with hold | ⟨rfl, rfl⟩
    · exact hA.child q y hold
    · exact ⟨h0, rfl, hready⟩
  · intro q
    by_cases hqp : q = up c
    · rw [hqp, Function.update_self, List.map_append, List.nodup_append]
      refine ⟨hA.nodup _, List.nodup_singleton c, ?_⟩
      rintro d hd e he rfl
      obtain ⟨y, hy, rfl⟩ := List.mem_map.mp hd
      rw [List.map_singleton, List.mem_singleton] at he
      exact hnew y hy he
    · rw [Function.update_of_ne hqp]
      exact hA.nodup q
  · intro u d hu
    obtain ⟨-, hu, hdc⟩ := hchild' u d hu
    obtain ⟨hpos, hlt, hd, hdspent, harrived⟩ := hA.tells u d hu
    refine ⟨hpos, hlt, (hmem u d _).mpr hd, hdspent, fun y hy => ?_⟩
    rcases (harr _ y).mp hy with hold | ⟨-, rfl⟩
    · exact harrived y hold
    · exact hdc.symm
  · intro u v d hu hv
    exact hA.unique u v d (hchild' u d hu).2.1 (hchild' v d hv).2.1
  · intro u d hu
    have hut : u ≠ t := by
      rintro rfl
      rw [hself] at hu
      rw [hu] at hnone
      cases hnone
    rw [hother u hut] at hu
    obtain ⟨y, hy⟩ := List.exists_mem_of_ne_nil _ (hA.told u d hu)
    exact List.ne_nil_of_mem ((harr _ y).mpr (Or.inl hy))
  · intro u d hd
    rcases hA.seen u d ((hmem u d _).mp hd) with ⟨v, hv⟩ | ⟨y, hy, hyd⟩
    · by_cases hvt : v = t
      · rw [hvt, hchild] at hv
        obtain rfl := Option.some.inj hv
        exact Or.inr ⟨(t, c), (harr _ _).mpr (Or.inr ⟨rfl, rfl⟩), rfl⟩
      · exact Or.inl ⟨v, by rw [hother v hvt, hv]⟩
    · exact Or.inr ⟨y, (harr _ y).mpr (Or.inl hy), hyd⟩
  · intro u d hd
    rw [hmem]
    exact hA.unready u d hd
  · intro q hq hq'
    rw [henq] at hq'
    exact hA.source q hq hq'
  · intro q hq hs
    rw [henq]
    exact hA.started q hq (hstarted q hq hs)
  · intro u q hu
    rw [henq]
    by_cases hut : u = t
    · rw [hut, hself] at hu
      cases k with
      | zero => cases hu
      | succ k =>
          obtain rfl := Hand.owes.inj hu
          obtain ⟨y, hy⟩ := List.length_eq_one_iff.mp
            (show (arrived (up c)).length = 1 by rw [hlength]; omega)
          refine ⟨hp, hnil, y.1, ?_⟩
          rw [Function.update_self, hy, hut]
          rfl
    · rw [hother u hut] at hu
      obtain ⟨hlt, hq, v, harrived⟩ := hA.owes u q hu
      have hqp : q ≠ up c := by
        rintro rfl
        have hlen := congrArg List.length harrived
        rw [List.length_map, hlength] at hlen
        have htwo : [v, u].length = 2 := rfl
        omega
      exact ⟨hlt, hq, v, by rw [Function.update_of_ne hqp, harrived]⟩
  · intro q hq
    rw [henq]
    by_cases hqp : q = up c
    · subst hqp
      refine Or.inl ⟨hnil, ?_⟩
      cases k with
      | zero =>
          rw [Function.update_self, List.length_append, hlength]
          exact Or.inl Nat.one_lt_two
      | succ k => exact Or.inr ⟨t, hself⟩
    · rw [Function.update_of_ne hqp]
      rcases hA.enqueued q hq with ⟨hq', hshort | ⟨v, hv⟩⟩ | hdone
      · exact Or.inl ⟨hq', Or.inl hshort⟩
      · have hvt : v ≠ t := by
          rintro rfl
          rw [hv] at hchild
          cases hchild
        exact Or.inl ⟨hq', Or.inr ⟨v, by rw [hother v hvt, hv]⟩⟩
      · exact Or.inr hdone
  · intro hs
    rw [henq]
    exact hA.stop (by rwa [hstop] at hs)
  · intro u hu
    rw [henq]
    by_cases hut : u = t
    · rw [hut, hself] at hu
      cases k <;> cases hu
    · exact hA.rooted u (hother u hut ▸ hu)

/-- **A child is counted** at its parent. -/
theorem Ledger.count {c k : ℕ} (hL : Ledger leaves (s, h) hand) (hchild : (hand t).child = some c)
    (hstate : (s.tasks (up c)).state = k) (hk : k < 2) (htask : task.state = k + 1) :
    Ledger leaves (s.setTask (up c) task, observe leaves numWorkers t s (s.setTask (up c) task) h)
      (Function.update hand t (Hand.after (up c) k)) := by
  obtain ⟨place, arrived, hT, hA⟩ := hL
  have hp := (hA.tells t c hchild).2.1
  rw [observe_counted hp hstate hk htask]
  have hself := s.setTask_self (up c) task
  have hother : ∀ j, j ≠ up c → (s.setTask (up c) task).tasks j = s.tasks j :=
    fun j hj => s.setTask_of_ne hj task
  have hT' : Tokens leaves (s.setTask (up c) task) hand place := hT.congr rfl rfl
  refine ⟨place, _, ?_, hA.count hchild hstate hk ?_ ?_ rfl⟩
  · refine hT'.setHand (fun w hw _ => hT.empty w ?_) ?_ ?_
    · intro hfree
      rw [hw, hfree] at hchild
      cases hchild
    · cases k <;> nofun
    · cases k <;> nofun
  · intro q hq
    by_cases hqp : q = up c
    · rw [hqp, hself, htask, if_pos rfl]
      omega
    · rw [hother q hqp, if_neg hqp]
  · intro q hq hs
    by_cases hqp : q = up c
    · rw [hqp, hself, htask] at hs
      have hthree : NodeState.processing = 3 := rfl
      omega
    · rwa [hother q hqp] at hs

/-- A worker that is not the first to report goes on. -/
theorem Ledger.told {c : ℕ} (hL : Ledger leaves (s, h) hand) (hhand : hand t = .ready c)
    (hstate : (s.tasks (up c)).state ≠ NodeState.notStarted) :
    Ledger leaves (s, h) (Function.update hand t (.told c)) := by
  obtain ⟨place, arrived, hT, hA⟩ := hL
  have hp := (hA.tells t c (by rw [hhand]; rfl)).2.1
  have hzero : NodeState.notStarted = 0 := rfl
  refine ⟨place, arrived, hT.setHand (fun w hw _ => hT.empty w ?_) nofun nofun,
    hA.setHand ?_ ?_ ?_ nofun⟩
  · rw [← hw, hhand]
    nofun
  · rw [hhand]
    rfl
  · rw [hhand]
    exact fun p => iff_of_false nofun nofun
  · rintro d ⟨⟩ hnil
    have hlen : (arrived (up c)).length = min (s.tasks (up c)).state 2 := hA.length _ hp
    rw [hnil, List.length_nil] at hlen
    omega

/-- **No report is lost**: a child that is not the first is the second. -/
theorem Ledger.state_of_told {c : ℕ} (hL : Ledger leaves (s, h) hand) (hhand : hand t = .told c) :
    (s.tasks (up c)).state = NodeState.waitingOneChild := by
  obtain ⟨place, arrived, -, hA⟩ := hL
  obtain ⟨h0, hp, -, -, hnew⟩ := hA.tells t c (by rw [hhand]; rfl)
  have hlen := hA.length _ hp
  have hone : NodeState.waitingOneChild = 1 := rfl
  have hcase := (up_eq_iff h0).mp rfl
  have hchildren : ∀ y ∈ arrived (up c), y.2 ≠ c ∧
      (y.2 = TaskHeap.left (up c) ∨ y.2 = TaskHeap.right (up c)) := by
    intro y hy
    obtain ⟨hpos, hup, -⟩ := hA.child _ y hy
    exact ⟨hnew y hy, (up_eq_iff hpos).mp hup⟩
  have hnodup := hA.nodup (up c)
  cases harr : arrived (up c) with
  | nil => exact absurd harr (hA.told t c hhand)
  | cons y rest =>
      cases rest with
      | nil =>
          rw [harr] at hlen
          have hlen' : 1 = min (s.tasks (up c)).state 2 := hlen
          omega
      | cons z rest =>
          -- three different children of one node
          rw [harr] at hchildren hnodup
          have hyz : y.2 ≠ z.2 := by
            intro heq
            rw [List.map_cons, List.nodup_cons, List.map_cons, heq] at hnodup
            exact hnodup.1 List.mem_cons_self
          obtain ⟨hyc, hy⟩ := hchildren y List.mem_cons_self
          obtain ⟨hzc, hz⟩ := hchildren z (List.mem_cons_of_mem y List.mem_cons_self)
          omega

end Hands

end NexusVm.Nova.ParallelTree
