import NexusVm.Nova.ParallelRun

/-!
# Deadlocks of the parallel fold

A state is stuck if the stop flag is unset and nothing that the threads can still do
changes the tasks, the buffers or the flag.

With two leaves or more, folds that never fail and enough buffers no stuck state is reached.  The
buffers are enough if the subtrees that are complete, whatever leaves have been folded, never hold
all of them.  This is about what threads can do next, not about how long they spin before they do
it: no run is shown to end.
-/

namespace NexusVm.Nova.ParallelTree

open Concurrent

section Stuck

variable {L P Proof E : Type}

/-- What the threads work on: the tasks, the buffers, the free list and the stop flag. -/
def State.tree (s : State L P) : (ℕ → Task) × (ℕ → Option P) × List ℕ × Bool :=
  (s.tasks, s.blocks, s.free, s.stop)

/-- The stop flag is unset and no further steps, in whatever order, change the tree. -/
def ParallelTreeFolder.Stuck (F : ParallelTreeFolder L P Proof E) (leaves : List L)
    (c : Config (State L P) Thread (Label L P)) : Prop :=
  c.state.stop = false ∧ ∀ c', Steps (F.code leaves) c c' → c'.state.tree = c.state.tree

/-- The only leaf is folded; the producer has ended. -/
def oneLeafDone : Config (State ℕ ℕ) Thread (Label ℕ ℕ) :=
  (oneWorker.initial [3]).exec (oneWorker.code [3])
    (List.replicate 3 .producer ++ List.replicate 10 (.worker 0))

theorem digits_succeed : ¬digits.Fails := by
  rintro (⟨l, e, h⟩ | ⟨a, b, e, h⟩)
  · cases h
  · cases h

/-- **A single leaf** is folded, but nobody signals that the computation is complete. -/
theorem single_leaf_stuck :
    ¬oneWorker.reducer.Fails ∧ 1 ≤ oneWorker.numWorkers ∧ ∃ c, oneWorker.Reachable [3] c ∧
      (c.state.tasks 0).state = LeafState.ready ∧ oneWorker.Stuck [3] c := by
  let Q : Thread → Label ℕ ℕ → Prop
    | .worker 0, l => l = .top
    | .worker _, l => l = .halted
    | .producer, l => l = .halted
    | .caller, l => l = .wait
  have hcode : ∀ t l p, Q t l → oneWorker.code [3] t l = some p →
      p.Along (· = oneLeafDone.state) (fun l _ => Q t l) oneLeafDone.state := by
    intro t l p hl hp
    rcases t with (_ | w) | _ | _
    · obtain rfl := hl
      obtain rfl := Option.some.inj hp
      exact ⟨rfl, rfl, rfl, rfl⟩
    · obtain rfl := hl
      cases hp
    · obtain rfl := hl
      cases hp
    · obtain rfl := hl
      obtain rfl := Option.some.inj hp
      exact ⟨rfl, rfl⟩
  have hstart : ∀ t, (oneLeafDone.threads t).Along (· = oneLeafDone.state) (fun l _ => Q t l)
      oneLeafDone.state := by
    intro t
    rcases t with (_ | w) | _ | _
    · exact (rfl : Label.top = Label.top)
    · exact (rfl : Label.halted = Label.halted)
    · exact (rfl : Label.halted = Label.halted)
    · exact (rfl : Label.wait = Label.wait)
  refine ⟨digits_succeed, le_refl 1, oneLeafDone, ⟨_, rfl, steps_exec _ _⟩, rfl, rfl, ?_⟩
  intro c' hsteps
  rw [(steps_quiet hcode rfl hstart hsteps).1]

variable {F : ParallelTreeFolder L P Proof E} {leaves : List L}
  {c : Config (State L P) Thread (Label L P)}

theorem ParallelTreeFolder.Stuck.steps (h : F.Stuck leaves c)
    {c' : Config (State L P) Thread (Label L P)} (hsteps : Steps (F.code leaves) c c') :
    F.Stuck leaves c' := by
  have htree := h.2 c' hsteps
  constructor
  · exact (congrArg (fun x => x.2.2.2) htree).trans h.1
  · exact fun c'' hsteps' => (h.2 c'' (hsteps.trans hsteps')).trans htree.symm

theorem ParallelTreeFolder.Stuck.along (h : F.Stuck leaves c) {t : Thread} {l : Label L P}
    {p : Act L P (Label L P)} (hret : c.threads t = .ret l) (hcode : F.code leaves t l = some p) :
    p.Along (fun s => s.tree = c.state.tree)
      (fun l s => Steps (F.code leaves) c ⟨s, Function.update c.threads t (.ret l)⟩) c.state :=
  along_jump hret hcode h.2

/-- A worker that waits for a buffer takes one from the free list. -/
theorem ParallelTreeFolder.Stuck.free_eq_nil (h : F.Stuck leaves c) {w : ℕ} {leaf : L} {i : ℕ}
    (hret : c.threads (.worker w) = .ret (.alloc leaf i)) : c.state.free = [] := by
  have halong := h.along hret rfl
  unfold allocRound at halong
  cases hfree : c.state.free with
  | nil => rfl
  | cons b free =>
      simp only [alloc, along_atomic_bind, hfree] at halong
      have hlist : free = c.state.free := congrArg (fun x => x.2.2.1) halong.1
      rw [hfree] at hlist
      exact absurd hlist.symm (List.cons_ne_self b free)

/-- An idle worker pops a leaf, for which it then takes a buffer. -/
theorem ParallelTreeFolder.Stuck.leafQ_eq_nil (h : F.Stuck leaves c) {w : ℕ}
    (hret : c.threads (.worker w) = .ret .top) (hready : c.state.readyQ w = [])
    (hleaf : ∀ x, x ∈ c.state.leafQ w → (heapOf leaves).get x.2 = some .leaf)
    (hfree : c.state.free ≠ []) : c.state.leafQ w = [] := by
  have halong := h.along hret rfl
  unfold workerRound at halong
  cases hq : c.state.leafQ w with
  | nil => rfl
  | cons x rest =>
      have hx : (heapOf leaves).get x.2 = some .leaf :=
        hleaf x (by rw [hq]; exact List.mem_cons_self)
      obtain ⟨leaf, i⟩ := x
      simp only [loadStop, popReady, popLeaf, along_atomic_bind, h.1, hready, hq, hx,
        Bool.false_eq_true, if_false, Prog.pure_eq, along_ret] at halong
      obtain ⟨-, -, -, hsteps⟩ := halong
      have hret' : Function.update c.threads (.worker w) (.ret (.alloc leaf i)) (.worker w) =
          .ret (.alloc leaf i) := Function.update_self _ _ _
      exact absurd ((h.steps hsteps).free_eq_nil hret') hfree

/-- A worker with a ready node consumes its children. -/
theorem ParallelTreeFolder.Stuck.not_readyNode (hlen : leaves.length = 2 ^ Nat.log2 leaves.length)
    (h : F.Stuck leaves c) {w i b : ℕ} (hi : i < leaves.length - 1)
    (hret : c.threads (.worker w) = .ret .top) (hready : c.state.readyQ w = [i])
    (htask : c.state.tasks i = ⟨none, NodeState.waitingBothChildren⟩)
    (hchild : c.state.tasks (2 * i + 1) = ⟨some b, readyState leaves (2 * i + 1)⟩) : False := by
  have halong := h.along hret rfl
  unfold workerRound processReadyInnerNode startConsumingTaskAndGetBufHandle at halong
  simp only [loadStop, popReady, loadState, along_atomic_bind, Prog.bind_assoc, h.1, hready, htask,
    heapOf_get_node hlen hi, Bool.false_eq_true, if_false, TaskHeap.left, ne_eq, not_true] at halong
  obtain ⟨-, -, -, halong⟩ := halong
  by_cases hnode : 2 * i + 1 < leaves.length - 1
  · rw [readyState, if_pos hnode] at hchild
    simp only [heapOf_get_node hlen hnode, NodeTask.getBufIdIfReady, NodeTask.tryStartConsuming,
      loadState, loadBufferId, compareExchange, along_atomic_bind, Prog.bind_assoc, hchild, if_true]
      at halong
    have htasks := congrArg (fun x => (x.1 (2 * i + 1)).state) halong.2.2.1
    simp [State.tree, State.setTask, hchild, NodeState.beingConsumed,
      NodeState.processedWaitingForConsumption] at htasks
  · rw [readyState, if_neg hnode] at hchild
    simp only [heapOf_get_leaf hlen (by omega) (show 2 * i + 1 < _ by omega),
      LeafTask.getBufIdIfReady, LeafTask.tryStartConsuming, loadState, loadBufferId,
      compareExchange, along_atomic_bind, Prog.bind_assoc, hchild, if_true] at halong
    have htasks := congrArg (fun x => (x.1 (2 * i + 1)).state) halong.2.2.1
    simp [State.tree, State.setTask, hchild, LeafState.ready,
      LeafState.processedWaitingForConsumption] at htasks

/-- The producer pushes a leaf on an empty queue, from which its worker pops it. -/
theorem ParallelTreeFolder.Stuck.not_producing (h : F.Stuck leaves c) {leaf : L} {rest : List L}
    {i w : ℕ} (hw : workerIdx (heapOf leaves) F.numCores i = w)
    (hret : c.threads .producer = .ret (.next (leaf :: rest) i))
    (hi : i < (heapOf leaves).leafStart + (heapOf leaves).numLeaves)
    (hleaf : (heapOf leaves).get i = some .leaf)
    (hworker : c.threads (.worker w) = .ret .top) (hready : c.state.readyQ w = [])
    (hqueue : c.state.leafQ w = []) (hfree : c.state.free ≠ []) : False := by
  have halong := h.along hret rfl
  unfold producerRound at halong
  have hcap : ([] : List (L × ℕ)).length < readyQCap := Nat.zero_lt_succ 511
  simp only [not_le.mpr hi, if_false, hw, pushLeaf, along_atomic_bind, hqueue, hcap, if_true,
    Prog.pure_eq, along_ret, List.nil_append] at halong
  have hstuck := h.steps halong.2
  have hnil : Function.update c.state.leafQ w [(leaf, i)] w = [] := by
    refine hstuck.leafQ_eq_nil ?_ hready ?_ hfree
    · have hne : Thread.worker w ≠ .producer := by simp
      show Function.update c.threads .producer (.ret (.next rest (i + 1))) (.worker w) = _
      rw [Function.update_of_ne hne]
      exact hworker
    · intro x hx
      have hx' : x ∈ Function.update c.state.leafQ w [(leaf, i)] w := hx
      rw [Function.update_self, List.mem_singleton] at hx'
      rw [hx']
      exact hleaf
  rw [Function.update_self] at hnil
  cases hnil

/-! ## All threads at rest and subtrees -/

variable {rs : Thread → Res P}

/-- Workers that there are not do nothing. -/
theorem ParallelTreeFolder.Reachable.halted (h : F.Reachable leaves c) {w : ℕ}
    (hw : F.numCores ≤ w) : c.threads (.worker w) = .ret .halted := by
  obtain ⟨c₀, hrun, hsteps⟩ := h
  obtain ⟨-, rfl⟩ := run_eq_ok hrun
  induction hsteps with
  | refl => exact congrArg Prog.ret (if_neg (not_lt.mpr hw))
  | tail _ hstep ih =>
      obtain ⟨t, hstep⟩ := hstep
      have hne : Thread.worker w ≠ t := by
        rintro rfl
        cases hstep with
        | act hact =>
            rw [ih] at hact
            cases hact
        | jump hret hcode =>
            rw [ih] at hret
            obtain rfl := Prog.ret.inj hret
            cases hcode
      cases hstep with
      | act hact => exact (Function.update_of_ne hne _ _).trans ih
      | jump _ _ => exact (Function.update_of_ne hne _ _).trans ih

/-- From any state all threads can come to a label. -/
theorem ParallelTreeFolder.Reachable.exists_labels (h : F.Reachable leaves c) :
    ∃ c', Steps (F.code leaves) c c' ∧ ∀ t, ∃ l, c'.threads t = .ret l := by
  have hlist : ∃ c', Steps (F.code leaves) c c' ∧ ∀ t,
      (t ∈ .producer :: .caller :: (List.range F.numCores).map .worker ∨
        ∃ l, c.threads t = .ret l) → ∃ l, c'.threads t = .ret l := exists_steps_labels _ c
  obtain ⟨c', hsteps, hlabels⟩ := hlist
  refine ⟨c', hsteps, fun t => hlabels t ?_⟩
  cases t with
  | producer => simp
  | caller => simp
  | worker w =>
      by_cases hw : w < F.numCores
      · left
        simp [hw]
      · exact Or.inr ⟨.halted, h.halted (not_lt.mp hw)⟩

/-- What a thread does in a stuck state, once it has come to a label. -/
inductive AtRest (F : ParallelTreeFolder L P Proof E) (leaves : List L)
    (c : Config (State L P) Thread (Label L P)) (rs : Thread → Res P) : Thread → Prop
  | idle {w : ℕ} (hret : c.threads (.worker w) = .ret .top) (hready : (rs (.worker w)).ready = [])
      (hclean : Clean F.reducer (rs (.worker w)) none []) : AtRest F leaves c rs (.worker w)
  | alloc {w : ℕ} {leaf : L} {i : ℕ} (hret : c.threads (.worker w) = .ret (.alloc leaf i))
      (halloc : Allocating leaves F.reducer (rs (.worker w)) leaf i) :
      AtRest F leaves c rs (.worker w)
  | absent {w : ℕ} (hw : F.numCores ≤ w) (hclean : Clean F.reducer (rs (.worker w)) none []) :
      AtRest F leaves c rs (.worker w)
  | producing {rest : List L} {i : ℕ} (hret : c.threads .producer = .ret (.next rest i))
      (hcursor : (rs .producer).cursor = i)
      (hrest : rest = leaves.drop (i - (leaves.length - 1))) (hle : leaves.length - 1 ≤ i)
      (hnothing : Nothing (rs .producer)) : AtRest F leaves c rs .producer
  | produced (hcursor : 2 * leaves.length - 1 ≤ (rs .producer).cursor)
      (hnothing : Nothing (rs .producer)) : AtRest F leaves c rs .producer
  | waiting (hnothing : Nothing (rs .caller)) : AtRest F leaves c rs .caller

variable {t : Thread}

theorem AtRest.bufs (h : AtRest F leaves c rs t) (b : ℕ) : (rs t).bufs b = none := by
  cases h with
  | idle _ _ hclean => exact hclean.bufs b List.not_mem_nil
  | alloc _ halloc => exact halloc.clean.bufs b List.not_mem_nil
  | absent _ hclean => exact hclean.bufs b List.not_mem_nil
  | producing _ _ _ _ hnothing => exact hnothing.bufs b
  | produced _ hnothing => exact hnothing.bufs b
  | waiting hnothing => exact hnothing.bufs b

theorem AtRest.sawRoot (h : AtRest F leaves c rs t) : (rs t).sawRoot = false := by
  cases h with
  | idle _ _ hclean => exact hclean.sawRoot
  | alloc _ halloc => exact halloc.clean.sawRoot
  | absent _ hclean => exact hclean.sawRoot
  | producing _ _ _ _ hnothing => exact hnothing.sawRoot
  | produced _ hnothing => exact hnothing.sawRoot
  | waiting hnothing => exact hnothing.sawRoot

/-- Only leaves that wait for a buffer are being made. -/
theorem AtRest.making (hfails : ¬F.reducer.Fails) (h : AtRest F leaves c rs t) {i : ℕ} {task : Task}
    (hi : (rs t).tasks i = some (.making, task)) :
    leaves.length - 1 ≤ i ∧ ∃ w leaf, c.threads (.worker w) = .ret (.alloc leaf i) := by
  cases h with
  | idle _ _ hclean => exact absurd ((hclean.making i task hi).resolve_left (by nofun)) hfails
  | @alloc w leaf j hret halloc =>
      obtain rfl := Option.some.inj ((halloc.clean.making i task hi).resolve_right hfails)
      exact ⟨halloc.isLeaf, w, leaf, hret⟩
  | absent _ hclean => exact absurd ((hclean.making i task hi).resolve_left (by nofun)) hfails
  | producing _ _ _ _ hnothing =>
      rw [hnothing.tasks] at hi
      cases hi
  | produced _ hnothing =>
      rw [hnothing.tasks] at hi
      cases hi
  | waiting hnothing =>
      rw [hnothing.tasks] at hi
      cases hi

/-- In a stuck state threads at labels are at rest. -/
theorem ParallelTreeFolder.Stuck.atRest (hlen : leaves.length = 2 ^ Nat.log2 leaves.length)
    (h : F.Stuck leaves c) (hI : F.Inv leaves c.state rs) {l : Label L P}
    (hret : c.threads t = .ret l) (hpost : Post F leaves t l (rs t)) :
    AtRest F leaves c rs t := by
  have hstop : (rs t).sawStop ≠ true := by
    intro hsaw
    obtain ⟨g, hg⟩ := hI
    have hset := hg.flags.sawStop t hsaw
    rw [h.1] at hset
    cases hset
  cases t with
  | worker w =>
      cases l with
      | top =>
          have hrest : Resting F.reducer leaves F.numBlocks (rs (.worker w)) := hpost
          cases hrest with
          | idle hready hclean => exact .idle hret hready hclean
          | ready hready hnode =>
              have hq : c.state.readyQ w = _ := (hI.readyQ w).trans hready
              exact (h.not_readyNode hlen hnode.node hret hq (hI.owned hnode.task)
                (hI.owned hnode.taskLeft)).elim
      | alloc leaf i => exact .alloc hret hpost
      | halted =>
          obtain ⟨-, hsaw | ⟨hw, -, hclean⟩⟩ := hpost
          · exact absurd hsaw hstop
          · exact .absent hw hclean
      | _ => exact hpost.elim
  | producer =>
      cases l with
      | next rest i =>
          obtain ⟨hnothing, hcursor, hrest, hle⟩ := hpost
          exact .producing hret hcursor hrest hle hnothing
      | halted =>
          obtain ⟨hnothing, hsaw | hcursor⟩ := hpost
          · exact absurd hsaw hstop
          · exact .produced hcursor hnothing
      | _ => exact hpost.elim
  | caller =>
      cases l with
      | wait => exact .waiting hpost.1
      | returned result =>
          cases result with
          | ok v => exact absurd hpost.2.1 hstop
          | error e => exact hpost.elim
      | _ => exact hpost.elim

end Stuck

section Subtrees

/-- All leaves below a task are among the given ones. -/
def complete (n : ℕ) (S : Finset ℕ) (i : ℕ) : Bool :=
  if _h : i < n - 1 then complete n S (2 * i + 1) && complete n S (2 * i + 2) else decide (i ∈ S)
termination_by n - 1 - i

/-- The subtrees that are complete while the parent's is not; each holds a buffer. -/
def maximalSubtrees (n : ℕ) (S : Finset ℕ) : Finset ℕ :=
  (Finset.range (2 * n - 1)).filter fun i =>
    0 < i ∧ complete n S i = true ∧ complete n S (up i) = false

variable {L : Type}

/-- Leaves that can be folded at one time: each worker goes through its chunk in order. -/
def Front (leaves : List L) (numWorkers : ℕ) (S : Finset ℕ) : Prop :=
  S ⊆ Finset.Ico (leaves.length - 1) (2 * leaves.length - 1) ∧
    ∀ i j, leaves.length - 1 ≤ i → i < j → j ∈ S →
      chunk leaves numWorkers i = chunk leaves numWorkers j → i ∈ S

/-- Whatever leaves are folded, as long as one is missing there is a free buffer. -/
def ParallelTreeFolder.EnoughBuffers {P Proof E : Type} (F : ParallelTreeFolder L P Proof E)
    (leaves : List L) : Prop :=
  ∀ S, Front leaves F.numCores S →
    (∃ i, leaves.length - 1 ≤ i ∧ i < 2 * leaves.length - 1 ∧ i ∉ S) →
    (maximalSubtrees leaves.length S).card < F.numBlocks

/-- More buffers than tasks are enough. -/
theorem enoughBuffers_of_le {P Proof E : Type} {F : ParallelTreeFolder L P Proof E}
    {leaves : List L} (h : 2 * leaves.length - 1 < F.numBlocks) : F.EnoughBuffers leaves := by
  intro S _ _
  refine lt_of_le_of_lt (Finset.card_filter_le _ _) ?_
  rwa [Finset.card_range]

end Subtrees

/-! ## Progress -/

section Deadlock

variable {L P Proof E : Type} {F : ParallelTreeFolder L P Proof E} {leaves : List L}
  {c : Config (State L P) Thread (Label L P)} {rs : Thread → Res P} {g : Ghost P}

/-- The task's accumulator has been made, and perhaps taken. -/
def Status.Finished : Status P → Prop
  | .owned _ .taken => True
  | .deposited _ _ => True
  | _ => False

instance (st : Status P) : Decidable st.Finished :=
  match st with
  | .outside => isFalse id
  | .fresh => isFalse id
  | .waiting => isFalse id
  | .owned _ .making => isFalse id
  | .owned _ .taken => isTrue trivial
  | .deposited _ _ => isTrue trivial

/-- A stuck state whose threads are at rest, with its ghost state. -/
structure Settled (F : ParallelTreeFolder L P Proof E) (leaves : List L)
    (c : Config (State L P) Thread (Label L P)) (rs : Thread → Res P) (g : Ghost P) : Prop where
  pow : leaves.length = 2 ^ Nat.log2 leaves.length
  two : 2 ≤ leaves.length
  noFails : ¬F.reducer.Fails
  stuck : F.Stuck leaves c
  inv : InvWith F.reducer leaves F.numBlocks F.numCores c.state rs g
  rest : ∀ t, AtRest F leaves c rs t

variable {i : ℕ}

/-- Only leaves for which a worker waits for a buffer are being made. -/
theorem Settled.making (h : Settled F leaves c rs g) {t : Thread}
    (hi : g.status i = .owned t .making) :
    leaves.length - 1 ≤ i ∧ ∃ w leaf, c.threads (.worker w) = .ret (.alloc leaf i) := by
  have htask : (rs t).tasks i = some (.making, c.state.tasks i) := by
    rw [h.inv.views.tasks, hi, Status.view, if_pos rfl]
  exact (h.rest t).making h.noFails htask

/-- The root is not ready yet. -/
theorem Settled.root (h : Settled F leaves c rs g) : ¬(g.status 0).Finished := by
  intro hfinished
  cases hstatus : g.status 0 with
  | deposited b v =>
      rcases h.inv.flags.deposited b v hstatus with hstop | ⟨t, hsaw⟩
      · rw [h.stuck.1] at hstop
        cases hstop
      · rw [(h.rest t).sawRoot] at hsaw
        cases hsaw
  | owned t m =>
      cases m with
      | making =>
          rw [hstatus] at hfinished
          exact hfinished
      | taken =>
          have hstop := (h.inv.flags.token (h.inv.flags.taken t hstatus)).1
          rw [h.stuck.1] at hstop
          cases hstop
  | _ =>
      rw [hstatus] at hfinished
      exact hfinished

/-- A node is waiting or finished. -/
theorem Settled.node (h : Settled F leaves c rs g) (hi : i < leaves.length - 1) :
    g.status i = .waiting ∨ (g.status i).Finished := by
  cases hstatus : g.status i with
  | outside =>
      have := (h.inv.tree.outside i).mp hstatus
      omega
  | fresh =>
      have := (h.inv.tree.fresh i hstatus).1
      omega
  | waiting => exact Or.inl rfl
  | deposited b v => exact Or.inr trivial
  | owned t m =>
      cases m with
      | making =>
          have := (h.making hstatus).1
          omega
      | taken => exact Or.inr trivial

/-- A finished child of a waiting node is deposited. -/
theorem Settled.deposited (h : Settled F leaves c rs g) (hi : 0 < i)
    (hup : g.status (up i) = .waiting) (hfinished : (g.status i).Finished) :
    (g.status i).Deposited = true := by
  have hpending := h.inv.tree.consumed i hi hup
  cases hstatus : g.status i with
  | deposited b v => rfl
  | owned t m =>
      rw [hstatus] at hpending hfinished
      cases m with
      | making => exact hfinished.elim
      | taken => exact hpending.elim
  | _ =>
      rw [hstatus] at hfinished
      exact hfinished.elim

/-- A node is finished exactly if its children are. -/
theorem Settled.finished_node (h : Settled F leaves c rs g) (hi : i < leaves.length - 1) :
    (g.status i).Finished ↔
      (g.status (2 * i + 1)).Finished ∧ (g.status (2 * i + 2)).Finished := by
  have hupl : up (2 * i + 1) = i := up_left i
  have hupr : up (2 * i + 2) = i := up_right i
  constructor
  · intro hfinished
    -- the children of a finished node are not pending
    have hchild : ∀ j, 0 < j → j < 2 * leaves.length - 1 → up j = i → (g.status j).Finished := by
      intro j hj hlt hup
      have hnot : ¬(g.status j).Pending := by
        intro hpending
        have hwaiting := h.inv.tree.pending j hj hpending
        rw [hup] at hwaiting
        rw [hwaiting] at hfinished
        exact hfinished
      cases hstatus : g.status j with
      | outside =>
          have := (h.inv.tree.outside j).mp hstatus
          omega
      | owned t m =>
          cases m with
          | making =>
              rw [hstatus] at hnot
              exact absurd trivial hnot
          | taken => trivial
      | _ =>
          rw [hstatus] at hnot
          exact absurd trivial hnot
    exact ⟨hchild _ (Nat.succ_pos _) (by omega) hupl, hchild _ (Nat.succ_pos _) (by omega) hupr⟩
  · rintro ⟨hl, hr⟩
    rcases h.node hi with hwaiting | hfinished
    · have hdl := h.deposited (Nat.succ_pos _) (by rw [hupl]; exact hwaiting) hl
      have hdr := h.deposited (Nat.succ_pos _) (by rw [hupr]; exact hwaiting) hr
      obtain ⟨-, -, hle⟩ := h.inv.tree.waiting i hwaiting
      simp only [Ghost.deposits, hdl, hdr] at hle
      exact absurd hle (by decide)
    · exact hfinished

/-- The leaves that are finished. -/
def finishedLeaves (leaves : List L) (g : Ghost P) : Finset ℕ :=
  (Finset.Ico (leaves.length - 1) (2 * leaves.length - 1)).filter fun i => (g.status i).Finished

theorem mem_finishedLeaves : i ∈ finishedLeaves leaves g ↔
    (leaves.length - 1 ≤ i ∧ i < 2 * leaves.length - 1) ∧ (g.status i).Finished := by
  rw [finishedLeaves, Finset.mem_filter, Finset.mem_Ico]

/-- A task is finished exactly if all its leaves are. -/
theorem Settled.finished_iff (h : Settled F leaves c rs g) (hi : i < 2 * leaves.length - 1) :
    (g.status i).Finished ↔ complete leaves.length (finishedLeaves leaves g) i = true := by
  induction i using complete.induct (n := leaves.length) with
  | case1 i hnode ihl ihr =>
      rw [h.finished_node hnode, ihl (by omega), ihr (by omega)]
      rw [complete.eq_def leaves.length _ i, dif_pos hnode, Bool.and_eq_true]
  | case2 i hleaf =>
      rw [complete, dif_neg hleaf, decide_eq_true_eq, mem_finishedLeaves]
      constructor
      · exact fun hfinished => ⟨⟨not_lt.mp hleaf, hi⟩, hfinished⟩
      · exact fun hmem => hmem.2

/-- The leaves are finished from the front of each chunk. -/
theorem Settled.front (h : Settled F leaves c rs g) :
    Front leaves F.numCores (finishedLeaves leaves g) := by
  constructor
  · intro i hi
    rw [Finset.mem_Ico]
    exact (mem_finishedLeaves.mp hi).1
  · intro i j hi hij hj hchunk
    obtain ⟨⟨-, hlt⟩, hfinished⟩ := mem_finishedLeaves.mp hj
    rw [mem_finishedLeaves]
    refine ⟨⟨hi, by omega⟩, ?_⟩
    -- if the earlier leaf were not finished then the later one would still be fresh
    have hfresh : g.status j = .fresh → False := by
      intro hfresh
      rw [hfresh] at hfinished
      exact hfinished
    cases hstatus : g.status i with
    | outside =>
        have := (h.inv.tree.outside i).mp hstatus
        omega
    | fresh => exact hfresh (h.inv.queue.later i j hstatus hij hlt hchunk.symm)
    | waiting =>
        have := (h.inv.tree.waiting i hstatus).1
        omega
    | deposited b v => trivial
    | owned t m =>
        cases m with
        | taken => trivial
        | making =>
            rcases h.inv.queue.owned t i hi hstatus with hfails | ⟨-, hlater⟩
            · exact h.noFails hfails
            · exact hfresh (hlater j hij hlt hchunk.symm)

/-- The deposited tasks are the maximal complete subtrees. -/
theorem Settled.mem_maximalSubtrees (h : Settled F leaves c rs g) {i b : ℕ} {v : P}
    (hi : g.status i = .deposited b v) :
    i ∈ maximalSubtrees leaves.length (finishedLeaves leaves g) := by
  have hlt : i < 2 * leaves.length - 1 := by
    by_contra hge
    have hout := (h.inv.tree.outside i).mpr (not_lt.mp hge)
    rw [hi] at hout
    cases hout
  have hpos : 0 < i := by
    by_contra hzero
    obtain rfl : i = 0 := by omega
    exact h.root (by rw [hi]; trivial)
  have hup : up i < i := by
    unfold up
    omega
  have hwaiting := h.inv.tree.pending i hpos (by rw [hi]; trivial)
  rw [maximalSubtrees, Finset.mem_filter, Finset.mem_range]
  refine ⟨hlt, hpos, ?_, ?_⟩
  · rw [← h.finished_iff hlt, hi]
    trivial
  · have hnot := mt (h.finished_iff (hup.trans hlt)).mpr (by rw [hwaiting]; exact id)
    simpa using hnot

/-- Without a free buffer, every buffer belongs to a maximal complete subtree. -/
theorem Settled.numBlocks_le (h : Settled F leaves c rs g) (hfree : c.state.free = []) :
    F.numBlocks ≤ (maximalSubtrees leaves.length (finishedLeaves leaves g)).card := by
  have hheld : ∀ b, b < F.numBlocks → ∃ i v, g.buf b = .held i ∧ g.status i = .deposited b v := by
    intro b hb
    cases hbuf : g.buf b with
    | free =>
        have hmem := (h.inv.pool.mem b).mpr ⟨hb, hbuf⟩
        rw [hfree] at hmem
        cases hmem
    | owned t =>
        have hnone := (h.rest t).bufs b
        rw [h.inv.views.bufs, hbuf, Holder.view, if_pos rfl] at hnone
        cases hnone
    | held i =>
        obtain ⟨v, hv⟩ := h.inv.pool.held b i hbuf
        exact ⟨i, v, rfl, hv⟩
  choose! task value hbuf hstatus using hheld
  rw [← Finset.card_range F.numBlocks]
  refine Finset.card_le_card_of_injOn task ?_ ?_
  · intro b hb
    exact h.mem_maximalSubtrees (hstatus b (by simpa using hb))
  · intro b hb d hd hbd
    have hb' := hstatus b (by simpa using hb)
    have hd' := hstatus d (by simpa using hd)
    rw [hbd, hd'] at hb'
    exact (Status.deposited.inj hb').1.symm

/-- Some leaf is not finished. -/
theorem Settled.exists_missing (h : Settled F leaves c rs g) :
    ∃ i, leaves.length - 1 ≤ i ∧ i < 2 * leaves.length - 1 ∧ i ∉ finishedLeaves leaves g := by
  by_contra hall
  push Not at hall
  have hcomplete : ∀ i, i < 2 * leaves.length - 1 →
      complete leaves.length (finishedLeaves leaves g) i = true := by
    intro i
    induction i using complete.induct (n := leaves.length) with
    | case1 i hnode ihl ihr =>
        intro hi
        rw [complete, dif_pos hnode, ihl (by omega), ihr (by omega)]
        rfl
    | case2 i hleaf =>
        intro hi
        rw [complete, dif_neg hleaf, decide_eq_true_eq]
        exact hall i (not_lt.mp hleaf) hi
  have htwo := h.two
  exact h.root ((h.finished_iff (by omega)).mpr (hcomplete 0 (by omega)))

theorem numCores_pos : 0 < F.numCores := lt_of_lt_of_le Nat.one_pos (le_max_right _ _)

theorem chunk_lt (i : ℕ) : chunk leaves F.numCores i < F.numCores := by
  have hpos := numCores_pos (F := F)
  unfold chunk
  omega

/-- If there is a free buffer then the worker of any leaf has nothing to do. -/
theorem Settled.idle (h : Settled F leaves c rs g) (hfree : c.state.free ≠ []) (i : ℕ) :
    c.threads (.worker (chunk leaves F.numCores i)) = .ret .top ∧
      c.state.readyQ (chunk leaves F.numCores i) = [] ∧
      c.state.leafQ (chunk leaves F.numCores i) = [] := by
  have hlt : chunk leaves F.numCores i < F.numCores := chunk_lt i
  generalize chunk leaves F.numCores i = w at hlt ⊢
  cases h.rest (.worker w) with
  | idle hret hready hclean =>
      have hq : c.state.readyQ w = [] := by rw [← h.inv.views.ready, hready]
      refine ⟨hret, hq, h.stuck.leafQ_eq_nil hret hq ?_ hfree⟩
      intro x hx
      have hmem := (h.inv.queue.mem w x.2).mp (List.mem_map_of_mem hx)
      have hle := (h.inv.tree.fresh x.2 hmem.1).1
      have hrange := h.inv.queue.range.2
      exact heapOf_get_leaf h.pow hle (by omega)
  | alloc hret _ => exact absurd (h.stuck.free_eq_nil hret) hfree
  | absent hw _ => exact absurd hlt (not_lt.mpr hw)

/-- If there is a free buffer then all leaves are finished. -/
theorem Settled.free_eq_nil (h : Settled F leaves c rs g) : c.state.free = [] := by
  by_contra hfree
  obtain ⟨i, hle, hlt, hmissing⟩ := h.exists_missing
  have hunfinished : ¬(g.status i).Finished := by
    intro hfinished
    exact hmissing (mem_finishedLeaves.mpr ⟨⟨hle, hlt⟩, hfinished⟩)
  obtain ⟨hret, hready, hqueue⟩ := h.idle hfree i
  cases hstatus : g.status i with
  | outside =>
      have := (h.inv.tree.outside i).mp hstatus
      omega
  | waiting =>
      have := (h.inv.tree.waiting i hstatus).1
      omega
  | deposited b v => exact hunfinished (by rw [hstatus]; trivial)
  | owned t m =>
      cases m with
      | taken => exact hunfinished (by rw [hstatus]; trivial)
      | making =>
          obtain ⟨-, w, leaf, halloc⟩ := h.making hstatus
          exact hfree (h.stuck.free_eq_nil halloc)
  | fresh =>
      by_cases hnext : i < g.nextLeaf
      · -- it would be in the queue
        have hmem := (h.inv.queue.mem _ i).mpr ⟨hstatus, hnext, rfl⟩
        rw [hqueue] at hmem
        cases hmem
      · cases h.rest .producer with
        | produced hcursor _ =>
            rw [h.inv.views.cursor] at hcursor
            omega
        | @producing rest j hprod hcursor hrest hlej _ =>
            rw [h.inv.views.cursor] at hcursor
            have hj : j < 2 * leaves.length - 1 := by omega
            cases rest with
            | nil =>
                have hend := List.drop_eq_nil_iff.mp hrest.symm
                omega
            | cons leaf rest =>
                obtain ⟨hret', hready', hqueue'⟩ := h.idle hfree j
                refine h.stuck.not_producing (workerIdx_eq_chunk h.pow _ _) hprod ?_
                  (heapOf_get_leaf h.pow hlej hj) hret' hready' hqueue' hfree
                rw [heapOf_leafStart h.pow, heapOf_eq h.pow]
                show j < leaves.length - 1 + leaves.length
                omega

/-- **No deadlock.**  With two leaves or more, a reducer that always succeeds and enough
buffers, no state of a run is stuck. -/
theorem not_stuck (hn : 2 ≤ leaves.length) (hfails : ¬F.reducer.Fails)
    (hbuffers : F.EnoughBuffers leaves) (h : F.Reachable leaves c) : ¬F.Stuck leaves c := by
  intro hstuck
  obtain ⟨c', hsteps, hlabels⟩ := h.exists_labels
  obtain ⟨c₀, hrun, hsteps₀⟩ := h
  have hreachable : F.Reachable leaves c' := ⟨c₀, hrun, hsteps₀.trans hsteps⟩
  obtain ⟨hlen, rs, hI, hsafe⟩ := hreachable.sound hn
  have hstuck' := hstuck.steps hsteps
  have hrest : ∀ t, AtRest F leaves c' rs t := by
    intro t
    obtain ⟨l, hl⟩ := hlabels t
    have ht := hsafe t
    rw [hl] at ht
    exact hstuck'.atRest hlen hI hl ht
  obtain ⟨g, hg⟩ := hI
  have hsettled : Settled F leaves c' rs g := ⟨hlen, hn, hfails, hstuck', hg, hrest⟩
  have hle := hsettled.numBlocks_le hsettled.free_eq_nil
  exact absurd (hbuffers _ hsettled.front hsettled.exists_missing) (not_lt.mpr hle)

theorem not_stuck_two : ¬oneWorker.Stuck [3, 5] (twoLeavesAfter 20) :=
  not_stuck (by decide) digits_succeed (enoughBuffers_of_le (by decide)) ⟨_, rfl, steps_exec _ _⟩

end Deadlock

end NexusVm.Nova.ParallelTree
