import NexusVm.Nova.ParallelLedger
import NexusVm.Nova.ParallelRun

/-!
# Readiness in the parallel fold

Every action of every thread keeps the ledger, so each inner task is put in a ready queue once,
by the worker of the child that is counted second, and into an empty queue.
-/

namespace NexusVm.Nova.ParallelTree

open Concurrent

section Quiet

variable {L P : Type} (leaves : List L)

/-- An update that the ledger does not notice. -/
def Quiet (update : State L P → State L P) : Prop :=
  ∀ s, Neutral leaves s (update s) ∧ ∀ p < leaves.length - 1,
    NodeState.processing ≤ ((update s).tasks p).state → NodeState.processing ≤ (s.tasks p).state

variable {leaves} {numWorkers : ℕ} {t : Thread} {r : Hand}

/-- No state of a task changes. -/
theorem quiet_of_state {s s' : State L P} (hready : s'.readyQ = s.readyQ)
    (hleaf : s'.leafQ = s.leafQ) (hstop : s'.stop = s.stop)
    (hstate : ∀ i, (s'.tasks i).state = (s.tasks i).state) :
    Neutral leaves s s' ∧ ∀ p < leaves.length - 1,
      NodeState.processing ≤ (s'.tasks p).state → NodeState.processing ≤ (s.tasks p).state := by
  refine ⟨⟨hready, hleaf, hstop, fun c _ hc => ?_, fun p _ => ?_⟩, fun p _ hp => ?_⟩
  · rwa [hstate] at hc
  · rw [hstate]
  · rwa [hstate] at hp

theorem setTask_state {s : State L P} {i j : ℕ} {task : Task} :
    ((s.setTask i task).tasks j).state = if j = i then task.state else (s.tasks j).state := by
  show (Function.update s.tasks i task j).state = _
  by_cases hj : j = i
  · rw [hj, Function.update_self, if_pos rfl]
  · rw [Function.update_of_ne hj, if_neg hj]

theorem quiet_load : Quiet leaves fun s : State L P => s :=
  fun _ => quiet_of_state rfl rfl rfl fun _ => rfl

theorem all_loadState (i : ℕ) : (loadState i : Act L P ℕ).All (Quiet leaves) :=
  Prog.all_atomic quiet_load

theorem all_loadBufferId (i : ℕ) : (loadBufferId i : Act L P _).All (Quiet leaves) :=
  Prog.all_atomic quiet_load

theorem all_storeBufferId (i : ℕ) (id : Option ℕ) :
    (storeBufferId i id : Act L P Unit).All (Quiet leaves) := by
  refine Prog.all_atomic fun s => quiet_of_state rfl rfl rfl fun j => ?_
  dsimp only
  rw [setTask_state]
  split_ifs with hj
  · rw [hj]
  · rfl

theorem all_write (b : ℕ) (v : P) : (write b v : Act L P Unit).All (Quiet leaves) :=
  Prog.all_atomic fun _ => quiet_of_state rfl rfl rfl fun _ => rfl

theorem all_read (b : ℕ) : (read b : Act L P (Option P)).All (Quiet leaves) :=
  Prog.all_atomic fun _ => quiet_of_state rfl rfl rfl fun _ => rfl

theorem all_releaseQuiet (b : ℕ) : (release b : Act L P Unit).All (Quiet leaves) :=
  Prog.all_bind (Prog.all_atomic fun _ => quiet_of_state rfl rfl rfl fun _ => rfl)
    fun _ => Prog.all_atomic fun _ => quiet_of_state rfl rfl rfl fun _ => rfl

theorem all_claimAndRelease (numBlocks b : ℕ) :
    (claimAndRelease numBlocks b : Act L P Unit).All (Quiet leaves) := by
  unfold claimAndRelease
  cases claim numBlocks b with
  | none => trivial
  | some b => exact all_releaseQuiet b

theorem all_alloc : (alloc : Act L P (Option ℕ)).All (Quiet leaves) := by
  refine Prog.all_atomic fun s => ?_
  cases hfree : s.free with
  | nil =>
      simp only [hfree]
      exact quiet_load s
  | cons b free =>
      simp only [hfree]
      exact quiet_of_state rfl rfl rfl fun _ => rfl

/-- A transition of a leaf to another state than ready, or of a node that is being
processed. -/
theorem all_compareExchange {i old new : ℕ} (hready : 0 < i → new ≠ readyState leaves i)
    (hnode : i < leaves.length - 1 → NodeState.processing ≤ old ∧ NodeState.processing ≤ new) :
    (compareExchange i old new : Act L P Bool).All (Quiet leaves) := by
  have hthree : NodeState.processing = 3 := rfl
  apply Prog.all_atomic
  intro s
  by_cases hold : (s.tasks i).state = old
  · simp only [hold, if_true]
    refine ⟨⟨rfl, rfl, rfl, fun c hc => ?_, fun p hp => ?_⟩, fun p hp => ?_⟩
    · rw [setTask_state]
      split_ifs with hci
      · exact fun hnew => absurd hnew (hci ▸ hready (hci ▸ hc))
      · exact id
    · rw [setTask_state]
      split_ifs with hpi
      · have hp' := hnode (hpi ▸ hp)
        rw [hpi, hold]
        simp only
        omega
      · rfl
    · rw [setTask_state]
      split_ifs with hpi
      · rw [hpi, hold]
        exact fun _ => (hnode (hpi ▸ hp)).1
      · exact id
  · simp only [hold, if_false]
    exact quiet_load s

theorem heapOf_get (hlen : leaves.length = 2 ^ Nat.log2 leaves.length) (i : ℕ) :
    (heapOf leaves).get i = if i < 2 * leaves.length - 1 then
      if leaves.length - 1 ≤ i then some .leaf else some .node else none := by
  rw [heapOf_eq hlen]
  have hstart : 2 * leaves.length - 1 - leaves.length = leaves.length - 1 := by omega
  show (if i < 2 * leaves.length - 1 then
    if 2 * leaves.length - 1 - leaves.length ≤ i then some Kind.leaf else some .node else none) = _
  rw [hstart]

/-- The index of a node. -/
theorem lt_of_get_node (hlen : leaves.length = 2 ^ Nat.log2 leaves.length) {i : ℕ}
    (h : (heapOf leaves).get i = some .node) : i < leaves.length - 1 := by
  rw [heapOf_get hlen] at h
  split_ifs at h with h₁ h₂
  · cases h
  · exact not_le.mp h₂

/-- The index of a leaf. -/
theorem le_of_get_leaf (hlen : leaves.length = 2 ^ Nat.log2 leaves.length) {i : ℕ}
    (h : (heapOf leaves).get i = some .leaf) :
    leaves.length - 1 ≤ i ∧ i < 2 * leaves.length - 1 := by
  rw [heapOf_get hlen] at h
  split_ifs at h with h₁ h₂
  · exact ⟨h₂, h₁⟩
  · cases h

theorem all_startConsuming (hlen : leaves.length = 2 ^ Nat.log2 leaves.length) (numBlocks i : ℕ) :
    (startConsumingTaskAndGetBufHandle (heapOf leaves) numBlocks i : Act L P _).All
      (Quiet leaves) := by
  unfold startConsumingTaskAndGetBufHandle
  cases hget : (heapOf leaves).get i with
  | none => trivial
  | some kind =>
      cases kind with
      | leaf =>
          have hle := (le_of_get_leaf hlen hget).1
          have hstate : readyState leaves i = 2 := if_neg (not_lt.mpr hle)
          apply Prog.all_bind
          · apply Prog.all_bind (all_loadState i)
            intro state
            split_ifs
            · exact all_loadBufferId i
            · trivial
          · intro id
            cases id with
            | none => trivial
            | some b =>
                apply Prog.all_bind
                · exact all_compareExchange (by rw [hstate]; exact fun _ => by decide)
                    fun hlt => absurd hlt (not_lt.mpr hle)
                · intro ok
                  split <;> trivial
      | node =>
          have hlt := lt_of_get_node hlen hget
          have hstate : readyState leaves i = 4 := if_pos hlt
          apply Prog.all_bind
          · apply Prog.all_bind (all_loadState i)
            intro state
            split_ifs
            · exact all_loadBufferId i
            · trivial
          · intro id
            cases id with
            | none => trivial
            | some b =>
                apply Prog.all_bind
                · exact all_compareExchange (by rw [hstate]; exact fun _ => by decide)
                    fun _ => by decide
                · intro ok
                  split <;> trivial

theorem all_setConsumedTask (hlen : leaves.length = 2 ^ Nat.log2 leaves.length) (i : ℕ) :
    (setConsumedTask (heapOf leaves) i : Act L P Unit).All (Quiet leaves) := by
  unfold setConsumedTask
  cases hget : (heapOf leaves).get i with
  | none => trivial
  | some kind =>
      cases kind with
      | leaf =>
          have hle := (le_of_get_leaf hlen hget).1
          have hstate : readyState leaves i = 2 := if_neg (not_lt.mpr hle)
          exact Prog.all_bind (all_compareExchange (by rw [hstate]; exact fun _ => by decide)
            fun hlt => absurd hlt (not_lt.mpr hle)) fun _ => trivial
      | node =>
          have hstate : readyState leaves i = 4 := if_pos (lt_of_get_node hlen hget)
          exact Prog.all_bind (all_compareExchange (by rw [hstate]; exact fun _ => by decide)
            fun _ => by decide) fun _ => trivial

theorem all_clearBufferId (heap : TaskHeap) (i : ℕ) :
    (clearBufferId heap i : Act L P Unit).All (Quiet leaves) := by
  unfold clearBufferId
  cases heap.get i with
  | none => trivial
  | some kind => exact all_storeBufferId i none

/-- A quiet program changes nothing in the ledger. -/
theorem tracked_quiet {α : Type} {p : Act L P α} (h : p.All (Quiet leaves)) :
    Tracked (observe leaves numWorkers) (Ledger leaves) t (fun _ r' => r' = r) p r := by
  refine tracked_of_all h fun update hupdate s n rs hL => ?_
  obtain ⟨hneutral, hstarted⟩ := hupdate s
  exact hL.neutral hneutral fun p hp hs => Or.inl (hstarted p hp hs)

end Quiet

/-! ## Actions that the ledger notices -/

section Actions

variable {L P Proof E : Type} {leaves : List L} {numWorkers : ℕ} {t : Thread} {r : Hand}

variable {i : ℕ}

/-- A leaf in hand becomes ready; a task that is in hand stays there where it does not. -/
theorem tracked_leafReady (hi : leaves.length - 1 ≤ i) (hlt : i < 2 * leaves.length - 1)
    (h0 : 0 < i) :
    Tracked (observe leaves numWorkers) (Ledger leaves) t
      (fun ok r' => r' = if ok then .ready i else .task i)
      (LeafTask.trySetReady i : Act L P Bool) (.task i) := by
  have hnode : ¬i < leaves.length - 1 := not_lt.mpr hi
  have hready : readyState leaves i = LeafState.ready := if_neg hnode
  refine tracked_atomic fun s n rs hL hr => ?_
  by_cases hstate : (s.tasks i).state = LeafState.processing
  · simp only [hstate, if_true]
    refine ⟨_, hL.ready hr h0 ?_ ?_ (fun hlt => absurd hlt hnode) hready.symm, rfl⟩
    · unfold up
      omega
    · rw [hready, hstate]
      decide
  · simp only [hstate, if_false]
    refine ⟨.task i, ?_, rfl⟩
    rw [observe_self, ← hr, Function.update_eq_self]
    exact hL

theorem tracked_nodeReady (hi : i < leaves.length - 1) (h0 : 0 < i) :
    Tracked (observe leaves numWorkers) (Ledger leaves) t
      (fun ok r' => r' = if ok then .ready i else .task i)
      (NodeTask.trySetReady i : Act L P Bool) (.task i) := by
  have hready : readyState leaves i = NodeState.processedWaitingForConsumption := if_pos hi
  refine tracked_atomic fun s n rs hL hr => ?_
  by_cases hstate : (s.tasks i).state = NodeState.processing
  · simp only [hstate, if_true]
    refine ⟨_, hL.ready hr h0 ?_ ?_ (fun _ => hstate) hready.symm, rfl⟩
    · unfold up
      omega
    · rw [hready, hstate]
      decide
  · simp only [hstate, if_false]
    refine ⟨.task i, ?_, rfl⟩
    rw [observe_self, ← hr, Function.update_eq_self]
    exact hL

/-- A state of a node that is in hand changes, where it is and remains beyond the count of its
children. -/
theorem Ledger.setNode {s : State L P} {h : History} {hand : Thread → Hand}
    (hL : Ledger leaves (s, h) hand) (hhand : hand t = .task i) {task : Task}
    (hready : 0 < i → task.state ≠ readyState leaves i) (hcount : 2 ≤ task.state) :
    Ledger leaves (s.setTask i task, observe leaves numWorkers t s (s.setTask i task) h) hand := by
  have hq : i < leaves.length - 1 → enqueuers (h i) ≠ [] ∧ 2 ≤ (s.tasks i).state := by
    intro hi
    obtain ⟨place, arrived, hT, hA⟩ := hL
    have hne : enqueuers (h i) ≠ [] := by
      intro hnil
      have hplace := hT.held t i hhand
      rw [hA.source i hi hnil] at hplace
      cases hplace
    exact ⟨hne, hA.two_le_of_enqueued hi hne⟩
  apply hL.neutral
  · refine ⟨rfl, rfl, rfl, fun c hc => ?_, fun p hp => ?_⟩
    · rw [setTask_state]
      split_ifs with hci
      · exact fun hnew => absurd hnew (hci ▸ hready (hci ▸ hc))
      · exact id
    · rw [setTask_state]
      split_ifs with hpi
      · have htwo := (hq (hpi ▸ hp)).2
        rw [hpi]
        omega
      · rfl
  · intro p hp hs
    rw [setTask_state] at hs
    split_ifs at hs with hpi
    · exact Or.inr (hpi ▸ (hq (hpi ▸ hp)).1)
    · exact Or.inl hs

/-- What has been noted stays. -/
theorem enqueuers_observe_ne_nil {s s' : State L P} {h : History} {p : ℕ}
    (hne : enqueuers (h p) ≠ []) :
    enqueuers (observe leaves numWorkers t s s' h p) ≠ [] := by
  unfold observe
  split_ifs
  · rw [enqueuers_append]
    exact List.append_ne_nil_of_left_ne_nil hne _
  · exact hne

/-- The root becomes ready. -/
theorem tracked_rootReady (hn : 0 < leaves.length - 1) :
    Tracked (observe leaves numWorkers) (Ledger leaves) t
      (fun ok r' => r' = if ok then .rooted else .task 0)
      (NodeTask.trySetReady 0 : Act L P Bool) (.task 0) := by
  refine tracked_atomic fun s n rs hL hr => ?_
  by_cases hstate : (s.tasks 0).state = NodeState.processing
  · simp only [hstate, if_true]
    have hroot : enqueuers (n 0) ≠ [] := by
      obtain ⟨place, arrived, -, hA⟩ := hL
      exact hA.started 0 hn hstate.ge
    have hL' : Ledger leaves
        (s.setTask 0 { s.tasks 0 with state := NodeState.processedWaitingForConsumption },
          observe leaves numWorkers t s (s.setTask 0 { s.tasks 0 with
            state := NodeState.processedWaitingForConsumption }) n) rs :=
      hL.setNode hr nofun (by show 2 ≤ 4; decide)
    refine ⟨.rooted, hL'.setHand (by rw [hr]; trivial) trivial ?_ ?_ nofun nofun, rfl⟩
    · exact fun _ => enqueuers_observe_ne_nil hroot
    · rintro w rfl _
      obtain ⟨place, arrived, hT, -⟩ := hL
      exact hT.empty w (by rw [hr]; nofun)
  · simp only [hstate, if_false]
    refine ⟨.task 0, ?_, rfl⟩
    rw [observe_self, ← hr, Function.update_eq_self]
    exact hL

theorem tracked_nodeStart {i b : ℕ} :
    Tracked (observe leaves numWorkers) (Ledger leaves) t (fun _ r' => r' = .task i)
      (NodeTask.tryStartProcessing i b : Act L P Bool) (.task i) := by
  unfold NodeTask.tryStartProcessing
  apply tracked_bind (tracked_quiet (all_storeBufferId i (some b)))
  rintro _ _ rfl
  have hswap : Tracked (observe leaves numWorkers) (Ledger leaves) t (fun _ r' => r' = .task i)
      (compareExchange i NodeState.waitingBothChildren NodeState.processing : Act L P Bool)
      (.task i) := by
    refine tracked_atomic fun s n rs hL hr => ⟨.task i, ?_, rfl⟩
    rw [← hr, Function.update_eq_self]
    by_cases hstate : (s.tasks i).state = NodeState.waitingBothChildren
    · simp only [hstate, if_true]
      refine hL.setNode hr (fun _ => ?_) (by show 2 ≤ 3; decide)
      show NodeState.processing ≠ readyState leaves i
      unfold readyState
      split_ifs <;> decide
    · simp only [hstate, if_false, observe_self]
      exact hL
  apply tracked_bind hswap
  rintro ok _ rfl
  cases ok with
  | true => exact tracked_ret rfl
  | false =>
      apply tracked_bind (tracked_quiet (all_storeBufferId i none))
      rintro _ _ rfl
      exact tracked_ret rfl

theorem tracked_storeWaiting (hi : i < leaves.length - 1) :
    Tracked (observe leaves numWorkers) (Ledger leaves) t (fun _ r' => r' = .task i)
      (storeState i NodeState.waitingBothChildren : Act L P Unit) (.task i) := by
  refine tracked_atomic fun s n rs hL hr => ⟨.task i, ?_, rfl⟩
  rw [← hr, Function.update_eq_self]
  refine hL.setNode hr (fun _ => ?_) le_rfl
  rw [readyState, if_pos hi]
  show NodeState.waitingBothChildren ≠ NodeState.processedWaitingForConsumption
  decide

/-- The parent is told: the first child is counted, the second makes it ready. -/
theorem tracked_notifyChildReady {c : ℕ} :
    Tracked (observe leaves numWorkers) (Ledger leaves) t
      (fun both r' => (both = false ∧ r' = .idle) ∨ (both = true ∧ r' = .owes (up c)))
      (NodeTask.notifyChildReady (up c) : Act L P Bool) (.ready c) := by
  unfold NodeTask.notifyChildReady
  have hfirst : Tracked (observe leaves numWorkers) (Ledger leaves) t
      (fun ok r' => r' = if ok then .idle else .told c)
      (NodeTask.tryGotFirstChild (up c) : Act L P Bool) (.ready c) := by
    refine tracked_atomic fun s n rs hL hr => ?_
    by_cases hstate : (s.tasks (up c)).state = NodeState.notStarted
    · simp only [hstate, if_true]
      exact ⟨_, hL.count (by rw [hr]; rfl) hstate Nat.zero_lt_two rfl, rfl⟩
    · simp only [hstate, if_false]
      refine ⟨.told c, ?_, rfl⟩
      rw [observe_self]
      exact hL.told hr hstate
  apply tracked_bind hfirst
  rintro ok _ rfl
  cases ok with
  | true => exact tracked_ret (Or.inl ⟨rfl, rfl⟩)
  | false =>
      refine tracked_atomic fun s n rs hL hr => ?_
      have hstate := hL.state_of_told hr
      simp only [hstate, if_true]
      exact ⟨_, hL.count (by rw [hr]; rfl) hstate Nat.one_lt_two rfl, Or.inr ⟨trivial, rfl⟩⟩

theorem tracked_pushReady {w p : ℕ} (hw : w < numWorkers) :
    Tracked (observe leaves numWorkers) (Ledger leaves) (.worker w) (fun _ r' => r' = .free)
      (pushReady w p : Act L P Bool) (.owes p) := by
  refine tracked_atomic fun s n rs hL hr => ?_
  obtain ⟨hnil, hL'⟩ := hL.pushReady hr hw
  have hcap : ([] : List ℕ).length < readyQCap := by decide
  simp only [hnil, hcap, if_true, List.nil_append]
  exact ⟨.free, hL', rfl⟩

theorem tracked_popReady {w : ℕ} (hr : r.Settled) :
    Tracked (observe leaves numWorkers) (Ledger leaves) (.worker w)
      (fun o r' => (o = none ∧ r' = .idle) ∨ ∃ i < leaves.length - 1, o = some i ∧ r' = .task i)
      (popReady w : Act L P _) r := by
  refine tracked_atomic fun s n rs hL hrs => ?_
  have hold : (rs (.worker w)).Settled := by rwa [hrs]
  cases hpop : s.readyQ w with
  | nil =>
      refine ⟨.idle, ?_, Or.inl ⟨rfl, rfl⟩⟩
      rw [observe_self]
      refine hL.setHand hold trivial nofun ?_ nofun nofun
      rintro _ ⟨⟩ _
      exact hpop
  | cons i rest =>
      obtain ⟨hi, hL'⟩ := hL.popReady hold hpop
      refine ⟨.task i, ?_, Or.inr ⟨i, hi, rfl, rfl⟩⟩
      rw [observe_of_tasks]
      · exact hL'
      · rfl
      · intro v p
        apply setReadyQ_ne_append
        rw [hpop]
        apply ne_append_of_length_le
        rw [List.length_cons]
        omega

theorem tracked_popLeaf {w : ℕ} :
    Tracked (observe leaves numWorkers) (Ledger leaves) (.worker w)
      (fun o r' => (o = none ∧ r' = .idle) ∨ ∃ l i, o = some (l, i) ∧ r' = .task i)
      (popLeaf w : Act L P _) .idle := by
  refine tracked_atomic fun s n rs hL hr => ?_
  cases hpop : s.leafQ w with
  | nil =>
      refine ⟨.idle, ?_, Or.inl ⟨rfl, rfl⟩⟩
      rw [observe_self, ← hr, Function.update_eq_self]
      exact hL
  | cons x rest =>
      refine ⟨.task x.2, ?_, Or.inr ⟨x.1, x.2, rfl, rfl⟩⟩
      rw [observe_of_tasks]
      · exact hL.popLeaf hr hpop
      · rfl
      · exact fun v p => ne_append_of_length_le le_rfl

theorem tracked_pushLeaf {w k : ℕ} {l : L} (hk : leaves.length - 1 ≤ k) :
    Tracked (observe leaves numWorkers) (Ledger leaves) .producer
      (fun ok r' => r' = .cursor (if ok then k + 1 else k))
      (pushLeaf w (l, k) : Act L P Bool) (.cursor k) := by
  refine tracked_atomic fun s n rs hL hr => ?_
  by_cases hlen : (s.leafQ w).length < readyQCap
  · simp only [hlen, if_true]
    refine ⟨_, ?_, rfl⟩
    rw [observe_of_tasks]
    · exact hL.pushLeaf hr hk
    · rfl
    · exact fun v p => ne_append_of_length_le le_rfl
  · simp only [hlen, if_false]
    refine ⟨.cursor k, ?_, rfl⟩
    rw [observe_self, ← hr, Function.update_eq_self]
    exact hL

end Actions

/-! ## The methods of a worker -/

section Worker

variable {L P Proof E : Type} {leaves : List L} {numWorkers numBlocks w i : ℕ}
  {R : FoldReducer L P Proof E}

theorem tracked_notifyParent (hlen : leaves.length = 2 ^ Nat.log2 leaves.length)
    (hw : w < numWorkers) (h0 : 0 < i) (hi : up i < leaves.length - 1) :
    Tracked (observe leaves numWorkers) (Ledger leaves) (.worker w) (fun _ r' => r'.Settled)
      (notifyParent (heapOf leaves) w i : Act L P Unit) (.ready i) := by
  have hparent : TaskHeap.parent i = some (up i) := if_neg h0.ne'
  unfold notifyParent
  rw [hparent]
  simp only [heapOf_get_node hlen hi]
  apply tracked_bind tracked_notifyChildReady
  rintro both r' (⟨rfl, rfl⟩ | ⟨rfl, rfl⟩)
  · exact tracked_ret trivial
  · apply tracked_bind (tracked_pushReady hw)
    rintro _ _ rfl
    exact tracked_ret trivial

variable {b : ℕ}

/-- Buffers are given back at the end. -/
theorem tracked_releaseEnd {α : Type} {r : Hand} {a : α} (hr : r.Settled) :
    Tracked (observe leaves numWorkers) (Ledger leaves) (.worker w) (fun _ r' => r'.Settled)
      (do claimAndRelease numBlocks b; return a : Act L P α) r := by
  apply tracked_bind (tracked_quiet (all_claimAndRelease numBlocks b))
  rintro _ _ rfl
  exact tracked_ret hr

/-- A leaf becomes ready and tells its parent, if it has one. -/
theorem tracked_finishLeaf (hlen : leaves.length = 2 ^ Nat.log2 leaves.length) (hw : w < numWorkers)
    (hi : leaves.length - 1 ≤ i) (hlt : i < 2 * leaves.length - 1) {acc : P} :
    Tracked (observe leaves numWorkers) (Ledger leaves) (.worker w) (fun _ r' => r'.Settled)
      (finishLeaf (heapOf leaves) numBlocks w i b acc : Act L P (Run (WorkerError E) Unit))
      (.task i) := by
  unfold finishLeaf
  cases claim numBlocks b with
  | none => exact tracked_ret trivial
  | some b =>
      apply tracked_bind (tracked_quiet (all_write b acc))
      rintro _ _ rfl
      by_cases h0 : i = 0
      · -- the only leaf is the root
        subst h0
        have hquiet : (LeafTask.trySetReady 0 : Act L P Bool).All (Quiet leaves) :=
          all_compareExchange (fun h0 => absurd h0 (lt_irrefl 0))
            fun hlt => absurd hlt (not_lt.mpr hi)
        apply tracked_bind (tracked_quiet hquiet)
        rintro ok _ rfl
        cases ok with
        | true => exact tracked_ret trivial
        | false => exact tracked_releaseEnd trivial
      · have hpos := Nat.pos_of_ne_zero h0
        apply tracked_bind (tracked_leafReady hi hlt hpos)
        rintro ok _ rfl
        cases ok with
        | true =>
            have hup : up i < leaves.length - 1 := by
              unfold up
              omega
            exact tracked_bind (tracked_notifyParent hlen hw hpos hup) fun _ _ hr => tracked_ret hr
        | false => exact tracked_releaseEnd trivial

theorem tracked_leafStart (hi : leaves.length - 1 ≤ i) {t : Thread} :
    Tracked (observe leaves numWorkers) (Ledger leaves) t (fun _ r' => r' = .task i)
      (LeafTask.tryStartProcessing i b : Act L P Bool) (.task i) := by
  have hready : readyState leaves i = LeafState.ready := if_neg (not_lt.mpr hi)
  apply tracked_quiet
  unfold LeafTask.tryStartProcessing
  apply Prog.all_bind (all_storeBufferId i (some b))
  intro _
  apply Prog.all_bind
  · apply all_compareExchange
    · rw [hready]
      exact fun _ => by decide
    · exact fun hlt => absurd hlt (not_lt.mpr hi)
  · intro ok
    cases ok with
    | true => trivial
    | false => exact Prog.all_bind (all_storeBufferId i none) fun _ => trivial

theorem tracked_processLeafInput (hlen : leaves.length = 2 ^ Nat.log2 leaves.length)
    (hw : w < numWorkers) (hi : leaves.length - 1 ≤ i) (hlt : i < 2 * leaves.length - 1) {leaf : L} :
    Tracked (observe leaves numWorkers) (Ledger leaves) (.worker w) (fun _ r' => r'.Settled)
      (processLeafInput (heapOf leaves) numBlocks R w leaf i b) (.task i) := by
  have hready : readyState leaves i = LeafState.ready := if_neg (not_lt.mpr hi)
  unfold processLeafInput
  apply tracked_bind (tracked_leafStart hi)
  rintro ok _ rfl
  cases ok with
  | false => exact tracked_releaseEnd trivial
  | true =>
      simp only [if_true]
      cases R.strictToAcc leaf with
      | ok acc => exact tracked_finishLeaf hlen hw hi hlt
      | error e =>
          have hreset : (storeState i LeafState.notStarted : Act L P Unit).All (Quiet leaves) := by
            refine Prog.all_atomic fun s => ⟨⟨rfl, rfl, rfl, fun c _ => ?_, fun p hp => ?_⟩,
              fun p hp => ?_⟩
            · dsimp only
              rw [setTask_state]
              split_ifs with hci
              · rw [hci, hready]
                intro hnew
                cases hnew
              · exact id
            · dsimp only
              rw [setTask_state, if_neg (by omega)]
            · dsimp only
              rw [setTask_state, if_neg (by omega)]
              exact id
          apply tracked_bind (tracked_quiet hreset)
          rintro _ _ rfl
          apply tracked_bind (tracked_quiet (all_storeBufferId i none))
          rintro _ _ rfl
          exact tracked_releaseEnd trivial

/-- What a worker has after an inner node; it has seen the root if that was the root. -/
def AfterNode (i : ℕ) (result : Run (WorkerError E) Unit) (r : Hand) : Prop :=
  r.Settled ∧ (result = .ok () → i = 0 → r = .rooted)

theorem tracked_publishInnerNode (hlen : leaves.length = 2 ^ Nat.log2 leaves.length)
    (hw : w < numWorkers) (hi : i < leaves.length - 1) {left : ℕ} :
    Tracked (observe leaves numWorkers) (Ledger leaves) (.worker w) (AfterNode (E := E) i)
      (publishInnerNode (heapOf leaves) numBlocks w i left : Act L P _) (.task i) := by
  have hback : ∀ e : WorkerError E, Tracked (observe leaves numWorkers) (Ledger leaves) (.worker w)
      (AfterNode (E := E) i) (do
        claimAndRelease numBlocks left
        return .error (.error e) : Act L P (Run (WorkerError E) Unit)) (.task i) := by
    intro e
    apply tracked_bind (tracked_quiet (all_claimAndRelease numBlocks left))
    rintro _ _ rfl
    exact tracked_ret ⟨trivial, nofun⟩
  unfold publishInnerNode
  apply tracked_bind tracked_nodeStart
  rintro ok _ rfl
  cases ok with
  | false =>
      apply tracked_bind (tracked_storeWaiting hi)
      rintro _ _ rfl
      exact hback _
  | true =>
      simp only [if_true]
      have hfail : ∀ e : WorkerError E, Tracked (observe leaves numWorkers) (Ledger leaves)
          (.worker w) (AfterNode (E := E) i) (do
            storeState i NodeState.waitingBothChildren
            storeBufferId i none
            claimAndRelease numBlocks left
            return .error (.error e) : Act L P (Run (WorkerError E) Unit)) (.task i) := by
        intro e
        apply tracked_bind (tracked_storeWaiting hi)
        rintro _ _ rfl
        apply tracked_bind (tracked_quiet (all_storeBufferId i none))
        rintro _ _ rfl
        exact hback e
      by_cases h0 : i = 0
      · subst h0
        apply tracked_bind (tracked_rootReady hi)
        rintro ok _ rfl
        cases ok with
        | false => exact hfail _
        | true =>
            have hparent : notifyParent (L := L) (P := P) (heapOf leaves) w 0 = .ret () := rfl
            simp only [if_true, hparent, Prog.ret_bind]
            apply tracked_bind (tracked_quiet (all_setConsumedTask hlen _))
            rintro _ _ rfl
            apply tracked_bind (tracked_quiet (all_setConsumedTask hlen _))
            rintro _ _ rfl
            exact tracked_ret ⟨trivial, fun _ _ => rfl⟩
      · have hpos := Nat.pos_of_ne_zero h0
        apply tracked_bind (tracked_nodeReady hi hpos)
        rintro ok _ rfl
        cases ok with
        | false => exact hfail _
        | true =>
            have hup : up i < leaves.length - 1 := (up_lt hpos).trans hi
            simp only [if_true, h0, if_false]
            apply tracked_bind (tracked_notifyParent hlen hw hpos hup)
            exact fun _ _ hr => tracked_ret ⟨hr, fun _ heq => absurd heq h0⟩

theorem tracked_finishInnerNode (hlen : leaves.length = 2 ^ Nat.log2 leaves.length)
    (hw : w < numWorkers) (hi : i < leaves.length - 1) {left right : ℕ} {acc : P} :
    Tracked (observe leaves numWorkers) (Ledger leaves) (.worker w) (AfterNode (E := E) i)
      (finishInnerNode (heapOf leaves) numBlocks w i left right acc) (.task i) := by
  unfold finishInnerNode
  apply tracked_bind (tracked_quiet (all_setConsumedTask hlen _))
  rintro _ _ rfl
  apply tracked_bind (tracked_quiet (all_setConsumedTask hlen _))
  rintro _ _ rfl
  apply tracked_bind (tracked_quiet (all_clearBufferId _ _))
  rintro _ _ rfl
  apply tracked_bind (tracked_quiet (all_clearBufferId _ _))
  rintro _ _ rfl
  apply tracked_bind (tracked_quiet (all_releaseQuiet right))
  rintro _ _ rfl
  apply tracked_bind (tracked_quiet (all_write left acc))
  rintro _ _ rfl
  exact tracked_publishInnerNode hlen hw hi

theorem tracked_foldChildren (hlen : leaves.length = 2 ^ Nat.log2 leaves.length)
    (hw : w < numWorkers) (hi : i < leaves.length - 1) {left right : ℕ} :
    Tracked (observe leaves numWorkers) (Ledger leaves) (.worker w) (AfterNode i)
      (foldChildren (heapOf leaves) numBlocks R w i left right) (.task i) := by
  unfold foldChildren
  apply tracked_bind (tracked_quiet (all_read left))
  rintro accLeft _ rfl
  cases accLeft with
  | none => exact tracked_ret ⟨trivial, nofun⟩
  | some accLeft =>
      apply tracked_bind (tracked_quiet (all_read right))
      rintro accRight _ rfl
      cases accRight with
      | none => exact tracked_ret ⟨trivial, nofun⟩
      | some accRight =>
          dsimp only
          cases R.foldAccAcc accLeft accRight with
          | ok pair => exact tracked_finishInnerNode hlen hw hi
          | error e =>
              apply tracked_bind (tracked_quiet (all_releaseQuiet left))
              rintro _ _ rfl
              apply tracked_bind (tracked_quiet (all_releaseQuiet right))
              rintro _ _ rfl
              exact tracked_ret ⟨trivial, nofun⟩

theorem tracked_processReadyInnerNode (hlen : leaves.length = 2 ^ Nat.log2 leaves.length)
    (hw : w < numWorkers) :
    Tracked (observe leaves numWorkers) (Ledger leaves) (.worker w) (AfterNode i)
      (processReadyInnerNode (heapOf leaves) numBlocks R w i) (.task i) := by
  have hend : ∀ failure, Tracked (observe leaves numWorkers) (Ledger leaves) (.worker w)
      (AfterNode (E := E) i) (.ret (.error failure) : Act L P (Run (WorkerError E) Unit))
      (.task i) := fun _ => tracked_ret ⟨trivial, nofun⟩
  unfold processReadyInnerNode
  cases hget : (heapOf leaves).get i with
  | none => exact hend _
  | some kind =>
      cases kind with
      | leaf => exact hend _
      | node =>
          apply tracked_bind (tracked_quiet (all_loadState i))
          rintro state _ rfl
          split_ifs with hstate
          · exact hend _
          · apply tracked_bind (tracked_quiet (all_startConsuming hlen numBlocks _))
            rintro left _ rfl
            cases left with
            | none => exact hend _
            | some left =>
                apply tracked_bind (tracked_quiet (all_startConsuming hlen numBlocks _))
                rintro right _ rfl
                cases right with
                | none =>
                    apply tracked_bind (tracked_quiet (all_releaseQuiet left))
                    rintro _ _ rfl
                    exact hend _
                | some right =>
                    exact tracked_foldChildren hlen hw (lt_of_get_node hlen hget)

end Worker

/-! ## The threads -/

section Threads

variable {L P Proof E : Type} (F : ParallelTreeFolder L P Proof E) (leaves : List L)

/-- What a thread has in hand at a label. -/
def HandPost : Thread → Label L P → Hand → Prop
  | .worker w, .top, r => w < F.numCores ∧ r.Settled
  | .worker w, .alloc _ i, r =>
      w < F.numCores ∧ r = .task i ∧ leaves.length - 1 ≤ i ∧ i < 2 * leaves.length - 1
  | .producer, .next _ k, r => r = .cursor k ∧ leaves.length - 1 ≤ k
  | .caller, .returned _, r => r = .rooted
  | _, _, r => r.Settled

variable {F leaves} {t : Thread} {r : Hand}

/-- At a label no child is to be reported and no node to be pushed. -/
theorem HandPost.settled {l : Label L P} (h : HandPost F leaves t l r) : r.Settled := by
  unfold HandPost at h
  split at h
  · exact h.2
  · rw [h.2.1]
    trivial
  · rw [h.1]
    trivial
  · rw [h]
    trivial
  · exact h

/-- The observer of the folder. -/
abbrev ParallelTreeFolder.note (F : ParallelTreeFolder L P Proof E) (leaves : List L) :
    Thread → State L P → State L P → History → History := observe leaves F.numCores

theorem all_loadStop : (loadStop : Act L P Bool).All (Quiet leaves) := Prog.all_atomic quiet_load

theorem all_freeCount : (freeCount : Act L P ℕ).All (Quiet leaves) := Prog.all_atomic quiet_load

/-- The root has been in a queue, so the computation may end. -/
theorem tracked_storeStop :
    Tracked (F.note leaves) (Ledger leaves) t (fun _ r' => r' = .rooted)
      (storeStop : Act L P Unit) .rooted := by
  refine tracked_atomic fun s n rs hL hr => ⟨.rooted, ?_, rfl⟩
  have hnote : observe leaves F.numCores t s { s with stop := true } n = n :=
    observe_of_tasks rfl fun v p => ne_append_of_length_le le_rfl
  rw [← hr, Function.update_eq_self]
  simp only [hnote]
  obtain ⟨place, arrived, hT, hA⟩ := hL
  exact ⟨place, arrived, hT.congr rfl rfl,
    { hA with
      length := hA.length
      started := hA.started
      stop := fun _ => hA.rooted t hr }⟩

theorem tracked_workerRound (hlen : leaves.length = 2 ^ Nat.log2 leaves.length) {w : ℕ}
    (hw : w < F.numCores) (hr : r.Settled) :
    Tracked (F.note leaves) (Ledger leaves) (.worker w) (HandPost F leaves (.worker w))
      (workerRound (heapOf leaves) F.numBlocks F.reducer w) r := by
  unfold workerRound
  apply tracked_bind (tracked_quiet all_loadStop)
  rintro stop _ rfl
  cases stop with
  | true => exact tracked_ret hr
  | false =>
      simp only [Bool.false_eq_true, if_false]
      apply tracked_bind (tracked_popReady hr)
      rintro o r' (⟨rfl, rfl⟩ | ⟨i, -, rfl, rfl⟩)
      · apply tracked_bind tracked_popLeaf
        rintro o r' (⟨rfl, rfl⟩ | ⟨l, i, rfl, rfl⟩)
        · exact tracked_ret ⟨hw, trivial⟩
        · cases hget : (heapOf leaves).get i with
          | none =>
              simp only [hget]
              exact tracked_ret ⟨hw, trivial⟩
          | some kind =>
              simp only [hget]
              cases kind with
              | leaf => exact tracked_ret ⟨hw, rfl, le_of_get_leaf hlen hget⟩
              | node => exact tracked_ret ⟨hw, trivial⟩
      · apply tracked_bind (tracked_processReadyInnerNode hlen hw)
        rintro result r' ⟨hsettled, hroot⟩
        rcases result with (_ | e) | ⟨⟩
        · exact tracked_ret hsettled
        · exact tracked_ret ⟨hw, hsettled⟩
        · by_cases h0 : i = 0
          · obtain rfl := hroot rfl h0
            simp only [checkAndSignalCompletion, h0, if_true, Prog.bind_assoc]
            apply tracked_bind tracked_storeStop
            rintro _ _ rfl
            exact tracked_ret trivial
          · simp only [checkAndSignalCompletion, h0, if_false]
            exact tracked_ret ⟨hw, hsettled⟩

theorem tracked_allocRound (hlen : leaves.length = 2 ^ Nat.log2 leaves.length) {w i : ℕ}
    {leaf : L} (hw : w < F.numCores) (hi : leaves.length - 1 ≤ i)
    (hlt : i < 2 * leaves.length - 1) :
    Tracked (F.note leaves) (Ledger leaves) (.worker w) (HandPost F leaves (.worker w))
      (allocRound (heapOf leaves) F.numBlocks F.reducer w leaf i) (.task i) := by
  unfold allocRound
  apply tracked_bind (tracked_quiet all_alloc)
  rintro o _ rfl
  cases o with
  | none =>
      apply tracked_bind (tracked_quiet all_freeCount)
      rintro _ _ rfl
      exact tracked_ret ⟨hw, rfl, hi, hlt⟩
  | some b =>
      apply tracked_bind (tracked_processLeafInput hlen hw hi hlt)
      rintro result r' hsettled
      rcases result with (_ | e) | ⟨⟩
      · exact tracked_ret hsettled
      · exact tracked_ret ⟨hw, hsettled⟩
      · exact tracked_ret ⟨hw, hsettled⟩

theorem tracked_producerRound {rest : List L} {k : ℕ} (hk : leaves.length - 1 ≤ k) :
    Tracked (F.note leaves) (Ledger leaves) .producer (HandPost F leaves .producer)
      (producerRound (heapOf leaves) F.numCores rest k) (.cursor k) := by
  unfold producerRound
  cases rest with
  | nil => exact tracked_ret trivial
  | cons leaf rest =>
      simp only
      split_ifs
      · exact tracked_ret trivial
      · apply tracked_bind (tracked_pushLeaf hk)
        rintro ok _ rfl
        cases ok with
        | true => exact tracked_ret ⟨rfl, Nat.le_succ_of_le hk⟩
        | false =>
            simp only [Bool.false_eq_true, if_false]
            apply tracked_bind (tracked_quiet all_loadStop)
            rintro stop _ rfl
            cases stop with
            | true => exact tracked_ret trivial
            | false => exact tracked_ret ⟨rfl, hk⟩

/-- When the caller sees the stop flag the root has been in a queue. -/
theorem tracked_callerLoadStop (hr : r.Settled) :
    Tracked (F.note leaves) (Ledger leaves) .caller
      (fun stop r' => r' = if stop then .rooted else r) (loadStop : Act L P Bool) r := by
  refine tracked_atomic fun s n rs hL hrs => ?_
  have hnote : F.note leaves .caller s s n = n := observe_self
  simp only [hnote]
  cases hstop : s.stop with
  | false =>
      refine ⟨r, ?_, rfl⟩
      rw [← hrs, Function.update_eq_self]
      exact hL
  | true =>
      have hroot : enqueuers (n 0) ≠ [] := by
        obtain ⟨place, arrived, -, hA⟩ := hL
        exact hA.stop hstop
      exact ⟨.rooted, hL.setHand (by rwa [hrs]) trivial (fun _ => hroot) nofun nofun nofun, rfl⟩

theorem all_getRootResultQuiet (heap : TaskHeap) (numBlocks : ℕ) :
    (getRootResult heap numBlocks : Act L P _).All (Quiet leaves) := by
  unfold getRootResult
  split
  · apply Prog.all_bind
    · apply Prog.all_bind (all_loadState 0)
      intro state
      split_ifs
      · exact all_loadBufferId 0
      · trivial
    · intro id
      cases id with
      | none => trivial
      | some b =>
          simp only
          split
          · trivial
          · apply Prog.all_bind (all_read _)
            intro value
            cases value with
            | none => trivial
            | some value => exact Prog.all_bind (all_releaseQuiet _) fun _ => trivial
  · trivial

theorem tracked_callerRound (hr : r.Settled) :
    Tracked (F.note leaves) (Ledger leaves) .caller (HandPost F leaves .caller)
      (callerRound (heapOf leaves) F.numBlocks) r := by
  unfold callerRound
  apply tracked_bind (tracked_callerLoadStop hr)
  rintro stop _ rfl
  cases stop with
  | false => exact tracked_ret hr
  | true =>
      simp only [if_true]
      apply tracked_bind (tracked_quiet (all_getRootResultQuiet _ _))
      rintro result _ rfl
      rcases result with failure | (_ | value)
      · exact tracked_ret trivial
      · exact tracked_ret rfl
      · apply tracked_bind tracked_storeStop
        rintro _ _ rfl
        exact tracked_ret rfl

/-- All rounds of all threads keep the ledger. -/
theorem tracked_code (hlen : leaves.length = 2 ^ Nat.log2 leaves.length) (t : Thread)
    (l : Label L P) (p : Act L P (Label L P)) (r : Hand) (hcode : F.code leaves t l = some p)
    (hpost : HandPost F leaves t l r) :
    Tracked (F.note leaves) (Ledger leaves) t (HandPost F leaves t) p r := by
  unfold ParallelTreeFolder.code at hcode
  split at hcode
  · obtain rfl := Option.some.inj hcode
    exact tracked_workerRound hlen hpost.1 hpost.2
  · obtain rfl := Option.some.inj hcode
    obtain ⟨hw, rfl, hi, hlt⟩ := hpost
    exact tracked_allocRound hlen hw hi hlt
  · obtain rfl := Option.some.inj hcode
    obtain ⟨rfl, hk⟩ := hpost
    exact tracked_producerRound hk
  · obtain rfl := Option.some.inj hcode
    exact tracked_callerRound hpost
  · cases hcode

/-- What the threads have in hand in the beginning. -/
def initialHand (leaves : List L) : Thread → Hand
  | .producer => .cursor (leaves.length - 1)
  | _ => .free

theorem ledger_initial : Ledger leaves (F.initialState, fun _ => []) (initialHand leaves) := by
  have hsettled : ∀ t, (initialHand leaves t).Settled := by
    intro t
    cases t <;> trivial
  have hchild : ∀ t c, (initialHand leaves t).child ≠ some c := by
    intro t c
    rw [(hsettled t).child_eq_none]
    nofun
  refine ⟨fun _ => .source, fun _ => [], ?_, ?_⟩
  · constructor
    · exact fun _ _ hi => absurd hi List.not_mem_nil
    · exact fun _ _ hx => absurd hx List.not_mem_nil
    · exact fun _ => List.nodup_nil
    · exact fun _ => Nat.zero_le 1
    · exact fun _ _ => rfl
    · intro t i ht
      cases t <;> cases ht
    · exact fun _ _ _ _ _ => rfl
  · constructor
    · exact fun _ _ => rfl
    · exact fun _ _ => rfl
    · exact fun _ _ hx => absurd hx List.not_mem_nil
    · exact fun _ => List.nodup_nil
    · exact fun t c ht => absurd ht (hchild t c)
    · exact fun t _ c ht => absurd ht (hchild t c)
    · intro t c ht
      exact absurd (by rw [ht]; rfl) (hchild t c)
    · exact fun _ _ hc => absurd hc List.not_mem_nil
    · exact fun _ _ _ => List.not_mem_nil
    · exact fun _ _ _ => rfl
    · exact fun _ _ hs => absurd hs (by show ¬3 ≤ 0; decide)
    · exact fun t p ht => absurd ht ((hsettled t).ne_owes p)
    · exact fun _ _ => Or.inl ⟨rfl, Or.inl Nat.zero_lt_two⟩
    · nofun
    · intro t ht
      cases t <;> cases ht

theorem sound_ledger (hlen : leaves.length = 2 ^ Nat.log2 leaves.length) :
    Sound (Ledger leaves) (HandPost F leaves)
      ((F.initial leaves).record (F.note leaves) fun _ => []) := by
  refine ⟨initialHand leaves, ledger_initial, fun t => ?_⟩
  cases t with
  | worker w =>
      show HandPost F leaves (.worker w) (if w < F.numCores then .top else .halted) .free
      split_ifs with hw
      · exact ⟨hw, trivial⟩
      · trivial
  | producer => exact ⟨by rw [heapOf_leafStart hlen]; rfl, (heapOf_leafStart hlen).ge⟩
  | caller => trivial

end Threads

/-! ## Runs -/

section Runs

variable {L P Proof E : Type} (F : ParallelTreeFolder L P Proof E) (leaves : List L)

/-- What the threads come to in a run, and what has happened at each inner task. -/
def ParallelTreeFolder.Recorded (c : Config (State L P) Thread (Label L P)) (h : History) : Prop :=
  ∃ c₀, F.run leaves = .ok c₀ ∧
    Concurrent.Recorded (F.note leaves) (F.code leaves) c₀ (fun _ => []) c h

/-- **No readiness is lost or duplicated** in a state of a run. -/
structure Readiness (c : Config (State L P) Thread (Label L P)) (h : History) : Prop where
  /-- A task is enqueued at most once, after both children have been counted, by the thread
  that has counted the second. -/
  once : ∀ p < leaves.length - 1, enqueuers (h p) = [] ∨ ∃ t u a b, enqueuers (h p) = [u] ∧
    counters (h p) = [t, u] ∧ .ready t a ∈ h p ∧ .ready u b ∈ h p ∧
      (a = TaskHeap.left p ∧ b = TaskHeap.right p ∨ a = TaskHeap.right p ∧ b = TaskHeap.left p)
  /-- Once both children are ready the task has been enqueued, or a thread that has made one
  of them ready is not yet through with its round. -/
  soon : ∀ p < leaves.length - 1, (∃ t, .ready t (TaskHeap.left p) ∈ h p) →
    (∃ t, .ready t (TaskHeap.right p) ∈ h p) → enqueuers (h p) ≠ [] ∨
      ∃ t a, .ready t a ∈ h p ∧ ∀ l, c.threads t ≠ .ret l
  /-- A worker that is about to push has an empty queue, so that the push succeeds. -/
  push : ∀ w i (k : Bool → Act L P (Label L P)), c.threads (.worker w) = pushReady w i >>= k →
    c.state.readyQ w = [] ∧ ∀ c', Step (F.code leaves) (.worker w) c c' →
      c'.state.readyQ w = [i] ∧ c'.threads (.worker w) = k true
  /-- When `run` returns every inner task has been enqueued. -/
  all : ∀ result, c.threads .caller = .ret (.returned result) →
    ∀ p < leaves.length - 1, enqueuers (h p) ≠ []

variable {F leaves}

variable {c : Config (State L P) Thread (Label L P)}

/-- Every run has its history. -/
theorem ParallelTreeFolder.Reachable.exists_recorded (h : F.Reachable leaves c) :
    ∃ n, F.Recorded leaves c n := by
  obtain ⟨c₀, hrun, hsteps⟩ := h
  have hex : ∃ n, Concurrent.Recorded (F.note leaves) (F.code leaves) c₀ (fun _ => []) c n :=
    hsteps.exists_recorded fun _ => []
  obtain ⟨n, hn⟩ := hex
  exact ⟨n, c₀, hrun, hn⟩

variable {h : History}

theorem ParallelTreeFolder.Recorded.sound (hrun : F.Recorded leaves c h) :
    Sound (Ledger leaves) (HandPost F leaves) (c.record (F.note leaves) h) := by
  obtain ⟨c₀, hinit, hrun⟩ := hrun
  obtain ⟨hlen, rfl⟩ := run_eq_ok hinit
  exact Concurrent.Recorded.sound (fun _ _ _ => observe_self) (sound_ledger hlen)
    (tracked_code hlen) hrun

variable {arrived : ℕ → List (Thread × ℕ)} {hand : Thread → Hand} {place : ℕ → Place}

/-- Two children have been counted, one by each of two threads. -/
theorem Tally.exists_children {s : State L P} (hA : Tally leaves s h hand place arrived) {p : ℕ}
    {t u : Thread} (harrived : (arrived p).map Prod.fst = [t, u]) :
    ∃ a b, .ready t a ∈ h p ∧ .ready u b ∈ h p ∧
      (a = TaskHeap.left p ∧ b = TaskHeap.right p ∨
        a = TaskHeap.right p ∧ b = TaskHeap.left p) := by
  obtain ⟨x, rest, harr, rfl, hrest⟩ := List.map_eq_cons_iff.mp harrived
  obtain ⟨y, rest', rfl, rfl, hrest'⟩ := List.map_eq_cons_iff.mp hrest
  have hnodup := hA.nodup p
  obtain ⟨hx, hxp, hxready⟩ := hA.child p x (by rw [harr]; exact List.mem_cons_self)
  obtain ⟨hy, hyp, hyready⟩ := hA.child p y (by
    rw [harr]
    exact List.mem_cons_of_mem x List.mem_cons_self)
  have hne : x.2 ≠ y.2 := by
    intro heq
    rw [harr, List.map_cons, List.map_cons, heq, List.nodup_cons] at hnodup
    exact hnodup.1 List.mem_cons_self
  refine ⟨x.2, y.2, hxready, hyready, ?_⟩
  rcases (up_eq_iff hx).mp hxp with hx' | hx'
  · rcases (up_eq_iff hy).mp hyp with hy' | hy'
    · exact absurd (hx'.trans hy'.symm) hne
    · exact Or.inl ⟨hx', hy'⟩
  · rcases (up_eq_iff hy).mp hyp with hy' | hy'
    · exact Or.inr ⟨hx', hy'⟩
    · exact absurd (hx'.trans hy'.symm) hne

/-- Where a task has been enqueued its inner children have been. -/
theorem Tally.enqueued_of_parent {s : State L P} (hA : Tally leaves s h hand place arrived)
    (hroot : enqueuers (h 0) ≠ []) {p : ℕ} (hp : p < leaves.length - 1) : enqueuers (h p) ≠ [] := by
  induction p using Nat.strong_induction_on with
  | _ p ih =>
      by_cases h0 : p = 0
      · rwa [h0]
      · have hpos := Nat.pos_of_ne_zero h0
        have hup := up_lt hpos
        have hparent := ih (up p) hup (by omega)
        rcases hA.enqueued (up p) (by omega) with ⟨hnil, -⟩ | ⟨t, u, harrived, -⟩
        · exact absurd hnil hparent
        · obtain ⟨a, b, ha, hb, hab⟩ := hA.exists_children harrived
          have hready : ∃ v, .ready v p ∈ h (up p) := by
            have hcase := (up_eq_iff hpos).mp rfl
            rcases hab with ⟨rfl, rfl⟩ | ⟨rfl, rfl⟩
            · rcases hcase with heq | heq
              · exact ⟨t, by rwa [← heq] at ha⟩
              · exact ⟨u, by rwa [← heq] at hb⟩
            · rcases hcase with heq | heq
              · exact ⟨u, by rwa [← heq] at hb⟩
              · exact ⟨t, by rwa [← heq] at ha⟩
          obtain ⟨v, hv⟩ := hready
          -- a task that is ready has left its source
          intro hnil
          exact hA.unready v p (by rw [hA.source p hp hnil]; nofun) hv

/-- What a push to a queue that is not full does. -/
theorem step_of_push {c c' : Config (State L P) Thread (Label L P)} {w i : ℕ}
    {k : Bool → Act L P (Label L P)} (hthread : c.threads (.worker w) = pushReady w i >>= k)
    (hcap : (c.state.readyQ w).length < readyQCap)
    (hstep : Step (F.code leaves) (.worker w) c c') :
    c'.state.readyQ w = c.state.readyQ w ++ [i] ∧ c'.threads (.worker w) = k true := by
  cases hstep with
  | act hact =>
      rw [hthread] at hact
      obtain ⟨rfl, rfl⟩ := Prog.act.inj hact
      constructor
      · simp only [hcap, if_true, Function.update_self]
      · simp only [Function.update_self, hcap, if_true]
        rfl
  | jump hret _ =>
      rw [hthread] at hret
      cases hret

/-- **Every run keeps readiness**, for any leaves and reducer and any number of workers. -/
theorem readiness_of_recorded (hrun : F.Recorded leaves c h) : Readiness F leaves c h := by
  obtain ⟨hand, ⟨place, arrived, hT, hA⟩, hsafe⟩ := hrun.sound
  replace hA : Tally leaves c.state h hand place arrived := hA
  have hlabel : ∀ t l, c.threads t = .ret l → HandPost F leaves t l (hand t) := by
    intro t l hl
    have ht := hsafe t
    rw [show (c.record (F.note leaves) h).threads t = (Prog.ret l : Act L P _).record _ t from
      congrArg (Prog.record (F.note leaves) t) hl] at ht
    exact ht
  constructor
  · intro p hp
    rcases hA.enqueued p hp with ⟨hnil, -⟩ | ⟨t, u, harrived, hq⟩
    · exact Or.inl hnil
    · obtain ⟨a, b, ha, hb, hab⟩ := hA.exists_children harrived
      exact Or.inr ⟨t, u, a, b, hq, (hA.counters p hp).trans harrived, ha, hb, hab⟩
  · intro p hp hleft hright
    -- who has a child or the node in hand is not at a label
    have hbusy : ∀ t, ¬(hand t).Settled → ∀ l, c.threads t ≠ .ret l :=
      fun t ht l hl => ht (hlabel t l hl).settled
    have hseen : ∀ a, up a = p → (∃ t, .ready t a ∈ h p) →
        (∃ t, .ready t a ∈ h p ∧ ∀ l, c.threads t ≠ .ret l) ∨ ∃ x ∈ arrived p, x.2 = a := by
      rintro a rfl ⟨t, hready⟩
      rcases hA.seen t a hready with ⟨u, hu⟩ | harrived
      · refine Or.inl ⟨u, (hA.tells u a hu).2.2.1, hbusy u fun hsettled => ?_⟩
        rw [hsettled.child_eq_none] at hu
        cases hu
      · exact Or.inr harrived
    rcases hseen _ (up_left p) hleft with ⟨t, ht⟩ | ⟨x, hx, hxl⟩
    · exact Or.inr ⟨t, _, ht⟩
    rcases hseen _ (up_right p) hright with ⟨t, ht⟩ | ⟨y, hy, hyr⟩
    · exact Or.inr ⟨t, _, ht⟩
    rcases hA.enqueued p hp with ⟨-, hshort | ⟨t, ht⟩⟩ | ⟨t, u, -, hq⟩
    · have hxy : x ≠ y := by
        rintro rfl
        rw [hxl] at hyr
        exact absurd hyr (Nat.ne_of_lt (Nat.lt_succ_self _))
      have hpos := List.length_pos_of_mem hx
      obtain ⟨z, hz⟩ := List.length_eq_one_iff.mp (show (arrived p).length = 1 by omega)
      rw [hz, List.mem_singleton] at hx hy
      exact absurd (hx.trans hy.symm) hxy
    · obtain ⟨-, -, u, harrived⟩ := hA.owes t p ht
      obtain ⟨-, b, -, hb, -⟩ := hA.exists_children harrived
      exact Or.inr ⟨t, b, hb, hbusy t fun hsettled => hsettled.ne_owes p ht⟩
    · refine Or.inl ?_
      rw [hq]
      exact List.cons_ne_nil u []
  · intro w i k hthread
    have hshort : (c.state.readyQ w).length ≤ 1 := hT.short w
    have hcap : (c.state.readyQ w).length < readyQCap := lt_of_le_of_lt hshort (by decide)
    obtain ⟨c', hstep⟩ : ∃ c', Step (F.code leaves) (.worker w) c c' :=
      ⟨_, Step.act (show c.threads (.worker w) = .act _ _ from hthread)⟩
    -- afterwards the queue is short as well
    obtain ⟨c₀, hinit, hsteps⟩ := hrun
    have hnext : F.Recorded leaves c' _ := ⟨c₀, hinit, hsteps.tail hstep⟩
    obtain ⟨hand', ⟨place', arrived', hT', -⟩, -⟩ := hnext.sound
    have hshort' : (c'.state.readyQ w).length ≤ 1 := hT'.short w
    rw [(step_of_push hthread hcap hstep).1, List.length_append, List.length_singleton] at hshort'
    have hnil : c.state.readyQ w = [] := List.eq_nil_of_length_eq_zero (by omega)
    refine ⟨hnil, fun d hd => ?_⟩
    obtain ⟨hqueue, hresult⟩ := step_of_push hthread hcap hd
    rw [hnil] at hqueue
    exact ⟨hqueue, hresult⟩
  · intro result hreturned p hp
    exact hA.enqueued_of_parent (hA.rooted _ (hlabel _ _ hreturned)) hp

/-- In the run of one worker on two leaves the root has been enqueued when `run` returns. -/
theorem readiness_of_recorded_two :
    ∃ c h, oneWorker.Recorded [3, 5] c h ∧ c.threads .caller = .ret (.returned (.ok 35)) ∧
      enqueuers (h 0) ≠ [] := by
  have hreachable : oneWorker.Reachable [3, 5] ((twoLeavesAfter 60).exec (oneWorker.code [3, 5])
      (List.replicate 10 .caller)) := ⟨_, rfl, (steps_exec _ _).trans (steps_exec _ _)⟩
  have hreturned : ((twoLeavesAfter 60).exec (oneWorker.code [3, 5])
      (List.replicate 10 .caller)).threads .caller = .ret (.returned (.ok 35)) := rfl
  obtain ⟨h, hrun⟩ := hreachable.exists_recorded
  exact ⟨_, h, hrun, hreturned, (readiness_of_recorded hrun).all _ hreturned 0 (by decide)⟩

end Runs

end NexusVm.Nova.ParallelTree
