import NexusVm.Nova.ParallelTidy

/-!
# Safety of the parallel fold

Every thread keeps the invariant with every action.  The actions first, then the methods
of the tasks and the rounds of the threads.
-/

namespace NexusVm.Nova.ParallelTree

open Concurrent

section Actions

variable {L P Proof E : Type} {R : FoldReducer L P Proof E} {leaves : List L}
  {numBlocks numWorkers : ℕ} {K : Thread → Prop} {s : State L P} {rs : Thread → Res P}
  {t : Thread} {r : Res P}

theorem Inv.owned (h : Inv R leaves numBlocks numWorkers s rs) {i : ℕ} {m : Mode} {task : Task}
    (hr : (rs t).tasks i = some (m, task)) : s.tasks i = task := by
  obtain ⟨g, hv, -⟩ := h
  exact (hv.owned hr).2

theorem Inv.buf (h : Inv R leaves numBlocks numWorkers s rs) {b : ℕ} {x : Option P}
    (hr : (rs t).bufs b = some x) : s.blocks b = x := by
  obtain ⟨g, hv, -⟩ := h
  exact (hv.buf hr).2

section Tasks

variable {i : ℕ} {m : Mode} {task : Task}

theorem safe_loadState (hr : r.tasks i = some (m, task)) :
    Safe (OwnInv R leaves numBlocks numWorkers K) t (Returns task.state r) (loadState i) r := by
  apply safe_atomic
  rintro s rs hI rfl
  rw [Function.update_eq_self, hI.inv.owned hr]
  exact ⟨rfl, hI⟩

theorem safe_loadBufferId (hr : r.tasks i = some (m, task)) :
    Safe (OwnInv R leaves numBlocks numWorkers K) t (Returns task.bufferId r) (loadBufferId i)
      r := by
  apply safe_atomic
  rintro s rs hI rfl
  rw [Function.update_eq_self, hI.inv.owned hr]
  exact ⟨rfl, hI⟩

theorem safe_storeBufferId (hr : r.tasks i = some (m, task)) (id : Option ℕ)
    (hid : K t → ∀ b, id = some b → r.bufs b ≠ none ∧ ∀ j, j ≠ i → ¬r.Refers j b)
    (h0 : i = 0 → m = .making ∧ task.state ≠ NodeState.processedWaitingForConsumption) :
    Safe (OwnInv R leaves numBlocks numWorkers K) t
      (Returns () (r.setTask i (some (m, { task with bufferId := id }))))
        (storeBufferId i id) r := by
  apply safe_atomic
  rintro s rs hI rfl
  rw [hI.inv.owned hr]
  refine ⟨rfl, hI.update (hI.inv.setTask hr _ h0) fun hK htidy => ?_⟩
  cases id with
  | none => exact htidy.setTask (by nofun)
  | some b =>
      obtain ⟨hb, hfree⟩ := hid hK b rfl
      exact htidy.setId rfl hb hfree

theorem safe_storeState (hr : r.tasks i = some (m, task)) (state : ℕ)
    (h0 : i = 0 → m = .making ∧ state ≠ NodeState.processedWaitingForConsumption) :
    Safe (OwnInv R leaves numBlocks numWorkers K) t
      (Returns () (r.setTask i (some (m, { task with state := state }))))
        (storeState i state) r := by
  apply safe_atomic
  rintro s rs hI rfl
  rw [hI.inv.owned hr]
  refine ⟨rfl, hI.update (hI.inv.setTask hr _ h0) fun _ htidy => ?_⟩
  exact htidy.setTask fun b hb => ⟨m, task, hr, hb⟩

theorem safe_compareExchange (hr : r.tasks i = some (m, task)) {old : ℕ} (new : ℕ)
    (hold : task.state = old)
    (h0 : i = 0 → m = .making ∧ new ≠ NodeState.processedWaitingForConsumption) :
    Safe (OwnInv R leaves numBlocks numWorkers K) t
      (Returns true (r.setTask i (some (m, { task with state := new }))))
      (compareExchange i old new) r := by
  apply safe_atomic
  rintro s rs hI rfl
  rw [hI.inv.owned hr, if_pos hold]
  refine ⟨rfl, hI.update (hI.inv.setTask hr _ h0) fun _ htidy => ?_⟩
  exact htidy.setTask fun b hb => ⟨m, task, hr, hb⟩

theorem safe_compareExchange_fail (hr : r.tasks i = some (m, task)) {old : ℕ} (new : ℕ)
    (hold : task.state ≠ old) :
    Safe (OwnInv R leaves numBlocks numWorkers K) t (Returns false r) (compareExchange i old new)
      r := by
  apply safe_atomic
  rintro s rs hI rfl
  rw [hI.inv.owned hr, if_neg hold, Function.update_eq_self]
  exact ⟨rfl, hI⟩

end Tasks

section Buffers

variable {b : ℕ} {x : Option P}

theorem safe_write (hb : r.bufs b = some x) (v : P) :
    Safe (OwnInv R leaves numBlocks numWorkers K) t (Returns () (r.setBuf b (some (some v))))
      (write b v) r := by
  apply safe_atomic
  rintro s rs hI rfl
  exact ⟨rfl, hI.update (hI.inv.setBlock hb _) fun _ htidy => htidy.setBuf b _⟩

theorem safe_read (hb : r.bufs b = some x) :
    Safe (OwnInv R leaves numBlocks numWorkers K) t (Returns x (r.setBuf b (some none))) (read b)
      r := by
  apply safe_atomic
  rintro s rs hI rfl
  exact ⟨hI.inv.buf hb, hI.update (hI.inv.setBlock hb _) fun _ htidy => htidy.setBuf b _⟩

/-- The slot is cleared before the buffer goes back. -/
theorem safe_clear (hb : r.bufs b = some x) :
    Safe (OwnInv R leaves numBlocks numWorkers K) t (Returns () (r.setBuf b (some none)))
      (Prog.atomic fun s => ((), s.setBlock b none)) r := by
  apply safe_atomic
  rintro s rs hI rfl
  exact ⟨rfl, hI.update (hI.inv.setBlock hb _) fun _ htidy => htidy.setBuf b _⟩

theorem safe_release (hb : r.bufs b = some x) (hfree : K t → ∀ i, ¬r.Refers i b) :
    Safe (OwnInv R leaves numBlocks numWorkers K) t (Returns () (r.setBuf b none))
      (release b) r := by
  refine safe_seq (safe_clear hb) ?_
  apply safe_atomic
  intro s rs hI hr
  have hb' : (rs t).bufs b = some none := by
    rw [hr]
    exact Function.update_self _ _ _
  have hI' := hI.update (hI.inv.free hb') fun hK htidy => htidy.dropBuf fun i hi => ?_
  · rw [hr, Res.setBuf_setBuf] at hI'
    exact ⟨rfl, hI'⟩
  · rw [hr] at hi
    exact hfree hK i hi

/-- The buffer that is allocated is new to the thread. -/
theorem safe_alloc :
    Safe (OwnInv R leaves numBlocks numWorkers K) t
      (fun o r' => (o = none ∧ r' = r) ∨
        ∃ b x, o = some b ∧ b < numBlocks ∧ r.bufs b = none ∧ (K t → ∀ i, ¬r.Refers i b) ∧
          r' = r.setBuf b (some x))
      alloc r := by
  apply safe_action
  rintro s rs hI rfl
  cases hfree : s.free with
  | nil =>
      refine ⟨rs t, ?_, Or.inl ⟨rfl, rfl⟩⟩
      rw [Function.update_eq_self]
      exact hI
  | cons b free =>
      obtain ⟨hb, hnone, hI'⟩ := hI.inv.alloc hfree t
      have hnew : K t → ∀ i, ¬(rs t).Refers i b :=
        fun hK i hi => (hI.tidy t hK).bufs i b hi hnone
      exact ⟨_, hI.update hI' fun _ htidy => htidy.setBuf b _,
        Or.inr ⟨b, _, rfl, hb, hnone, hnew, rfl⟩⟩

theorem safe_freeCount :
    Safe (OwnInv R leaves numBlocks numWorkers K) t (fun _ r' => r' = r) freeCount r := by
  rintro s rs hI rfl
  refine ⟨rs t, ?_, rfl⟩
  rw [Function.update_eq_self]
  exact hI

end Buffers

section Queues

variable {w : ℕ}

theorem Inv.readyQ (h : Inv R leaves numBlocks numWorkers s rs) (w : ℕ) :
    s.readyQ w = (rs (.worker w)).ready := by
  obtain ⟨g, hv, -⟩ := h
  exact (hv.ready w).symm

theorem safe_popReady :
    Safe (OwnInv R leaves numBlocks numWorkers K) (.worker w)
      (Returns r.ready.head? { r with ready := r.ready.tail }) (popReady w) r := by
  apply safe_atomic
  rintro s rs hI rfl
  rw [hI.inv.readyQ w]
  cases hready : (rs (.worker w)).ready with
  | nil =>
      have hsame : { rs (.worker w) with ready := [] } = rs (.worker w) := by rw [← hready]
      refine ⟨rfl, ?_⟩
      rw [List.tail_nil, hsame, Function.update_eq_self]
      exact hI
  | cons i rest =>
      exact ⟨rfl, hI.update (hI.inv.setReady w rest) fun _ htidy => htidy.congr rfl rfl⟩

theorem safe_pushReady (i : ℕ) (hlen : r.ready.length < readyQCap) :
    Safe (OwnInv R leaves numBlocks numWorkers K) (.worker w)
      (Returns true { r with ready := r.ready ++ [i] }) (pushReady w i) r := by
  apply safe_atomic
  rintro s rs hI rfl
  rw [hI.inv.readyQ w, if_pos hlen]
  exact ⟨rfl, hI.update (hI.inv.setReady w _) fun _ htidy => htidy.congr rfl rfl⟩

theorem safe_popLeaf (hnone : ∀ i task, r.tasks i = some (.making, task) → R.Fails) :
    Safe (OwnInv R leaves numBlocks numWorkers K) (.worker w)
      (fun o r' => (o = none ∧ r' = r) ∨
        ∃ l i, o = some (l, i) ∧ leaves.length - 1 ≤ i ∧ i < 2 * leaves.length - 1 ∧
          leaves[i - (leaves.length - 1)]? = some l ∧ r.tasks i = none ∧
          r' = r.setTask i (some (.making, ⟨none, LeafState.notStarted⟩)))
      (popLeaf w) r := by
  apply safe_action
  rintro s rs hI rfl
  cases hleaf : s.leafQ w with
  | nil =>
      refine ⟨rs (.worker w), ?_, Or.inl ⟨rfl, rfl⟩⟩
      rw [Function.update_eq_self]
      exact hI
  | cons x rest =>
      obtain ⟨hle, hlt, hl, htask, hI'⟩ := hI.inv.popLeaf hleaf hnone
      exact ⟨_, hI.update hI' fun _ htidy => htidy.setTask (by nofun),
        Or.inr ⟨x.1, x.2, rfl, hle, hlt, hl, htask, rfl⟩⟩

theorem safe_pushLeaf {l : L} {i : ℕ} (hw : chunk leaves numWorkers i = w) (hcursor : r.cursor = i)
    (hlt : i < 2 * leaves.length - 1) (hl : leaves[i - (leaves.length - 1)]? = some l) :
    Safe (OwnInv R leaves numBlocks numWorkers K) .producer
      (fun ok r' => r' = if ok then { r with cursor := i + 1 } else r) (pushLeaf w (l, i)) r := by
  apply safe_action
  rintro s rs hI rfl
  by_cases hlen : (s.leafQ w).length < readyQCap
  · simp only [hlen, if_true]
    exact ⟨_, hI.update (hI.inv.pushLeaf hw hcursor hlt hl) fun _ htidy =>
      htidy.congr rfl rfl, rfl⟩
  · simp only [hlen, if_false]
    refine ⟨rs .producer, ?_, rfl⟩
    rw [Function.update_eq_self]
    exact hI

end Queues

/-! ## Stop flag, handing over and what a worker has -/

theorem safe_loadStop :
    Safe (OwnInv R leaves numBlocks numWorkers K) t
      (fun stop r' => r' = if stop then { r with sawStop := true } else r) loadStop r := by
  apply safe_action
  rintro s rs hI rfl
  cases hstop : s.stop with
  | true =>
      exact ⟨_, hI.update (hI.inv.sawStop hstop t) fun _ htidy => htidy.congr rfl rfl, rfl⟩
  | false =>
      refine ⟨rs t, ?_, rfl⟩
      rw [Function.update_eq_self]
      exact hI

theorem safe_storeStop (hsaw : r.sawRoot = true ∨ r.sawStop = true) :
    Safe (OwnInv R leaves numBlocks numWorkers K) t (Returns () { r with sawStop := true })
      storeStop r := by
  apply safe_atomic
  rintro s rs hI rfl
  exact ⟨rfl, hI.update (hI.inv.setStop (hsaw.imp_right Or.inl)) fun _ htidy => htidy.congr rfl rfl⟩

/-- The first child of a node is deposited; the worker of the second takes everything. -/
theorem safe_tryGotFirstChild {c b : ℕ} {v : P} (hc : 0 < c)
    (hr : r.tasks c = some (.making, ⟨some b, readyState leaves c⟩))
    (hb : r.bufs b = some (some v)) (hv : Folded R leaves c v) :
    Safe (OwnInv R leaves numBlocks numWorkers K) t
      (fun ok r' => (ok = true ∧ r' = (r.setTask c none).setBuf b none) ∨
        (ok = false ∧ up c < leaves.length - 1 ∧ b < numBlocks ∧ ∃ d w, d < numBlocks ∧ d ≠ b ∧
          Folded R leaves (sibling c) w ∧ r' =
            { r with
              tasks := Function.update (Function.update (Function.update r.tasks
                (up c) (some (.making, ⟨none, NodeState.waitingOneChild⟩)))
                c (some (.taken, ⟨some b, readyState leaves c⟩)))
                (sibling c) (some (.taken, ⟨some d, readyState leaves (sibling c)⟩))
              bufs := Function.update r.bufs d (some (some w)) }))
      (NodeTask.tryGotFirstChild (up c)) r := by
  apply safe_action
  rintro s rs hI rfl
  by_cases hstate : (s.tasks (up c)).state = NodeState.notStarted
  · rw [if_pos hstate]
    exact ⟨_, hI.update (hI.inv.deposit hc hr hb hv hstate) fun _ htidy =>
      htidy.drop ((refers_iff hr).mpr rfl), Or.inl ⟨rfl, rfl⟩⟩
  · obtain ⟨hlt, hlt', d, w, hd, hdb, hw, -, hnone, hI'⟩ := hI.inv.acquire hc hr hb hstate
    rw [if_neg hstate]
    exact ⟨_, hI.update hI' fun _ htidy =>
      htidy.acquire ((refers_iff hr).mpr rfl) rfl rfl rfl hnone rfl rfl,
      Or.inr ⟨rfl, hlt, hlt', d, w, hd, hdb, hw, rfl⟩⟩

/-- The root stays where it is, for the caller. -/
theorem safe_trySetReady_root {b : ℕ} {v : P}
    (hr : r.tasks 0 = some (.making, ⟨some b, NodeState.processing⟩))
    (hb : r.bufs b = some (some v)) (hv : Folded R leaves 0 v) (hn : 0 < leaves.length - 1) :
    Safe (OwnInv R leaves numBlocks numWorkers K) t
      (Returns true { (r.setTask 0 none).setBuf b none with sawRoot := true })
      (NodeTask.trySetReady 0) r := by
  apply safe_atomic
  rintro s rs hI rfl
  have hstate : (s.tasks 0).state = NodeState.processing := by rw [hI.inv.owned hr]
  simp only [hstate, if_true, true_and]
  refine hI.update (hI.inv.publishRoot hr hb hv hn) fun _ htidy => ?_
  exact (htidy.drop ((refers_iff hr).mpr rfl)).congr rfl rfl

end Actions

section Clean

variable {L P Proof E : Type} (R : FoldReducer L P Proof E) (leaves : List L) (numBlocks : ℕ)

/-- A worker makes at most the given task and has at most the given buffers, unless the
reducer has failed it. -/
structure Clean (r : Res P) (i : Option ℕ) (bs : List ℕ) : Prop where
  making : ∀ j task, r.tasks j = some (.making, task) → some j = i ∨ R.Fails
  bufs : ∀ b, b ∉ bs → r.bufs b = none
  sawRoot : r.sawRoot = false

/-- A node whose children the worker has. -/
structure ReadyNode (r : Res P) (i left right : ℕ) (accLeft accRight : P) : Prop where
  node : i < leaves.length - 1
  clean : Clean R r (some i) [left, right]
  task : r.tasks i = some (.making, ⟨none, NodeState.waitingBothChildren⟩)
  taskLeft : r.tasks (2 * i + 1) = some (.taken, ⟨some left, readyState leaves (2 * i + 1)⟩)
  taskRight : r.tasks (2 * i + 2) = some (.taken, ⟨some right, readyState leaves (2 * i + 2)⟩)
  bufLeft : r.bufs left = some (some accLeft)
  bufRight : r.bufs right = some (some accRight)
  ne : left ≠ right
  ltLeft : left < numBlocks
  ltRight : right < numBlocks
  foldedLeft : Folded R leaves (2 * i + 1) accLeft
  foldedRight : Folded R leaves (2 * i + 2) accRight

/-- A worker between two tasks. -/
inductive Resting (r : Res P) : Prop
  | idle (hready : r.ready = []) (hclean : Clean R r none [])
  | ready {i left right : ℕ} {accLeft accRight : P} (hready : r.ready = [i])
      (hnode : ReadyNode R leaves numBlocks r i left right accLeft accRight)

/-- A worker after a task. -/
structure Done (i : ℕ) (result : Run (WorkerError E) Unit) (r : Res P) : Prop where
  resting : ¬(result = .ok () ∧ i = 0) → Resting R leaves numBlocks r
  noPanic : result ≠ .error .panic
  root : result = .ok () → i = 0 → r.sawRoot = true ∧ ∀ b, r.bufs b = none

variable {R leaves numBlocks} {r : Res P} {i : Option ℕ} {bs : List ℕ}

theorem Clean.setTask {j : ℕ} (h : Clean R r (some j) bs) (x : Option (Mode × Task)) :
    Clean R (r.setTask j x) (some j) bs := by
  constructor
  · intro k task hk
    by_cases hkj : k = j
    · exact Or.inl (congrArg some hkj)
    · exact h.making k task (by rwa [Res.setTask_of_ne r hkj] at hk)
  · exact h.bufs
  · exact h.sawRoot

theorem Clean.dropTask {j : ℕ} (h : Clean R r (some j) bs) :
    Clean R (r.setTask j none) none bs := by
  constructor
  · intro k task hk
    by_cases hkj : k = j
    · rw [hkj, Res.setTask_self] at hk
      cases hk
    · rw [Res.setTask_of_ne r hkj] at hk
      rcases h.making k task hk with hkj' | hfails
      · exact absurd (Option.some.inj hkj') hkj
      · exact Or.inr hfails
  · exact h.bufs
  · exact h.sawRoot

theorem Clean.addTask {j : ℕ} (h : Clean R r none bs) (x : Option (Mode × Task)) :
    Clean R (r.setTask j x) (some j) bs := by
  constructor
  · intro k task hk
    by_cases hkj : k = j
    · exact Or.inl (congrArg some hkj)
    · rw [Res.setTask_of_ne r hkj] at hk
      exact Or.inr ((h.making k task hk).resolve_left (by nofun))
  · exact h.bufs
  · exact h.sawRoot

theorem Clean.setTaken (h : Clean R r i bs) (j : ℕ) (task : Task) :
    Clean R (r.setTask j (some (.taken, task))) i bs := by
  constructor
  · intro k task' hk
    by_cases hkj : k = j
    · rw [hkj, Res.setTask_self] at hk
      cases hk
    · rw [Res.setTask_of_ne r hkj] at hk
      exact h.making k task' hk
  · exact h.bufs
  · exact h.sawRoot

theorem Clean.setBuf {b : ℕ} (h : Clean R r i bs) (hb : b ∈ bs) (x : Option (Option P)) :
    Clean R (r.setBuf b x) i bs := by
  constructor
  · exact h.making
  · intro c hc
    have hcb : c ≠ b := by
      rintro rfl
      exact hc hb
    rw [Res.setBuf_of_ne r hcb]
    exact h.bufs c hc
  · exact h.sawRoot

theorem Clean.addBuf {b : ℕ} (h : Clean R r i bs) (x : Option (Option P)) :
    Clean R (r.setBuf b x) i (b :: bs) := by
  constructor
  · exact h.making
  · intro c hc
    rw [List.mem_cons, not_or] at hc
    rw [Res.setBuf_of_ne r hc.1]
    exact h.bufs c hc.2
  · exact h.sawRoot

theorem Clean.dropBuf {b : ℕ} (h : Clean R r i (b :: bs)) : Clean R (r.setBuf b none) i bs := by
  constructor
  · exact h.making
  · intro c hc
    by_cases hcb : c = b
    · rw [hcb, Res.setBuf_self]
    · rw [Res.setBuf_of_ne r hcb]
      exact h.bufs c (by simp [hcb, hc])
  · exact h.sawRoot

theorem Clean.of_fails (h : Clean R r i bs) (hfails : R.Fails) : Clean R r none bs :=
  ⟨fun _ _ _ => Or.inr hfails, h.bufs, h.sawRoot⟩

end Clean

/-! ## Telling the parent and leaves -/

section Notify

variable {L P Proof E : Type} {R : FoldReducer L P Proof E} {leaves : List L}
  {numBlocks numWorkers : ℕ} {K : Thread → Prop} {w : ℕ} {r : Res P}

/-- What the worker of the second child has before it pushes the node. -/
theorem readyNode_of_children {c b d : ℕ} {v x : P} (hc : 0 < c) (hlt : up c < leaves.length - 1)
    (hb : r.bufs b = some (some v)) (hv : Folded R leaves c v) (hclean : Clean R r (some c) [b])
    (hltb : b < numBlocks) (hltd : d < numBlocks) (hdb : d ≠ b) (hx : Folded R leaves (sibling c) x)
    {r' : Res P}
    (hparent : r'.tasks (up c) = some (.making, ⟨none, NodeState.waitingBothChildren⟩))
    (hself : r'.tasks c = some (.taken, ⟨some b, readyState leaves c⟩))
    (hsib : r'.tasks (sibling c) = some (.taken, ⟨some d, readyState leaves (sibling c)⟩))
    (htasks : ∀ j, j ≠ up c → j ≠ c → j ≠ sibling c → r'.tasks j = r.tasks j)
    (hbufs : r'.bufs = Function.update r.bufs d (some (some x))) (hsaw : r'.sawRoot = r.sawRoot) :
    ∃ left right accLeft accRight,
      ReadyNode R leaves numBlocks r' (up c) left right accLeft accRight := by
  have hbufb : r'.bufs b = some (some v) := by
    rw [hbufs, Function.update_of_ne hdb.symm, hb]
  have hbufd : r'.bufs d = some (some x) := by
    rw [hbufs, Function.update_self]
  have hmaking : ∀ j task, r'.tasks j = some (.making, task) → some j = some (up c) ∨ R.Fails := by
    intro j task hj
    by_cases hju : j = up c
    · exact Or.inl (congrArg some hju)
    · by_cases hjc : j = c
      · rw [hjc, hself] at hj
        cases hj
      · by_cases hjs : j = sibling c
        · rw [hjs, hsib] at hj
          cases hj
        · rw [htasks j hju hjc hjs] at hj
          rcases hclean.making j task hj with heq | hfails
          · exact absurd (Option.some.inj heq) hjc
          · exact Or.inr hfails
  have hnone : ∀ e, e ≠ b → e ≠ d → r'.bufs e = none := by
    intro e heb hed
    rw [hbufs, Function.update_of_ne hed]
    exact hclean.bufs e (by simpa using heb)
  rcases child_cases hc with ⟨h₁, h₂⟩ | ⟨h₁, h₂⟩
  · refine ⟨b, d, v, x, hlt, ⟨hmaking, ?_, hsaw.trans hclean.sawRoot⟩, hparent, ?_, ?_, hbufb,
      hbufd, hdb.symm, hltb, hltd,
      ?_, ?_⟩
    · intro e he
      rw [List.mem_cons, List.mem_singleton, not_or] at he
      exact hnone e he.1 he.2
    · rwa [← h₁]
    · rwa [← h₂]
    · rwa [← h₁]
    · rwa [← h₂]
  · refine ⟨d, b, x, v, hlt, ⟨hmaking, ?_, hsaw.trans hclean.sawRoot⟩, hparent, ?_, ?_, hbufd,
      hbufb, hdb, hltd, hltb,
      ?_, ?_⟩
    · intro e he
      rw [List.mem_cons, List.mem_singleton, not_or] at he
      exact hnone e he.2 he.1
    · rwa [← h₂]
    · rwa [← h₁]
    · rwa [← h₂]
    · rwa [← h₁]

/-- A worker that has not seen the root yet tells the parent of its task. -/
theorem safe_notifyChildReady {c b : ℕ} {v : P} (hc : 0 < c)
    (hr : r.tasks c = some (.making, ⟨some b, readyState leaves c⟩))
    (hb : r.bufs b = some (some v)) (hv : Folded R leaves c v) (hclean : Clean R r (some c) [b])
    (hready : r.ready = []) :
    Safe (OwnInv R leaves numBlocks numWorkers K) (.worker w)
      (fun both r' => r'.ready = [] ∧ ((both = false ∧ Clean R r' none []) ∨
        (both = true ∧ ∃ left right accLeft accRight,
          ReadyNode R leaves numBlocks r' (up c) left right accLeft accRight)))
      (NodeTask.notifyChildReady (up c)) r := by
  have hupc : up c < c := by
    unfold up
    omega
  have hsib : sibling c ≠ c ∧ sibling c ≠ up c := by
    rcases child_cases hc with ⟨h₁, h₂⟩ | ⟨h₁, h₂⟩ <;> omega
  unfold NodeTask.notifyChildReady
  refine safe_bind (safe_tryGotFirstChild hc hr hb hv) ?_
  rintro ok r' (⟨rfl, rfl⟩ | ⟨rfl, hlt, hltb, d, x, hltd, hdb, hx, hr'⟩)
  · apply safe_ret
    exact ⟨hready, Or.inl ⟨rfl, (hclean.dropTask).dropBuf⟩⟩
  · -- the node is the worker's own now
    have htasks : r'.tasks = Function.update (Function.update (Function.update r.tasks
        (up c) (some (.making, ⟨none, NodeState.waitingOneChild⟩)))
        c (some (.taken, ⟨some b, readyState leaves c⟩)))
        (sibling c) (some (.taken, ⟨some d, readyState leaves (sibling c)⟩)) := by
      rw [hr']
    have hparent : r'.tasks (up c) = some (.making, ⟨none, NodeState.waitingOneChild⟩) := by
      rw [htasks, Function.update_of_ne hsib.2.symm, Function.update_of_ne hupc.ne,
        Function.update_self]
    refine (safe_compareExchange hparent NodeState.waitingBothChildren rfl
      fun _ => ⟨rfl, by decide⟩).mono ?_
    rintro _ r'' ⟨rfl, rfl⟩
    refine ⟨by rw [hr']; exact hready, Or.inr ⟨rfl, ?_⟩⟩
    refine readyNode_of_children hc hlt hb hv hclean hltb hltd hdb hx ?_ ?_ ?_ ?_
      (by rw [hr']; rfl) (by rw [hr']; rfl)
    · rw [Res.setTask_self]
    · rw [Res.setTask_of_ne _ hupc.ne', htasks, Function.update_of_ne hsib.1.symm,
        Function.update_self]
    · rw [Res.setTask_of_ne _ hsib.2, htasks, Function.update_self]
    · intro j hju hjc hjs
      rw [Res.setTask_of_ne _ hju, htasks, Function.update_of_ne hjs, Function.update_of_ne hjc,
        Function.update_of_ne hju]

theorem ReadyNode.setReady {i left right : ℕ} {accLeft accRight : P} (q : List ℕ)
    (h : ReadyNode R leaves numBlocks r i left right accLeft accRight) :
    ReadyNode R leaves numBlocks { r with ready := q } i left right accLeft accRight :=
  { h with clean := ⟨h.clean.making, h.clean.bufs, h.clean.sawRoot⟩ }

theorem safe_notifyParent (hlen : leaves.length = 2 ^ Nat.log2 leaves.length) {i b : ℕ} {v : P}
    (hi : 0 < i) (hlt : i < 2 * leaves.length - 1)
    (hr : r.tasks i = some (.making, ⟨some b, readyState leaves i⟩))
    (hb : r.bufs b = some (some v)) (hv : Folded R leaves i v) (hclean : Clean R r (some i) [b])
    (hready : r.ready = []) :
    Safe (OwnInv R leaves numBlocks numWorkers K) (.worker w)
      (fun _ r' => Resting R leaves numBlocks r') (notifyParent (heapOf leaves) w i) r := by
  have hparent : TaskHeap.parent i = some (up i) := if_neg hi.ne'
  have hnode : (heapOf leaves).get (up i) = some .node := by
    apply heapOf_get_node hlen
    unfold up
    omega
  unfold notifyParent
  rw [hparent]
  simp only [hnode]
  refine safe_bind (safe_notifyChildReady hi hr hb hv hclean hready) ?_
  rintro both r' ⟨hready', ⟨rfl, hclean'⟩ | ⟨rfl, left, right, accLeft, accRight, hnode'⟩⟩
  · exact safe_ret (.idle hready' hclean')
  · have hcap : r'.ready.length < readyQCap := by
      rw [hready']
      decide
    refine safe_seq (safe_pushReady (up i) hcap) (safe_ret (.ready ?_ (hnode'.setReady _)))
    rw [hready']
    rfl

variable {x : Option P}

theorem safe_claimAndRelease {t : Thread} {b : ℕ} (hlt : b < numBlocks) (hb : r.bufs b = some x)
    (hfree : K t → ∀ i, ¬r.Refers i b) :
    Safe (OwnInv R leaves numBlocks numWorkers K) t (Returns () (r.setBuf b none))
      (claimAndRelease numBlocks b) r := by
  unfold claimAndRelease claim
  rw [if_pos hlt]
  exact safe_release hb hfree

theorem safe_finishLeaf (hlen : leaves.length = 2 ^ Nat.log2 leaves.length) (hn : 2 ≤ leaves.length)
    {i b : ℕ} {acc : P} (hle : leaves.length - 1 ≤ i) (hlt : i < 2 * leaves.length - 1)
    (hltb : b < numBlocks) (hr : r.tasks i = some (.making, ⟨some b, LeafState.processing⟩))
    (hb : r.bufs b = some x) (hv : Folded R leaves i acc) (hclean : Clean R r (some i) [b])
    (hready : r.ready = []) :
    Safe (OwnInv R leaves numBlocks numWorkers K) (.worker w) (Done R leaves numBlocks (E := E) i)
      (finishLeaf (heapOf leaves) numBlocks w i b acc) r := by
  have hi : 0 < i := by omega
  unfold finishLeaf claim
  rw [if_pos hltb]
  refine safe_seq (safe_write hb acc) ?_
  refine safe_seq (safe_compareExchange (by simpa using hr) LeafState.ready rfl
    fun h0 => absurd h0 hi.ne') ?_
  simp only [if_true]
  have hstate : readyState leaves i = LeafState.ready := if_neg (by omega)
  have hbuf : ((r.setBuf b (some (some acc))).setTask i
      (some (.making, ⟨some b, LeafState.ready⟩))).bufs b = some (some acc) := by
    rw [Res.setTask_bufs, Res.setBuf_self]
  refine safe_bind (safe_notifyParent hlen hi hlt (by rw [Res.setTask_self, hstate]) hbuf hv
    ((hclean.setBuf (by simp) _).setTask _) hready) ?_
  intro _ r' hrest
  exact safe_ret ⟨fun _ => hrest, nofun, fun _ h0 => absurd h0 hi.ne'⟩

theorem safe_processLeafInput (hlen : leaves.length = 2 ^ Nat.log2 leaves.length)
    (hn : 2 ≤ leaves.length) {leaf : L} {i b : ℕ} (hle : leaves.length - 1 ≤ i)
    (hlt : i < 2 * leaves.length - 1) (hleaf : leaves[i - (leaves.length - 1)]? = some leaf)
    (hltb : b < numBlocks) (hr : r.tasks i = some (.making, ⟨none, LeafState.notStarted⟩))
    (hb : r.bufs b = some x) (hfree : K (.worker w) → ∀ j, ¬r.Refers j b)
    (hclean : Clean R r (some i) [b]) (hready : r.ready = []) :
    Safe (OwnInv R leaves numBlocks numWorkers K) (.worker w) (Done R leaves numBlocks i)
      (processLeafInput (heapOf leaves) numBlocks R w leaf i b) r := by
  have hi : i ≠ 0 := by omega
  have hstart : Safe (OwnInv R leaves numBlocks numWorkers K) (.worker w)
      (Returns true (r.setTask i (some (.making, ⟨some b, LeafState.processing⟩))))
      (LeafTask.tryStartProcessing i b) r := by
    unfold LeafTask.tryStartProcessing
    refine safe_seq (safe_storeBufferId hr (some b) ?_ fun h0 => absurd h0 hi) ?_
    · rintro hK _ ⟨rfl⟩
      exact ⟨by simp [hb], fun j _ => hfree hK j⟩
    refine safe_seq (safe_compareExchange (Res.setTask_self _ _ _) LeafState.processing rfl
      fun h0 => absurd h0 hi) ?_
    rw [Res.setTask_setTask]
    exact safe_ret ⟨rfl, rfl⟩
  unfold processLeafInput
  refine safe_seq hstart ?_
  simp only [if_true]
  cases hacc : R.strictToAcc leaf with
  | ok acc =>
      have hbuf : (r.setTask i (some (.making, ⟨some b, LeafState.processing⟩))).bufs b =
        some x := by
        rw [Res.setTask_bufs, hb]
      exact safe_finishLeaf hlen hn hle hlt hltb (Res.setTask_self _ _ _) hbuf
        (.leaf hle hleaf hacc) (hclean.setTask _) hready
  | error e =>
      refine safe_seq (safe_storeState (Res.setTask_self _ _ _) LeafState.notStarted
        fun h0 => absurd h0 hi) ?_
      refine safe_seq (safe_storeBufferId (Res.setTask_self _ _ _) none (by nofun)
        fun h0 => absurd h0 hi) ?_
      refine safe_seq (safe_claimAndRelease hltb (by simpa using hb) ?_) ?_
      · -- the leaf has lost the buffer and no other task had it
        intro hK j
        by_cases hj : j = i
        · rw [hj, refers_setTask_self]
          nofun
        · simp only [refers_setTask_of_ne hj]
          exact hfree hK j
      refine safe_ret ⟨fun _ => .idle hready ?_, nofun, nofun⟩
      have hfails : R.Fails := Or.inl ⟨leaf, e, hacc⟩
      exact ((((hclean.setTask _).setTask _).setTask _).dropBuf).of_fails hfails

/-! ## Inner nodes -/

/-- A worker that has folded the children of a node. -/
structure Merging (R : FoldReducer L P Proof E) (tidy : Prop) (r : Res P) (i left : ℕ)
    (bs : List ℕ) : Prop where
  clean : Clean R r (some i) (left :: bs)
  ready : r.ready = []
  task : r.tasks i = some (.making, ⟨none, NodeState.waitingBothChildren⟩)
  children : ∀ c, 0 < c → up c = i → ∃ task, r.tasks c = some (.taken, task)
  bufs : ∀ b, b ∈ left :: bs → ∃ x, r.bufs b = some x
  /-- Only the children name these buffers. -/
  refs : tidy → ∀ b, b ∈ left :: bs → ∀ j, r.Refers j b → 0 < j ∧ up j = i

variable {tidy : Prop}

variable {c : ℕ} {i left : ℕ}

/-- Only the state of a child that is taken changes. -/
theorem Merging.setChild {bs : List ℕ} (h : Merging R tidy r i left bs) (hc : 0 < c)
    (hup : up c = i) (task : Task) :
    Merging R tidy (r.setTask c (some (.taken, task))) i left bs := by
  have hne : i ≠ c := by
    unfold up at hup
    omega
  refine ⟨h.clean.setTaken c task, h.ready, ?_, ?_, h.bufs, ?_⟩
  · rw [Res.setTask_of_ne _ hne]
    exact h.task
  · intro d hd hdup
    by_cases hdc : d = c
    · exact ⟨task, by rw [hdc, Res.setTask_self]⟩
    · rw [Res.setTask_of_ne _ hdc]
      exact h.children d hd hdup
  · intro htidy b hb j hj
    by_cases hjc : j = c
    · rw [hjc]
      exact ⟨hc, hup⟩
    · exact h.refs htidy b hb j ((refers_setTask_of_ne hjc _).mp hj)

theorem Res.setTask_eq_self {i : ℕ} {x : Option (Mode × Task)} (h : r.tasks i = x) :
    r.setTask i x = r := by
  subst h
  simp [Res.setTask]

variable {t : Thread}

variable {task : Task}

/-- A state transition of a child, which may fail. -/
theorem safe_compareExchange_taken (hc : c ≠ 0) (hr : r.tasks c = some (.taken, task)) (old new : ℕ) :
    Safe (OwnInv R leaves numBlocks numWorkers K) t
      (fun _ r' => ∃ task', r' = r.setTask c (some (.taken, task'))) (compareExchange c old new)
      r := by
  by_cases hold : task.state = old
  · refine (safe_compareExchange hr new hold fun h0 => absurd h0 hc).mono ?_
    rintro _ r' ⟨-, rfl⟩
    exact ⟨_, rfl⟩
  · refine (safe_compareExchange_fail hr new hold).mono ?_
    rintro _ r' ⟨-, rfl⟩
    exact ⟨task, (Res.setTask_eq_self hr).symm⟩

theorem safe_setConsumedTask (hc : c ≠ 0) (hr : r.tasks c = some (.taken, task)) :
    Safe (OwnInv R leaves numBlocks numWorkers K) t
      (fun _ r' => ∃ task', r' = r.setTask c (some (.taken, task')))
      (setConsumedTask (heapOf leaves) c) r := by
  unfold setConsumedTask
  split
  · exact safe_ret ⟨task, (Res.setTask_eq_self hr).symm⟩
  · refine safe_bind (safe_compareExchange_taken hc hr _ _) ?_
    exact fun _ r' hr' => safe_ret hr'
  · refine safe_bind (safe_compareExchange_taken hc hr _ _) ?_
    exact fun _ r' hr' => safe_ret hr'

theorem safe_clearBufferId (hc : c ≠ 0) (hget : (heapOf leaves).get c ≠ none)
    (hr : r.tasks c = some (.taken, task)) :
    Safe (OwnInv R leaves numBlocks numWorkers K) t
      (fun _ r' => ∃ task', task'.bufferId = none ∧ r' = r.setTask c (some (.taken, task')))
      (clearBufferId (heapOf leaves) c) r := by
  obtain ⟨kind, hkind⟩ := Option.ne_none_iff_exists'.mp hget
  unfold clearBufferId
  rw [hkind]
  refine (safe_storeBufferId hr none (by nofun) fun h0 => absurd h0 hc).mono ?_
  rintro _ r' ⟨-, rfl⟩
  exact ⟨_, rfl, rfl⟩

theorem up_left (i : ℕ) : up (TaskHeap.left i) = i := by
  unfold up TaskHeap.left
  omega

theorem up_right (i : ℕ) : up (TaskHeap.right i) = i := by
  unfold up TaskHeap.right
  omega

/-- The two children of a node. -/
theorem eq_left_or_right {c i : ℕ} (hc : 0 < c) (hup : up c = i) :
    c = TaskHeap.left i ∨ c = TaskHeap.right i := by
  unfold up at hup
  unfold TaskHeap.left TaskHeap.right
  omega

/-- Both children are touched while their parent is merged, in the same way. -/
theorem Merging.safe_children {α : Type} {bs : List ℕ} {post : α → Res P → Prop}
    {p : ℕ → Act L P Unit} {k : Unit → Act L P α} (h : Merging R tidy r i left bs)
    (ok : Task → Prop)
    (hp : ∀ c task (r : Res P), 0 < c → up c = i → r.tasks c = some (.taken, task) → Safe (OwnInv R leaves numBlocks numWorkers K) t (fun _ r' => ∃ task', ok task' ∧ r' = r.setTask c (some (.taken, task'))) (p c) r)
    (hk : ∀ r', Merging R tidy r' i left bs → (∀ c, 0 < c → up c = i → ∃ task, ok task ∧ r'.tasks c = some (.taken, task)) → Safe (OwnInv R leaves numBlocks numWorkers K) t post (k ()) r') :
    Safe (OwnInv R leaves numBlocks numWorkers K) t post
      (p (TaskHeap.left i) >>= fun _ => p (TaskHeap.right i) >>= k) r := by
  have hl : 0 < TaskHeap.left i := Nat.succ_pos _
  have hr : 0 < TaskHeap.right i := Nat.succ_pos _
  have hne : TaskHeap.left i ≠ TaskHeap.right i := Nat.ne_of_lt (Nat.lt_succ_self _)
  obtain ⟨task₁, h₁⟩ := h.children _ hl (up_left i)
  refine safe_bind (hp _ task₁ _ hl (up_left i) h₁) ?_
  rintro _ r' ⟨task₁', hok₁, rfl⟩
  have h' := h.setChild hl (up_left i) task₁'
  obtain ⟨task₂, h₂⟩ := h'.children _ hr (up_right i)
  refine safe_bind (hp _ task₂ _ hr (up_right i) h₂) ?_
  rintro _ r'' ⟨task₂', hok₂, rfl⟩
  refine hk _ (h'.setChild hr (up_right i) task₂') fun c hc hup => ?_
  rcases eq_left_or_right hc hup with rfl | rfl
  · refine ⟨task₁', hok₁, ?_⟩
    rw [Res.setTask_of_ne _ hne, Res.setTask_self]
  · exact ⟨task₂', hok₂, Res.setTask_self _ _ _⟩

theorem safe_nodeTryStartProcessing {i b : ℕ} {x : Option P}
    (hr : r.tasks i = some (.making, ⟨none, NodeState.waitingBothChildren⟩))
    (hb : r.bufs b = some x) (hfree : K t → ∀ j, ¬r.Refers j b) :
    Safe (OwnInv R leaves numBlocks numWorkers K) t
      (Returns true (r.setTask i (some (.making, ⟨some b, NodeState.processing⟩))))
      (NodeTask.tryStartProcessing i b) r := by
  unfold NodeTask.tryStartProcessing
  refine safe_seq (safe_storeBufferId hr (some b) ?_ fun _ => ⟨rfl, by decide⟩) ?_
  · rintro hK _ ⟨rfl⟩
    exact ⟨by simp [hb], fun j _ => hfree hK j⟩
  refine safe_seq (safe_compareExchange (Res.setTask_self _ _ _) NodeState.processing rfl
    fun _ => ⟨rfl, by decide⟩) ?_
  rw [Res.setTask_setTask]
  exact safe_ret ⟨rfl, rfl⟩

/-- The children of the root are consumed once more, without effect. -/
theorem safe_consumeRootChildren {task₁ task₂ : Task} (hsaw : r.sawRoot = true)
    (h₁ : r.tasks (TaskHeap.left 0) = some (.taken, task₁))
    (h₂ : r.tasks (TaskHeap.right 0) = some (.taken, task₂)) (hbufs : ∀ b, r.bufs b = none) :
    Safe (OwnInv R leaves numBlocks numWorkers K) t (Done R leaves numBlocks (E := E) 0)
      (do
        setConsumedTask (heapOf leaves) (TaskHeap.left 0)
        setConsumedTask (heapOf leaves) (TaskHeap.right 0)
        return .ok ()) r := by
  refine safe_bind (safe_setConsumedTask (by decide) h₁) ?_
  rintro _ r' ⟨task', rfl⟩
  have h₂' : (r.setTask (TaskHeap.left 0) (some (.taken, task'))).tasks (TaskHeap.right 0) =
      some (.taken, task₂) := by
    rw [Res.setTask_of_ne _ (by decide), h₂]
  refine safe_bind (safe_setConsumedTask (by decide) h₂') ?_
  rintro _ r' ⟨task'', rfl⟩
  exact safe_ret ⟨fun h => absurd ⟨rfl, rfl⟩ h, nofun, fun _ _ => ⟨hsaw, hbufs⟩⟩

theorem safe_publishInnerNode (hlen : leaves.length = 2 ^ Nat.log2 leaves.length) {acc : P}
    (hi : i < leaves.length - 1) (h : Merging R tidy r i left [])
    (hb : r.bufs left = some (some acc)) (hfree : K (.worker w) → ∀ j, ¬r.Refers j left)
    (hv : Folded R leaves i acc) :
    Safe (OwnInv R leaves numBlocks numWorkers K) (.worker w) (Done R leaves numBlocks (E := E) i)
      (publishInnerNode (heapOf leaves) numBlocks w i left) r := by
  have htask : (r.setTask i (some (.making, ⟨some left, NodeState.processing⟩))).tasks i =
      some (.making, ⟨some left, NodeState.processing⟩) := Res.setTask_self _ _ _
  unfold publishInnerNode
  refine safe_seq (safe_nodeTryStartProcessing h.task hb hfree) ?_
  simp only [if_true]
  by_cases h0 : i = 0
  · subst h0
    obtain ⟨task₁, h₁⟩ := h.children (TaskHeap.left 0) (by decide) (up_left 0)
    obtain ⟨task₂, h₂⟩ := h.children (TaskHeap.right 0) (by decide) (up_right 0)
    refine safe_seq (safe_trySetReady_root htask (by rw [Res.setTask_bufs, hb]) hv (by omega)) ?_
    simp only [if_true]
    have hparent : notifyParent (L := L) (P := P) (heapOf leaves) w 0 = .ret () := rfl
    rw [hparent, Res.setTask_setTask, Prog.ret_bind]
    have hleft : (r.setTask 0 none).tasks (TaskHeap.left 0) = some (.taken, task₁) := by
      rw [Res.setTask_of_ne r (by decide), h₁]
    have hright : (r.setTask 0 none).tasks (TaskHeap.right 0) = some (.taken, task₂) := by
      rw [Res.setTask_of_ne r (by decide), h₂]
    have hclean : Clean R ((r.setTask 0 none).setBuf left none) none [] := h.clean.dropTask.dropBuf
    exact safe_consumeRootChildren rfl hleft hright fun b => hclean.bufs b List.not_mem_nil
  · have hstate : readyState leaves i = NodeState.processedWaitingForConsumption := if_pos hi
    refine safe_seq (safe_compareExchange htask NodeState.processedWaitingForConsumption rfl
      fun heq => absurd heq h0) ?_
    simp only [if_true, Res.setTask_setTask, h0, if_false]
    refine safe_bind (safe_notifyParent hlen (Nat.pos_of_ne_zero h0) (by omega)
      (by rw [Res.setTask_self, hstate]) hb hv (h.clean.setTask _) h.ready) ?_
    intro _ r' hrest
    exact safe_ret ⟨fun _ => hrest, nofun, fun _ heq => absurd heq h0⟩

theorem heapOf_get_ne_none (hlen : leaves.length = 2 ^ Nat.log2 leaves.length) {i : ℕ}
    (hi : i < 2 * leaves.length - 1) : (heapOf leaves).get i ≠ none := by
  by_cases hnode : i < leaves.length - 1
  · rw [heapOf_get_node hlen hnode]
    exact Option.some_ne_none _
  · rw [heapOf_get_leaf hlen (not_lt.mp hnode) hi]
    exact Option.some_ne_none _

variable {i left right : ℕ}

theorem safe_finishInnerNode (hlen : leaves.length = 2 ^ Nat.log2 leaves.length) {acc : P}
    (hi : i < leaves.length - 1) (h : Merging R (K (.worker w)) r i left [right])
    (hne : left ≠ right) (hv : Folded R leaves i acc) :
    Safe (OwnInv R leaves numBlocks numWorkers K) (.worker w) (Done R leaves numBlocks (E := E) i)
      (finishInnerNode (heapOf leaves) numBlocks w i left right acc) r := by
  unfold finishInnerNode
  refine h.safe_children (fun _ => True)
    (fun c task r hc _ hr => (safe_setConsumedTask hc.ne' hr).mono ?_) fun r₁ h₁ _ => ?_
  · rintro _ r' ⟨task', rfl⟩
    exact ⟨task', trivial, rfl⟩
  refine h₁.safe_children (fun task => task.bufferId = none)
    (fun c task r hc hup hr => safe_clearBufferId hc.ne' (heapOf_get_ne_none hlen ?_) hr)
    fun r₂ h₂ hcleared => ?_
  · unfold up at hup
    omega
  obtain ⟨x, hx⟩ := h₂.bufs right (by simp)
  obtain ⟨y, hy⟩ := h₂.bufs left (by simp)
  -- the children were the only tasks that named the buffers
  have hfree : K (.worker w) → ∀ b, b ∈ [left, right] → ∀ j, ¬r₂.Refers j b := by
    intro hK b hb j hj
    obtain ⟨hpos, hup⟩ := h₂.refs hK b hb j hj
    obtain ⟨task, hid, htask⟩ := hcleared j hpos hup
    rw [refers_iff htask, hid] at hj
    cases hj
  refine safe_seq (safe_release hx fun hK => hfree hK right (by simp)) ?_
  refine safe_seq (safe_write (x := y) (by rw [Res.setBuf_of_ne _ hne, hy]) acc) ?_
  have hmerging : Merging R (K (.worker w))
      ((r₂.setBuf right none).setBuf left (some (some acc))) i left [] := by
    refine ⟨?_, h₂.ready, h₂.task, h₂.children, ?_, ?_⟩
    · have hperm : Clean R r₂ (some i) [right, left] :=
        ⟨h₂.clean.making, fun b hb => h₂.clean.bufs b (by simpa [or_comm] using hb),
          h₂.clean.sawRoot⟩
      exact hperm.dropBuf.setBuf (by simp) _
    · intro b hb
      obtain rfl := List.mem_singleton.mp hb
      exact ⟨some acc, Res.setBuf_self _ _ _⟩
    · intro hK b hb
      exact h₂.refs hK b (by simp [List.mem_singleton.mp hb])
  exact safe_publishInnerNode hlen hi hmerging (Res.setBuf_self _ _ _)
    (fun hK => hfree hK left (by simp)) hv

theorem safe_foldChildren (hlen : leaves.length = 2 ^ Nat.log2 leaves.length) {accLeft accRight : P}
    (hi : i < leaves.length - 1) (h : Merging R (K (.worker w)) r i left [right])
    (hne : left ≠ right) (hl : r.bufs left = some (some accLeft))
    (hr : r.bufs right = some (some accRight)) (hvl : Folded R leaves (2 * i + 1) accLeft)
    (hvr : Folded R leaves (2 * i + 2) accRight) (hK : K (.worker w) → R.FoldsNodes leaves) :
    Safe (OwnInv R leaves numBlocks numWorkers K) (.worker w) (Done R leaves numBlocks i)
      (foldChildren (heapOf leaves) numBlocks R w i left right) r := by
  unfold foldChildren
  refine safe_seq (safe_read hl) ?_
  refine safe_seq (safe_read (x := some accRight) ?_) ?_
  · rw [Res.setBuf_of_ne _ hne.symm, hr]
  have hmem : left ∈ [left, right] := by simp
  have hmem' : right ∈ [left, right] := by simp
  have hclean : Clean R ((r.setBuf left (some none)).setBuf right (some none)) (some i)
      [left, right] := (h.clean.setBuf hmem _).setBuf hmem' _
  have hleft : ((r.setBuf left (some none)).setBuf right (some none)).bufs left = some none := by
    rw [Res.setBuf_of_ne _ hne, Res.setBuf_self]
  simp only
  cases hfold : R.foldAccAcc accLeft accRight with
  | ok pair =>
      obtain ⟨parentAcc, proof⟩ := pair
      refine safe_finishInnerNode hlen hi ⟨hclean, h.ready, h.task, h.children, ?_, h.refs⟩ hne
        (.node hi hvl hvr hfold)
      intro b hb
      rw [List.mem_cons, List.mem_singleton] at hb
      rcases hb with rfl | rfl
      · exact ⟨none, hleft⟩
      · exact ⟨none, Res.setBuf_self _ _ _⟩
  | error e =>
      have hfails : R.Fails := Or.inr ⟨accLeft, accRight, e, hfold⟩
      -- the children keep the names of the buffers that go back
      have hnot : ¬K (.worker w) :=
        fun hk => hK hk i accLeft accRight e hi hvl hvr hfold
      refine safe_seq (safe_release hleft fun hk => absurd hk hnot) ?_
      refine safe_seq (safe_release (x := none) ?_ fun hk => absurd hk hnot) ?_
      · rw [Res.setBuf_of_ne _ hne.symm, Res.setBuf_self]
      · exact safe_ret ⟨fun _ => .idle h.ready (hclean.dropBuf.dropBuf.of_fails hfails),
          nofun, nofun⟩

/-- The state of a task that is being consumed. -/
theorem safe_startConsuming (hlen : leaves.length = 2 ^ Nat.log2 leaves.length) {c b : ℕ}
    (hc : c ≠ 0) (hlt : c < 2 * leaves.length - 1) (hltb : b < numBlocks)
    (hr : r.tasks c = some (.taken, ⟨some b, readyState leaves c⟩)) :
    Safe (OwnInv R leaves numBlocks numWorkers K) t
      (fun o r' => o = some b ∧ ∃ task', r' = r.setTask c (some (.taken, task')))
      (startConsumingTaskAndGetBufHandle (heapOf leaves) numBlocks c) r := by
  unfold startConsumingTaskAndGetBufHandle
  have hclaim : claim numBlocks b = some b := if_pos hltb
  by_cases hnode : c < leaves.length - 1
  · rw [readyState, if_pos hnode] at hr
    rw [heapOf_get_node hlen hnode]
    simp only [NodeTask.getBufIdIfReady, Prog.bind_assoc]
    refine safe_seq (safe_loadState hr) ?_
    simp only [if_true]
    refine safe_seq (safe_loadBufferId hr) ?_
    refine safe_seq (safe_compareExchange hr NodeState.beingConsumed rfl
      fun h0 => absurd h0 hc) ?_
    simp only [if_true, hclaim]
    exact safe_ret ⟨rfl, _, rfl⟩
  · rw [readyState, if_neg hnode] at hr
    rw [heapOf_get_leaf hlen (by omega) hlt]
    simp only [LeafTask.getBufIdIfReady, Prog.bind_assoc]
    refine safe_seq (safe_loadState hr) ?_
    simp only [if_true]
    refine safe_seq (safe_loadBufferId hr) ?_
    refine safe_seq (safe_compareExchange hr LeafState.processedWaitingForConsumption rfl
      fun h0 => absurd h0 hc) ?_
    simp only [if_true, hclaim]
    exact safe_ret ⟨rfl, _, rfl⟩

theorem safe_processReadyInnerNode (hlen : leaves.length = 2 ^ Nat.log2 leaves.length)
    {accLeft accRight : P} (hready : r.ready = [])
    (h : ReadyNode R leaves numBlocks r i left right accLeft accRight)
    (hK : K (.worker w) → R.FoldsNodes leaves) :
    Safe (OwnInv R leaves numBlocks numWorkers K) (.worker w) (Done R leaves numBlocks i)
      (processReadyInnerNode (heapOf leaves) numBlocks R w i) r := by
  have hnode := h.node
  have hleft : TaskHeap.left i = 2 * i + 1 := rfl
  have hright : TaskHeap.right i = 2 * i + 2 := rfl
  unfold processReadyInnerNode
  rw [hleft, hright]
  rw [heapOf_get_node hlen hnode]
  refine safe_of_inv fun ⟨s, rs, hI, hrs⟩ => ?_
  -- the children are the only tasks that name their buffers
  have hrefs : K (.worker w) → ∀ b, b ∈ [left, right] → ∀ j, r.Refers j b → 0 < j ∧ up j = i := by
    intro hk b hb j hj
    have htidy := hI.tidy _ hk
    rw [hrs] at htidy
    rw [List.mem_cons, List.mem_singleton] at hb
    rcases hb with rfl | rfl
    · rw [htidy.unique j (2 * i + 1) b hj ((refers_iff h.taskLeft).mpr rfl)]
      exact ⟨Nat.succ_pos _, up_left i⟩
    · rw [htidy.unique j (2 * i + 2) b hj ((refers_iff h.taskRight).mpr rfl)]
      exact ⟨Nat.succ_pos _, up_right i⟩
  refine safe_seq (safe_loadState h.task) ?_
  simp only [ne_eq, not_true, if_false]
  refine safe_bind (safe_startConsuming hlen (Nat.succ_ne_zero _)
    (show 2 * i + 1 < _ by omega) h.ltLeft h.taskLeft) ?_
  rintro _ r₁ ⟨rfl, task₁, rfl⟩
  have htask₂ : (r.setTask (2 * i + 1) (some (.taken, task₁))).tasks (2 * i + 2) =
      some (.taken, ⟨some right, readyState leaves (2 * i + 2)⟩) := by
    rw [Res.setTask_of_ne _ (by omega), h.taskRight]
  refine safe_bind (safe_startConsuming hlen (Nat.succ_ne_zero _)
    (show 2 * i + 2 < _ by omega) h.ltRight htask₂) ?_
  rintro _ r₂ ⟨rfl, task₂, rfl⟩
  refine safe_foldChildren hlen hnode
    ⟨(h.clean.setTaken _ _).setTaken _ _, hready, ?_, ?_, ?_, ?_⟩
    h.ne h.bufLeft h.bufRight h.foldedLeft h.foldedRight hK
  · rw [Res.setTask_of_ne _ (by omega), Res.setTask_of_ne _ (by omega), h.task]
  · intro c hc hup
    rcases eq_left_or_right hc hup with rfl | rfl
    · rw [hleft, Res.setTask_of_ne _ (by omega), Res.setTask_self]
      exact ⟨task₁, rfl⟩
    · exact ⟨task₂, Res.setTask_self _ _ _⟩
  · intro b hb
    rw [List.mem_cons, List.mem_singleton] at hb
    rcases hb with rfl | rfl
    · exact ⟨_, h.bufLeft⟩
    · exact ⟨_, h.bufRight⟩
  · intro hk b hb j hj
    by_cases hj₂ : j = 2 * i + 2
    · rw [hj₂]
      exact ⟨Nat.succ_pos _, up_right i⟩
    · by_cases hj₁ : j = 2 * i + 1
      · rw [hj₁]
        exact ⟨Nat.succ_pos _, up_left i⟩
      · rw [refers_setTask_of_ne hj₂, refers_setTask_of_ne hj₁] at hj
        exact hrefs hk b hb j hj

end Notify

end NexusVm.Nova.ParallelTree
