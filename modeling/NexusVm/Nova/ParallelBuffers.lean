import NexusVm.Nova.ParallelFailure

/-!
# Buffers of the parallel fold

Each buffer of the pool is free, held by a task that is ready or owned by a thread that is
at work.  The caller breaks this when it gives the root's buffer back: the root still names
it.  So does a worker whose fold fails, by the names that the two children keep.
-/

namespace NexusVm.Nova.ParallelTree

open Concurrent

section Owners

variable {L P Proof E : Type} (F : ParallelTreeFolder L P Proof E) (leaves : List L)

/-- Each buffer is free, held by a ready task or owned by a thread, and by one only. -/
structure Owners (c : Config (State L P) Thread (Label L P)) (holder : ℕ → Holder) : Prop where
  pool : FreeList F.numBlocks c.state.free holder
  /-- A task names a buffer that it holds or that a thread owns. -/
  named : ∀ i b, i < 2 * leaves.length - 1 → (c.state.tasks i).bufferId = some b →
    holder b = .held i ∨ ∃ t, holder b = .owned t
  unique : ∀ i j b, i < 2 * leaves.length - 1 → j < 2 * leaves.length - 1 →
    (c.state.tasks i).bufferId = some b → (c.state.tasks j).bufferId = some b → i = j
  /-- A task that holds a buffer is ready, and its value is there. -/
  held : ∀ b i, holder b = .held i → i < 2 * leaves.length - 1 ∧
    c.state.tasks i = ⟨some b, readyState leaves i⟩ ∧ c.state.blocks b ≠ none
  /-- Nothing leaks: a thread between two rounds has the buffers of a ready node's children
  only. -/
  owned : ∀ b t l, holder b = .owned t → c.threads t = .ret l →
    ∃ w i, t = .worker w ∧ 0 < i ∧ up i ∈ c.state.readyQ w ∧
      (c.state.tasks i).bufferId = some b
  /-- Nobody has read an empty slot. -/
  reads : ∀ t, c.threads t ≠ .ret .panicked

/-- The buffers are in order in every state that a run comes to. -/
def ParallelTreeFolder.OwnsBuffers : Prop :=
  ∀ c, F.Reachable leaves c → ∃ holder, Owners F leaves c holder

/-- The caller does not give the root's buffer back. -/
def KeepsRoot (t : Thread) (s s' : State L P) : Prop := t = .caller → s'.free = s.free

end Owners

section Node

variable {L P Proof E : Type} {F : ParallelTreeFolder L P Proof E} {leaves : List L}
  {c : Config (State L P) Thread (Label L P)}

/-- Whose is the buffer that a task names. -/
theorem InvWith.named {R : FoldReducer L P Proof E} {numBlocks numWorkers : ℕ} {s : State L P}
    {rs : Thread → Res P} {g : Ghost P} (h : InvWith R leaves numBlocks numWorkers s rs g)
    (htidy : ∀ t, Tidy (rs t)) {i b : ℕ} (hi : i < 2 * leaves.length - 1)
    (hid : (s.tasks i).bufferId = some b) :
    g.buf b = .held i ∨ ∃ t, g.buf b = .owned t ∧ (rs t).Refers i b := by
  cases hstatus : g.status i with
  | outside =>
      have hout := (h.tree.outside i).mp hstatus
      omega
  | fresh =>
      rw [(h.tree.fresh i hstatus).2] at hid
      cases hid
  | waiting =>
      rw [(h.tree.waiting i hstatus).2.1] at hid
      cases hid
  | owned t m =>
      have hview : (rs t).tasks i = some (m, s.tasks i) := by
        rw [h.views.tasks, hstatus, Status.view, if_pos rfl]
      have hrefers : (rs t).Refers i b := ⟨m, _, hview, hid⟩
      obtain ⟨x, hx⟩ := Option.ne_none_iff_exists'.mp ((htidy t).bufs i b hrefers)
      exact Or.inr ⟨t, (h.views.buf hx).1, hrefers⟩
  | deposited d v =>
      obtain ⟨htask, hheld, -⟩ := h.tree.deposited i d v hstatus
      rw [htask] at hid
      obtain rfl := Option.some.inj hid
      exact Or.inl hheld

/-- What a thread has between two rounds is in its ready queue. -/
theorem Post.holdsReady {t : Thread} {l : Label L P} {r : Res P} {b : ℕ} (h : Post F leaves t l r)
    (hb : r.bufs b ≠ none) :
    ∃ w i, t = .worker w ∧ 0 < i ∧ up i ∈ r.ready ∧ r.Refers i b := by
  have hworker : ∀ w, HoldsReady r →
      ∃ w' i, Thread.worker w = .worker w' ∧ 0 < i ∧ up i ∈ r.ready ∧ r.Refers i b := by
    intro w hready
    obtain ⟨i, hi⟩ := hready b hb
    exact ⟨w, i, rfl, hi⟩
  cases t with
  | worker w =>
      cases l with
      | top => exact hworker w (Resting.holdsReady h)
      | alloc leaf i => exact hworker w h.clean.holdsReady
      | halted => exact hworker w h.1
      | _ => exact h.elim
  | producer =>
      cases l with
      | next rest i => exact absurd (h.1.bufs b) hb
      | halted => exact absurd (h.1.bufs b) hb
      | _ => exact h.elim
  | caller =>
      cases l with
      | wait => exact absurd (h.1.bufs b) hb
      | returned result =>
          cases result with
          | ok v => exact absurd (h.2.2 b) hb
          | error e => exact h.elim
      | _ => exact h.elim

/-- Tidy threads leave every buffer with one owner. -/
theorem exists_owners {G : Thread → State L P → State L P → Prop}
    (h : SoundIf G (F.OwnInv leaves fun _ => True) (Post F leaves) c) :
    ∃ holder, Owners F leaves c holder := by
  obtain ⟨rs, ⟨⟨g, hg⟩, htidy⟩, hsafe⟩ := h
  have htidy' : ∀ t, Tidy (rs t) := fun t => htidy t trivial
  have hpost : ∀ t l, c.threads t = .ret l → Post F leaves t l (rs t) := by
    intro t l hret
    have ht := hsafe t
    rw [hret] at ht
    exact ht
  refine ⟨g.buf, hg.pool.freeList, ?_, ?_, ?_, ?_, ?_⟩
  · intro i b hi hid
    exact (hg.named htidy' hi hid).imp_right fun ⟨t, ht, _⟩ => ⟨t, ht⟩
  · intro i j b hi hj hid hjd
    rcases hg.named htidy' hi hid with hheld | ⟨t, ht, hrefers⟩
    · rcases hg.named htidy' hj hjd with hheld' | ⟨u, hu, -⟩
      · exact Holder.held.inj (hheld.symm.trans hheld')
      · rw [hheld] at hu
        cases hu
    · rcases hg.named htidy' hj hjd with hheld' | ⟨u, hu, hrefers'⟩
      · rw [ht] at hheld'
        cases hheld'
      · obtain rfl := Holder.owned.inj (ht.symm.trans hu)
        exact (htidy' t).unique i j b hrefers hrefers'
  · intro b i hheld
    obtain ⟨v, hstatus⟩ := hg.pool.held b i hheld
    obtain ⟨htask, -, hblock, -⟩ := hg.tree.deposited i b v hstatus
    refine ⟨?_, htask, ?_⟩
    · by_contra hout
      rw [(hg.tree.outside i).mpr (not_lt.mp hout)] at hstatus
      cases hstatus
    · rw [hblock]
      exact Option.some_ne_none v
  · intro b t l howned hret
    have hb : (rs t).bufs b ≠ none := by
      rw [hg.views.bufs, howned, Holder.view, if_pos rfl]
      exact Option.some_ne_none _
    obtain ⟨w, i, rfl, hi, hready, m, task, htask, hid⟩ := (hpost t l hret).holdsReady hb
    refine ⟨w, i, rfl, hi, ?_, ?_⟩
    · rw [← hg.views.ready]
      exact hready
    · rw [(hg.views.owned htask).2]
      exact hid
  · intro t hret
    have hpanic := hpost t _ hret
    cases t with
    | _ => exact hpanic.elim

end Node

section Leaf

variable {L P : Type}

/-- What a thread has of a single leaf: the producer the leaf itself, the worker that has
popped it the task and a buffer, which may be filled. -/
inductive LeafRes
  | nothing
  | leaf
  | task (task : Task) (buf : Option ℕ) (full : Bool)

/-- Only the worker's buffer is taken. -/
def ownedBy : Option ℕ → ℕ → Holder
  | none => fun _ => .free
  | some b => Function.update (fun _ => .free) b (.owned (.worker 0))

/-- Where the leaf is. -/
inductive Stage (task : Task) (blocks : ℕ → Option P) (leafQ : ℕ → List (L × ℕ))
    (rs : Thread → LeafRes) : (ℕ → Holder) → Prop
  | producing (hprod : rs .producer = .leaf) (hq : ∀ w, leafQ w = [])
      (hwork : rs (.worker 0) = .nothing) (htask : task = ⟨none, 0⟩) :
      Stage task blocks leafQ rs (ownedBy none)
  | queued {l : L} (hprod : rs .producer = .nothing) (hq : leafQ 0 = [(l, 0)])
      (hothers : ∀ w, w ≠ 0 → leafQ w = []) (hwork : rs (.worker 0) = .nothing)
      (htask : task = ⟨none, 0⟩) : Stage task blocks leafQ rs (ownedBy none)
  | working {buf : Option ℕ} {full : Bool} (hprod : rs .producer = .nothing)
      (hq : ∀ w, leafQ w = []) (hwork : rs (.worker 0) = .task task buf full)
      (hid : ∀ b, task.bufferId = some b → buf = some b)
      (hfull : full = true → ∀ b, buf = some b → blocks b ≠ none) :
      Stage task blocks leafQ rs (ownedBy buf)
  | ready {b : ℕ} (hprod : rs .producer = .nothing) (hq : ∀ w, leafQ w = [])
      (hwork : rs (.worker 0) = .nothing) (htask : task = ⟨some b, LeafState.ready⟩)
      (hblock : blocks b ≠ none) :
      Stage task blocks leafQ rs (Function.update (fun _ => .free) b (.held 0))

/-- The invariant of a tree that is a leaf. -/
def LeafInv (numBlocks : ℕ) (s : State L P) (rs : Thread → LeafRes) : Prop :=
  ∃ holder, FreeList numBlocks s.free holder ∧ Stage (s.tasks 0) s.blocks s.leafQ rs holder

variable {numBlocks : ℕ} {s : State L P} {rs : Thread → LeafRes} {task : Task} {buf : Option ℕ}
  {full : Bool}

/-- While a worker has the task. -/
theorem LeafInv.working (h : LeafInv numBlocks s rs)
    (hr : rs (.worker 0) = .task task buf full) :
    FreeList numBlocks s.free (ownedBy buf) ∧ rs .producer = .nothing ∧
      (∀ w, s.leafQ w = []) ∧ s.tasks 0 = task ∧ (∀ b, task.bufferId = some b → buf = some b) ∧
      (full = true → ∀ b, buf = some b → s.blocks b ≠ none) := by
  obtain ⟨holder, hfree, hstage⟩ := h
  cases hstage with
  | working hprod hq hwork hid hfull =>
      rw [hr] at hwork
      obtain ⟨rfl, rfl, rfl⟩ := LeafRes.task.inj hwork
      exact ⟨hfree, hprod, hq, rfl, hid, hfull⟩
  | producing _ _ hwork =>
      rw [hr] at hwork
      cases hwork
  | queued _ _ _ hwork =>
      rw [hr] at hwork
      cases hwork
  | ready _ _ hwork =>
      rw [hr] at hwork
      cases hwork

theorem leafInv_working (hfree : FreeList numBlocks s.free (ownedBy buf))
    (hprod : rs .producer = .nothing) (hq : ∀ w, s.leafQ w = []) (htask : s.tasks 0 = task)
    (hid : ∀ b, task.bufferId = some b → buf = some b)
    (hfull : full = true → ∀ b, buf = some b → s.blocks b ≠ none) :
    LeafInv numBlocks s (Function.update rs (.worker 0) (.task task buf full)) := by
  subst htask
  have hprod' : Function.update rs (.worker 0) (.task (s.tasks 0) buf full) .producer =
      .nothing := by
    rw [Function.update_of_ne (by nofun), hprod]
  exact ⟨_, hfree, .working hprod' hq (Function.update_self _ _ _) hid hfull⟩

/-! ## Actions -/

variable {r : LeafRes}

/-- An action on the stop flag or on the queue of ready nodes. -/
theorem safe_leaf_quiet {α : Type} {t : Thread} {f : State L P → α × State L P}
    (hf : ∀ s, (f s).2.tasks = s.tasks ∧ (f s).2.blocks = s.blocks ∧ (f s).2.free = s.free ∧ (f s).2.leafQ = s.leafQ) :
    Safe (LeafInv numBlocks) t (fun _ r' => r' = r) (.atomic f) r := by
  apply safe_action
  rintro s rs hI rfl
  obtain ⟨htasks, hblocks, hfree, hleafQ⟩ := hf s
  refine ⟨rs t, ?_, rfl⟩
  unfold LeafInv
  rw [Function.update_eq_self, htasks, hblocks, hfree, hleafQ]
  exact hI

/-- The worker writes its task. -/
theorem safe_leaf_setTask {α : Type} {f : State L P → α × State L P} {a : α} (task' : Task)
    (hf : ∀ s : State L P, s.tasks 0 = task → f s = (a, s.setTask 0 task'))
    (hid : ∀ b, task'.bufferId = some b → buf = some b) :
    Safe (LeafInv numBlocks) (.worker 0) (Returns a (.task task' buf full)) (.atomic f)
      (.task task buf full) := by
  apply safe_atomic
  intro s rs hI hr
  obtain ⟨hfree, hprod, hq, htask, -, hfull⟩ := hI.working hr
  rw [hf s htask]
  have htask' := s.setTask_self 0 task'
  exact ⟨rfl, leafInv_working hfree hprod hq htask' hid hfull⟩

theorem safe_leaf_alloc {task : Task} (hid : task.bufferId = none) :
    Safe (LeafInv numBlocks) (.worker 0)
      (fun o r' => (o = none ∧ r' = .task task none false) ∨
        ∃ b, o = some b ∧ b < numBlocks ∧ r' = .task task (some b) false)
      (alloc : Act L P (Option ℕ)) (.task task none false) := by
  apply safe_action
  intro s rs hI hr
  obtain ⟨hfree, hprod, hq, htask, -, -⟩ := hI.working hr
  cases hpop : s.free with
  | nil =>
      refine ⟨rs (.worker 0), ?_, Or.inl ⟨rfl, hr⟩⟩
      rw [Function.update_eq_self]
      exact hI
  | cons b free =>
      rw [hpop] at hfree
      have hb : b < numBlocks := ((hfree.mem b).mp List.mem_cons_self).1
      have hlist : FreeList numBlocks free (ownedBy (some b)) := hfree.pop Holder.noConfusion
      refine ⟨_, leafInv_working hlist hprod hq htask ?_ (by nofun), Or.inr ⟨b, rfl, hb, rfl⟩⟩
      rw [hid]
      nofun

variable {b : ℕ}

theorem safe_leaf_write (v : P) :
    Safe (LeafInv numBlocks) (.worker 0) (Returns () (.task task (some b) true))
      (write b v : Act L P Unit) (.task task (some b) full) := by
  apply safe_atomic
  intro s rs hI hr
  obtain ⟨hfree, hprod, hq, htask, hid, -⟩ := hI.working hr
  refine ⟨rfl, leafInv_working hfree hprod hq htask hid ?_⟩
  rintro - _ ⟨rfl⟩
  show Function.update s.blocks b (some v) b ≠ none
  rw [Function.update_self]
  exact Option.some_ne_none v

/-- The task has lost the buffer before it goes back. -/
theorem safe_leaf_release (hid : task.bufferId = none) :
    Safe (LeafInv numBlocks) (.worker 0) (Returns () (.task task none false))
      (release b : Act L P Unit) (.task task (some b) full) := by
  have hnone : ∀ {buf : Option ℕ} d, task.bufferId = some d → buf = some d := by
    rw [hid]
    nofun
  have hclear : Safe (LeafInv numBlocks) (.worker 0) (Returns () (.task task (some b) false))
      (Prog.atomic fun s : State L P => ((), s.setBlock b none)) (.task task (some b) full) := by
    apply safe_atomic
    intro s rs hI hr
    obtain ⟨hfree, hprod, hq, htask, -, -⟩ := hI.working hr
    exact ⟨rfl, leafInv_working hfree hprod hq htask hnone (by nofun)⟩
  refine safe_seq hclear ?_
  apply safe_atomic
  intro s rs hI hr
  obtain ⟨hfree, hprod, hq, htask, -, -⟩ := hI.working hr
  have howned : ownedBy (some b) b ≠ .free := by
    rw [ownedBy, Function.update_self]
    exact Holder.noConfusion
  have hlist : FreeList numBlocks (s.free ++ [b]) (ownedBy none) := by
    have hpush := hfree.push howned
    rwa [ownedBy, Function.update_idem, Function.update_eq_self] at hpush
  exact ⟨rfl, leafInv_working hlist hprod hq htask hnone (by nofun)⟩

/-- The leaf is ready, and its task has the buffer. -/
theorem safe_leaf_trySetReady :
    Safe (LeafInv numBlocks) (.worker 0) (Returns true .nothing)
      (LeafTask.trySetReady 0 : Act L P Bool)
      (.task ⟨some b, LeafState.processing⟩ (some b) true) := by
  apply safe_atomic
  intro s rs hI hr
  obtain ⟨hfree, hprod, hq, htask, -, hfull⟩ := hI.working hr
  have hstate : (s.tasks 0).state = LeafState.processing := by rw [htask]
  rw [if_pos hstate]
  refine ⟨rfl, Function.update (fun _ => .free) b (.held 0), ⟨hfree.nodup, ?_, ?_⟩, ?_⟩
  · intro d
    show d ∈ s.free ↔ _
    rw [hfree.mem, ownedBy]
    by_cases hd : d = b
    · simp [hd]
    · simp [hd]
  · intro d hd
    apply hfree.inPool
    rw [ownedBy]
    by_cases hdb : d = b
    · simp [hdb]
    · simp [hdb] at hd
  · refine .ready ?_ hq (Function.update_self _ _ _) ?_ (hfull rfl b rfl)
    · rw [Function.update_of_ne (by nofun), hprod]
    · rw [htask]
      exact Function.update_self 0 _ s.tasks

/-- Only worker 0 finds the leaf, once. -/
theorem LeafInv.popLeaf (h : LeafInv numBlocks s rs) (w : ℕ) : s.leafQ w = [] ∨
    w = 0 ∧ ∃ l, s.leafQ w = [(l, 0)] ∧
      LeafInv numBlocks { s with leafQ := Function.update s.leafQ w [] }
        (Function.update rs (.worker w) (.task ⟨none, LeafState.notStarted⟩ none false)) := by
  obtain ⟨holder, hfree, hstage⟩ := h
  cases hstage with
  | producing _ hq => exact Or.inl (hq w)
  | working _ hq => exact Or.inl (hq w)
  | ready _ hq => exact Or.inl (hq w)
  | queued hprod hq hothers _ htask =>
      by_cases hw : w = 0
      · subst hw
        refine Or.inr ⟨rfl, _, hq, leafInv_working hfree hprod ?_ htask (by nofun) (by nofun)⟩
        intro w'
        by_cases hw' : w' = 0
        · subst hw'
          show Function.update s.leafQ 0 [] 0 = []
          rw [Function.update_self]
        · exact (Function.update_of_ne hw' _ _).trans (hothers w' hw')
      · exact Or.inl (hothers w hw)

theorem safe_leaf_popLeaf (w : ℕ) :
    Safe (LeafInv numBlocks) (.worker w)
      (fun o r' => (o = none ∧ r' = r) ∨
        w = 0 ∧ ∃ l, o = some (l, 0) ∧ r' = .task ⟨none, LeafState.notStarted⟩ none false)
      (popLeaf w : Act L P (Option (L × ℕ))) r := by
  apply safe_action
  rintro s rs hI rfl
  rcases hI.popLeaf w with hw | ⟨h0, l, hw, hI'⟩
  · rw [hw]
    refine ⟨rs (.worker w), ?_, Or.inl ⟨rfl, rfl⟩⟩
    rw [Function.update_eq_self]
    exact hI
  · rw [hw]
    exact ⟨_, hI', Or.inr ⟨h0, l, rfl, rfl⟩⟩

/-- The producer's leaf goes to worker 0. -/
theorem safe_leaf_pushLeaf (l : L) :
    Safe (LeafInv numBlocks) .producer (Returns true .nothing) (pushLeaf 0 (l, 0) : Act L P Bool)
      .leaf := by
  apply safe_atomic
  intro s rs hI hr
  obtain ⟨holder, hfree, hstage⟩ := hI
  cases hstage with
  | producing hprod hq hwork htask =>
      have hcap : ([] : List (L × ℕ)).length < readyQCap := Nat.zero_lt_succ 511
      rw [hq 0, if_pos hcap]
      refine ⟨rfl, _, hfree, .queued (l := l) (Function.update_self _ _ _) ?_ ?_ ?_ htask⟩
      · exact Function.update_self 0 _ s.leafQ
      · exact fun w hw => (Function.update_of_ne hw _ _).trans (hq w)
      · rw [Function.update_of_ne (by nofun), hwork]
  | _ hprod =>
      rw [hr] at hprod
      cases hprod

/-! ## Rounds, all trees and a buffer that is named and free -/

/-- The worker has no buffer. -/
def LeafRes.Empty : LeafRes → Prop
  | .task _ buf _ => buf = none
  | _ => True

/-- What a thread has of the leaf at a label. -/
def LeafPost : Thread → Label L P → LeafRes → Prop
  | .worker _, .top, r => r.Empty
  | .worker _, .halted, r => r.Empty
  | .worker w, .alloc _ i, r =>
      w = 0 ∧ i = 0 ∧ r = .task ⟨none, LeafState.notStarted⟩ none false
  | .producer, .next _ i, r => i = 0 → r = .leaf
  | .producer, .halted, _ => True
  | .caller, .wait, _ => True
  | .caller, .returned _, _ => True
  | _, _, _ => False

variable {Proof E : Type} {F : ParallelTreeFolder L P Proof E} {leaves : List L}

/-- The heap of a single leaf. -/
theorem heapOf_get_zero (hlen : leaves.length = 1) : (heapOf leaves).get 0 = some .leaf := by
  have hpow : leaves.length = 2 ^ Nat.log2 leaves.length := by
    rw [hlen]
    rfl
  exact heapOf_get_leaf hpow (by omega) (by omega)

/-- There is no node that could be ready. -/
theorem processReadyInnerNode_single (hlen : leaves.length = 1) (w i : ℕ) :
    ∃ e, processReadyInnerNode (heapOf leaves) F.numBlocks F.reducer w i =
      .ret (.error (.error e)) := by
  unfold processReadyInnerNode
  cases hget : (heapOf leaves).get i with
  | none => exact ⟨_, rfl⟩
  | some kind =>
      cases kind with
      | leaf => exact ⟨_, rfl⟩
      | node =>
          have hpow : leaves.length = 2 ^ Nat.log2 leaves.length := by
            rw [hlen]
            rfl
          rw [heapOf_eq hpow, hlen] at hget
          simp [TaskHeap.get] at hget

theorem safe_leaf_workerRound (hlen : leaves.length = 1) (w : ℕ) (hr : r.Empty) :
    Safe (LeafInv F.numBlocks) (.worker w) (LeafPost (.worker w))
      (workerRound (heapOf leaves) F.numBlocks F.reducer w) r := by
  unfold workerRound
  refine safe_bind (safe_leaf_quiet fun _ => ⟨rfl, rfl, rfl, rfl⟩) ?_
  rintro stop r rfl
  cases stop with
  | true => exact safe_ret hr
  | false =>
      simp only [Bool.false_eq_true, if_false]
      have hpop : Safe (LeafInv F.numBlocks) (.worker w) (fun _ r' => r' = r)
          (popReady w : Act L P (Option ℕ)) r := by
        apply safe_leaf_quiet
        intro s
        split
        · exact ⟨rfl, rfl, rfl, rfl⟩
        · exact ⟨rfl, rfl, rfl, rfl⟩
      refine safe_bind hpop ?_
      rintro o r rfl
      cases o with
      | some i =>
          obtain ⟨e, hnode⟩ := processReadyInnerNode_single (F := F) hlen w i
          simp only [hnode, Prog.ret_bind]
          exact safe_ret hr
      | none =>
          refine safe_bind (safe_leaf_popLeaf w) ?_
          rintro o r' (⟨rfl, rfl⟩ | ⟨hw, l, rfl, rfl⟩)
          · exact safe_ret hr
          · simp only [heapOf_get_zero hlen]
            exact safe_ret ⟨hw, rfl, rfl⟩

theorem safe_leaf_processLeafInput (leaf : L) (hb : b < F.numBlocks) :
    Safe (LeafInv F.numBlocks) (.worker 0) (fun result r => result ≠ .error .panic ∧ r.Empty)
      (processLeafInput (heapOf leaves) F.numBlocks F.reducer 0 leaf 0 b)
      (.task ⟨none, LeafState.notStarted⟩ (some b) false) := by
  have hclaim : claim F.numBlocks b = some b := if_pos hb
  have hstart : Safe (LeafInv F.numBlocks) (.worker 0)
      (Returns true (.task ⟨some b, LeafState.processing⟩ (some b) false))
      (LeafTask.tryStartProcessing 0 b : Act L P Bool)
      (.task ⟨none, LeafState.notStarted⟩ (some b) false) := by
    unfold LeafTask.tryStartProcessing
    refine safe_seq (safe_leaf_setTask (a := ()) ⟨some b, LeafState.notStarted⟩ ?_
        fun _ h => h) ?_
    · intro s hs
      rw [hs]
    refine safe_seq (safe_leaf_setTask (a := true) ⟨some b, LeafState.processing⟩ ?_
      fun _ h => h) ?_
    · intro s hs
      rw [hs, if_pos rfl]
    · exact safe_ret ⟨rfl, rfl⟩
  unfold processLeafInput
  refine safe_seq hstart ?_
  simp only [if_true]
  cases hacc : F.reducer.strictToAcc leaf with
  | ok acc =>
      simp only [finishLeaf, hclaim]
      refine safe_seq (safe_leaf_write acc) ?_
      refine safe_seq safe_leaf_trySetReady ?_
      simp only [if_true]
      -- the root has no parent
      have hparent : notifyParent (L := L) (P := P) (heapOf leaves) 0 0 = .ret () := rfl
      rw [hparent, Prog.ret_bind]
      exact safe_ret ⟨by simp, trivial⟩
  | error e =>
      refine safe_seq (safe_leaf_setTask (a := ()) ⟨some b, LeafState.notStarted⟩ ?_
        fun _ h => h) ?_
      · intro s hs
        rw [hs]
      refine safe_seq (safe_leaf_setTask (a := ()) ⟨none, LeafState.notStarted⟩ ?_
        (by simp)) ?_
      · intro s hs
        rw [hs]
      simp only [claimAndRelease, hclaim]
      refine safe_seq (safe_leaf_release rfl) ?_
      exact safe_ret ⟨by simp, rfl⟩

theorem safe_leaf_allocRound (leaf : L) :
    Safe (LeafInv F.numBlocks) (.worker 0) (LeafPost (.worker 0))
      (allocRound (heapOf leaves) F.numBlocks F.reducer 0 leaf 0)
      (.task ⟨none, LeafState.notStarted⟩ none false) := by
  unfold allocRound
  refine safe_bind (safe_leaf_alloc rfl) ?_
  rintro o r' (⟨rfl, rfl⟩ | ⟨b, rfl, hb, rfl⟩)
  · refine safe_bind (safe_leaf_quiet fun _ => ⟨rfl, rfl, rfl, rfl⟩) ?_
    rintro _ _ rfl
    exact safe_ret ⟨rfl, rfl, rfl⟩
  · refine safe_bind (safe_leaf_processLeafInput leaf hb) ?_
    rintro result r' ⟨hpanic, hempty⟩
    rcases result with (_ | e) | ⟨⟩
    · exact absurd rfl hpanic
    · exact safe_ret hempty
    · exact safe_ret hempty

theorem safe_leaf_producerRound (hlen : leaves.length = 1) (rest : List L) {i : ℕ}
    (hr : i = 0 → r = .leaf) :
    Safe (LeafInv F.numBlocks) .producer (LeafPost .producer)
      (producerRound (heapOf leaves) F.numCores rest i : Act L P (Label L P)) r := by
  have hpow : leaves.length = 2 ^ Nat.log2 leaves.length := by
    rw [hlen]
    rfl
  cases rest with
  | nil => exact safe_ret trivial
  | cons leaf rest =>
      simp only [producerRound]
      by_cases hi : (heapOf leaves).leafStart + (heapOf leaves).numLeaves ≤ i
      · rw [if_pos hi]
        exact safe_ret trivial
      · rw [if_neg hi]
        rw [heapOf_leafStart hpow, heapOf_eq hpow, hlen] at hi
        obtain rfl : i = 0 := by
          simp only at hi
          omega
        have hidx : workerIdx (heapOf leaves) F.numCores 0 = 0 := by
          simp [workerIdx]
        rw [hr rfl, hidx]
        refine safe_seq (safe_leaf_pushLeaf leaf) ?_
        exact safe_ret fun hi => absurd hi Nat.one_ne_zero

theorem safe_leaf_callerRound (hlen : leaves.length = 1) :
    Safe (LeafInv F.numBlocks) .caller (LeafPost .caller)
      (callerRound (heapOf leaves) F.numBlocks : Act L P (Label L P)) r := by
  unfold callerRound getRootResult
  refine safe_bind (safe_leaf_quiet fun _ => ⟨rfl, rfl, rfl, rfl⟩) ?_
  rintro stop _ rfl
  rw [heapOf_get_zero hlen]
  cases stop with
  | true => exact safe_ret trivial
  | false => exact safe_ret trivial

theorem safe_leaf_code (hlen : leaves.length = 1) (t : Thread) (l : Label L P)
    (p : Act L P (Label L P)) (r : LeafRes) (hcode : F.code leaves t l = some p)
    (hpost : LeafPost t l r) : Safe (LeafInv F.numBlocks) t (LeafPost t) p r := by
  unfold ParallelTreeFolder.code at hcode
  split at hcode
  · obtain rfl := Option.some.inj hcode
    exact safe_leaf_workerRound hlen _ hpost
  · obtain rfl := Option.some.inj hcode
    obtain ⟨rfl, rfl, rfl⟩ := hpost
    exact safe_leaf_allocRound _
  · obtain rfl := Option.some.inj hcode
    exact safe_leaf_producerRound hlen _ hpost
  · obtain rfl := Option.some.inj hcode
    exact safe_leaf_callerRound hlen
  · cases hcode

/-- What the threads have of the leaf in the beginning. -/
def LeafRes.initial : Thread → LeafRes
  | .producer => .leaf
  | _ => .nothing

theorem sound_leaf_initial :
    Sound (LeafInv F.numBlocks) LeafPost (F.initial leaves) := by
  refine ⟨LeafRes.initial, ⟨ownedBy none, ⟨?_, ?_, ?_⟩, ?_⟩, ?_⟩
  · exact List.nodup_reverse.mpr List.nodup_range
  · intro b
    show b ∈ (List.range F.numBlocks).reverse ↔ _
    simp [ownedBy]
  · exact fun b hb => absurd rfl hb
  · exact .producing rfl (fun _ => rfl) rfl rfl
  · intro t
    cases t with
    | worker w =>
        apply safe_ret
        by_cases hw : w < F.numCores
        · rw [if_pos hw]
          exact trivial
        · rw [if_neg hw]
          exact trivial
    | producer => exact safe_ret fun _ => rfl
    | caller => exact safe_ret trivial

/-- A single leaf keeps its buffer, whatever the caller does. -/
theorem owners_single (hlen : leaves.length = 1) {c : Config (State L P) Thread (Label L P)}
    (h : Steps (F.code leaves) (F.initial leaves) c) : ∃ holder, Owners F leaves c holder := by
  have hsound : Sound (LeafInv F.numBlocks) LeafPost c :=
    sound_leaf_initial.steps (safe_leaf_code hlen) h
  obtain ⟨rs, ⟨holder, hfree, hstage⟩, hsafe⟩ := hsound
  have hpost : ∀ t l, c.threads t = .ret l → LeafPost t l (rs t) := by
    intro t l hret
    have ht := hsafe t
    rw [hret] at ht
    exact ht
  have hroot : ∀ i, i < 2 * leaves.length - 1 → i = 0 := by
    intro i hi
    omega
  refine ⟨holder, hfree, ?_, ?_, ?_, ?_, ?_⟩
  · intro i b hi hid
    obtain rfl := hroot i hi
    cases hstage with
    | producing _ _ _ htask =>
        rw [htask] at hid
        cases hid
    | queued _ _ _ _ htask =>
        rw [htask] at hid
        cases hid
    | working _ _ _ hbuf _ =>
        rw [hbuf b hid, ownedBy, Function.update_self]
        exact Or.inr ⟨_, rfl⟩
    | ready _ _ _ htask _ =>
        rw [htask] at hid
        obtain rfl := Option.some.inj hid
        exact Or.inl (Function.update_self _ _ _)
  · intro i j b hi hj _ _
    rw [hroot i hi, hroot j hj]
  · intro b i hheld
    cases hstage with
    | @ready d _ _ _ htask hblock =>
        by_cases hbd : b = d
        · rw [hbd, Function.update_self] at hheld
          obtain rfl := Holder.held.inj hheld
          refine ⟨by omega, ?_, by rwa [hbd]⟩
          rw [htask, hbd, readyState, if_neg (by omega)]
        · rw [Function.update_of_ne hbd] at hheld
          cases hheld
    | @working buf _ _ _ _ _ _ =>
        cases buf with
        | none => cases hheld
        | some d =>
            by_cases hbd : b = d
            · rw [hbd, ownedBy, Function.update_self] at hheld
              cases hheld
            · rw [ownedBy, Function.update_of_ne hbd] at hheld
              cases hheld
    | _ => cases hheld
  · intro b t l howned hret
    cases hstage with
    | @ready d _ _ _ _ _ =>
        by_cases hbd : b = d
        · rw [hbd, Function.update_self] at howned
          cases howned
        · rw [Function.update_of_ne hbd] at howned
          cases howned
    | @working buf full _ _ hwork _ _ =>
        cases buf with
        | none => cases howned
        | some d =>
            by_cases hbd : b = d
            · -- between two rounds the worker has no buffer
              rw [hbd, ownedBy, Function.update_self] at howned
              obtain rfl := Holder.owned.inj howned
              have hlabel := hpost _ l hret
              rw [hwork] at hlabel
              cases l with
              | top => cases hlabel
              | halted => cases hlabel
              | alloc leaf i => exact absurd (LeafRes.task.inj hlabel.2.2).2.1 (by simp)
              | _ => exact hlabel.elim
            · rw [ownedBy, Function.update_of_ne hbd] at howned
              cases howned
    | _ => cases howned
  · intro t hret
    have hpanic := hpost t _ hret
    cases t with
    | _ => exact hpanic.elim

end Leaf

section All

variable {L P Proof E : Type} {F : ParallelTreeFolder L P Proof E} {leaves : List L}

/-- **Each buffer has one owner** in every state of a run in which the caller has not given
the root's buffer back, if no fold of two children fails. -/
theorem owners_of_keepsRoot (hfolds : F.reducer.FoldsNodes leaves)
    {c₀ c : Config (State L P) Thread (Label L P)} (hrun : F.run leaves = .ok c₀)
    (h : StepsIf (F.code leaves) KeepsRoot c₀ c) : ∃ holder, Owners F leaves c holder := by
  obtain ⟨hlen, rfl⟩ := ParallelTreeFolder.run_eq_ok hrun
  have hpos : 0 < leaves.length := by
    rw [hlen]
    exact Nat.two_pow_pos _
  by_cases hn : 2 ≤ leaves.length
  · have hkeeps : StepsIf (F.code leaves) (KeepsFree fun _ => True) (F.initial leaves) c :=
      h.mono fun _ _ _ hroot ht _ => hroot ht
    exact exists_owners
      ((soundIf_initial hlen hn).steps (safeIf_code hlen hn fun _ _ => hfolds) hkeeps)
  · exact owners_single (by omega) h.steps

theorem owners_of_keepsRoot_two :
    ∃ holder, Owners oneWorker [3, 5] (twoLeavesAfter 46) holder := by
  have hrun : oneWorker.run [3, 5] = .ok (oneWorker.initial [3, 5]) := rfl
  refine owners_of_keepsRoot ?_ hrun (stepsIf_exec ?_ _)
  · exact fun _ _ _ _ _ _ _ => nofun
  · rintro t ht _ _ rfl
    simp at ht

/-- The two leaves are folded and the caller has taken the result. -/
def rootTaken : Config (State ℕ ℕ) Thread (Label ℕ ℕ) :=
  (twoLeavesAfter 54).exec (oneWorker.code [3, 5]) (List.replicate 8 .caller)

/-- **The root's buffer is free while the root still names it.** -/
theorem root_names_free_buffer : ¬oneWorker.OwnsBuffers [3, 5] := by
  intro h
  have hreach : oneWorker.Reachable [3, 5] rootTaken :=
    ⟨_, rfl, (steps_exec _ _).trans (steps_exec _ _)⟩
  obtain ⟨holder, howners⟩ := h _ hreach
  have hmem : 7 ∈ rootTaken.state.free := by decide
  have hfree : holder 7 = .free := ((howners.pool.mem 7).mp hmem).2
  have hid : (rootTaken.state.tasks 0).bufferId = some 7 := rfl
  rcases howners.named 0 7 (by decide) hid with hheld | ⟨t, ht⟩
  · rw [hfree] at hheld
    cases hheld
  · rw [hfree] at ht
    cases ht

end All

end NexusVm.Nova.ParallelTree
