import NexusVm.Nova.ParallelTree

/-!
# Ownership in the parallel fold

Who may touch which task and which buffer.  A thread owns the task it works on and,
once both are ready, the task's children; a task that is ready and has told its parent
is deposited there together with its buffer.
-/

namespace NexusVm.Nova.ParallelTree

open Concurrent

section Values

variable {L P Proof E : Type} (R : FoldReducer L P Proof E) (leaves : List L)

/-- What the sequential fold gives for the subtree of a task. -/
inductive Folded : ℕ → P → Prop
  | leaf {i : ℕ} {l : L} {v : P} (hi : leaves.length - 1 ≤ i)
      (hl : leaves[i - (leaves.length - 1)]? = some l) (hv : R.strictToAcc l = .ok v) : Folded i v
  | node {i : ℕ} {a b v : P} {proof : Proof} (hi : i < leaves.length - 1)
      (ha : Folded (2 * i + 1) a)
      (hb : Folded (2 * i + 2) b) (hv : R.foldAccAcc a b = .ok (v, proof)) : Folded i v

/-- The reducer fails on some input. -/
def FoldReducer.Fails : Prop :=
  (∃ l e, R.strictToAcc l = .error e) ∨ ∃ a b e, R.foldAccAcc a b = .error e

/-- The state in which a task waits for consumption. -/
def readyState (i : ℕ) : ℕ :=
  if i < leaves.length - 1 then NodeState.processedWaitingForConsumption else LeafState.ready

/-- The parent of a task that is not the root. -/
def up (i : ℕ) : ℕ := (i - 1) / 2

end Values

/-- Whether a thread works on a task itself or has taken it as a child. -/
inductive Mode
  | making
  | taken
deriving DecidableEq

/-- Who may touch a task. -/
inductive Status (P : Type)
  | outside
  /-- A leaf that no worker has popped. -/
  | fresh
  /-- A node that waits for children; they may touch it. -/
  | waiting
  | owned (t : Thread) (m : Mode)
  /-- Ready, with its buffer and value, for the parent's worker. -/
  | deposited (b : ℕ) (v : P)

/-- Who may touch a buffer. -/
inductive Holder
  | free
  | owned (t : Thread)
  | held (i : ℕ)
deriving DecidableEq

structure Ghost (P : Type) where
  status : ℕ → Status P
  buf : ℕ → Holder
  nextLeaf : ℕ

namespace Status

variable {P : Type}

/-- Not yet consumed by the parent. -/
def Pending : Status P → Prop
  | .fresh => True
  | .waiting => True
  | .owned _ .making => True
  | .deposited _ _ => True
  | _ => False

def Deposited : Status P → Bool
  | .deposited _ _ => true
  | _ => false

/-- What a thread sees of a task. -/
def view (t : Thread) (task : Task) : Status P → Option (Mode × Task)
  | .owned u m => if u = t then some (m, task) else none
  | _ => none

end Status

/-- What a thread sees of a buffer. -/
def Holder.view {P : Type} (t : Thread) (block : Option P) : Holder → Option (Option P)
  | .owned u => if u = t then some block else none
  | _ => none

/-- The number of children that are deposited. -/
def Ghost.deposits {P : Type} (g : Ghost P) (i : ℕ) : ℕ :=
  (if (g.status (2 * i + 1)).Deposited then 1 else 0) +
    if (g.status (2 * i + 2)).Deposited then 1 else 0

/-- What a thread owns and has seen. -/
structure Res (P : Type) where
  tasks : ℕ → Option (Mode × Task)
  bufs : ℕ → Option (Option P)
  ready : List ℕ
  cursor : ℕ
  /-- The caller may still take the root's buffer. -/
  token : Bool
  sawRoot : Bool
  sawStop : Bool

section Updates

variable {P : Type} (r : Res P)

def Res.setTask (i : ℕ) (x : Option (Mode × Task)) : Res P :=
  { r with tasks := Function.update r.tasks i x }

def Res.setBuf (b : ℕ) (x : Option (Option P)) : Res P :=
  { r with bufs := Function.update r.bufs b x }

@[simp] theorem Res.setTask_self (i : ℕ) (x : Option (Mode × Task)) :
    (r.setTask i x).tasks i = x := by
  simp [Res.setTask]

theorem Res.setTask_of_ne {i j : ℕ} (h : j ≠ i) (x : Option (Mode × Task)) :
    (r.setTask i x).tasks j = r.tasks j := by
  simp [Res.setTask, h]

@[simp] theorem Res.setTask_bufs (i : ℕ) (x : Option (Mode × Task)) :
    (r.setTask i x).bufs = r.bufs := rfl

@[simp] theorem Res.setTask_setTask (i : ℕ) (x y : Option (Mode × Task)) :
    (r.setTask i x).setTask i y = r.setTask i y := by
  simp [Res.setTask]

@[simp] theorem Res.setBuf_self (b : ℕ) (x : Option (Option P)) :
    (r.setBuf b x).bufs b = x := by
  simp [Res.setBuf]

theorem Res.setBuf_of_ne {b c : ℕ} (h : c ≠ b) (x : Option (Option P)) :
    (r.setBuf b x).bufs c = r.bufs c := by
  simp [Res.setBuf, h]

@[simp] theorem Res.setBuf_tasks (b : ℕ) (x : Option (Option P)) :
    (r.setBuf b x).tasks = r.tasks := rfl

@[simp] theorem Res.setBuf_setBuf (b : ℕ) (x y : Option (Option P)) :
    (r.setBuf b x).setBuf b y = r.setBuf b y := by
  simp [Res.setBuf]

/-- A field of the resources of all threads that one thread leaves as it is. -/
theorem field_update {α : Type} (f : Res P → α) {rs : Thread → Res P} {t : Thread} {r : Res P}
    (h : f r = f (rs t)) (u : Thread) : f (Function.update rs t r u) = f (rs u) := by
  by_cases hu : u = t
  · rw [hu, Function.update_self, h]
  · rw [Function.update_of_ne hu]

end Updates

/-! ## The free list and the invariant -/

/-- The free list has the buffers that nobody has, once each. -/
structure FreeList (numBlocks : ℕ) (free : List ℕ) (holder : ℕ → Holder) : Prop where
  nodup : free.Nodup
  mem : ∀ b, b ∈ free ↔ b < numBlocks ∧ holder b = .free
  inPool : ∀ b, holder b ≠ .free → b < numBlocks

section FreeList

variable {numBlocks b : ℕ} {free : List ℕ} {holder : ℕ → Holder}

theorem FreeList.pop (h : FreeList numBlocks (b :: free) holder) {x : Holder} (hx : x ≠ .free) :
    FreeList numBlocks free (Function.update holder b x) := by
  obtain ⟨hnot, hnodup⟩ := List.nodup_cons.mp h.nodup
  have hb : b < numBlocks := ((h.mem b).mp List.mem_cons_self).1
  refine ⟨hnodup, fun c => ?_, fun c hc => ?_⟩
  · by_cases hcb : c = b
    · subst hcb
      simp [hnot, hx]
    · rw [Function.update_of_ne hcb, ← h.mem, List.mem_cons]
      simp [hcb]
  · by_cases hcb : c = b
    · rwa [hcb]
    · rw [Function.update_of_ne hcb] at hc
      exact h.inPool c hc

theorem FreeList.push (h : FreeList numBlocks free holder) (hb : holder b ≠ .free) :
    FreeList numBlocks (free ++ [b]) (Function.update holder b .free) := by
  have hlt : b < numBlocks := h.inPool b hb
  have hnot : b ∉ free := fun hmem => hb ((h.mem b).mp hmem).2
  refine ⟨?_, fun c => ?_, fun c hc => ?_⟩
  · rw [List.nodup_append]
    refine ⟨h.nodup, List.nodup_singleton b, ?_⟩
    rintro c hc _ hc' rfl
    rw [List.mem_singleton] at hc'
    exact hnot (hc' ▸ hc)
  · by_cases hcb : c = b
    · subst hcb
      simp [hlt]
    · rw [Function.update_of_ne hcb, List.mem_append, List.mem_singleton, h.mem]
      simp [hcb]
  · by_cases hcb : c = b
    · rwa [hcb]
    · rw [Function.update_of_ne hcb] at hc
      exact h.inPool c hc

end FreeList

section Invariant

variable {L P Proof E : Type} (R : FoldReducer L P Proof E) (leaves : List L)
  (numBlocks numWorkers : ℕ)

/-- The worker that a leaf belongs to. -/
def chunk (i : ℕ) : ℕ :=
  min ((i - (leaves.length - 1)) * numWorkers / leaves.length) (numWorkers - 1)

/-- Threads see what they own. -/
structure Views (s : State L P) (rs : Thread → Res P) (g : Ghost P) : Prop where
  tasks : ∀ t i, (rs t).tasks i = (g.status i).view t (s.tasks i)
  bufs : ∀ t b, (rs t).bufs b = (g.buf b).view t (s.blocks b)
  ready : ∀ w, (rs (.worker w)).ready = s.readyQ w
  cursor : (rs .producer).cursor = g.nextLeaf

/-- The tasks that are not owned are in the states their statuses say. -/
structure TreeInv (tasks : ℕ → Task) (blocks : ℕ → Option P) (g : Ghost P) : Prop where
  outside : ∀ i, g.status i = .outside ↔ 2 * leaves.length - 1 ≤ i
  fresh : ∀ i, g.status i = .fresh → leaves.length - 1 ≤ i ∧ tasks i = ⟨none, 0⟩
  waiting : ∀ i, g.status i = .waiting →
    i < leaves.length - 1 ∧ tasks i = ⟨none, g.deposits i⟩ ∧ g.deposits i ≤ 1
  deposited : ∀ i b v, g.status i = .deposited b v →
    tasks i = ⟨some b, readyState leaves i⟩ ∧ g.buf b = .held i ∧ blocks b = some v ∧
      Folded R leaves i v
  pending : ∀ i, 0 < i → (g.status i).Pending → g.status (up i) = .waiting
  consumed : ∀ i, 0 < i → g.status (up i) = .waiting → (g.status i).Pending
  root : ∀ t, g.status 0 = .owned t .making →
    (tasks 0).state ≠ NodeState.processedWaitingForConsumption

/-- The free list holds the buffers that nobody owns, once each. -/
structure PoolInv (free : List ℕ) (g : Ghost P) : Prop where
  held : ∀ b i, g.buf b = .held i → ∃ v, g.status i = .deposited b v
  inRange : ∀ b, g.buf b ≠ .free → b < numBlocks
  nodup : free.Nodup
  mem : ∀ b, b ∈ free ↔ b < numBlocks ∧ g.buf b = .free

/-- The leaf queues hold the leaves that are produced and not popped, in order. -/
structure QueueInv (leafQ : ℕ → List (L × ℕ)) (g : Ghost P) : Prop where
  sorted : ∀ w, ((leafQ w).map Prod.snd).Pairwise (· < ·)
  payload : ∀ w x, x ∈ leafQ w → leaves[x.2 - (leaves.length - 1)]? = some x.1
  mem : ∀ w i, i ∈ (leafQ w).map Prod.snd ↔
    g.status i = .fresh ∧ i < g.nextLeaf ∧ chunk leaves numWorkers i = w
  unproduced : ∀ i, g.nextLeaf ≤ i → i < 2 * leaves.length - 1 → g.status i = .fresh
  range : leaves.length - 1 ≤ g.nextLeaf ∧ g.nextLeaf ≤ 2 * leaves.length - 1
  later : ∀ i j, g.status i = .fresh → i < j → j < 2 * leaves.length - 1 →
    chunk leaves numWorkers j = chunk leaves numWorkers i → g.status j = .fresh
  owned : ∀ t i, leaves.length - 1 ≤ i → g.status i = .owned t .making → R.Fails ∨
    t = .worker (chunk leaves numWorkers i) ∧ ∀ j, i < j → j < 2 * leaves.length - 1 →
      chunk leaves numWorkers j = chunk leaves numWorkers i → g.status j = .fresh

/-- The root is deposited before the stop flag is set, and the caller takes it at most
once. -/
structure FlagInv (s : State L P) (rs : Thread → Res P) (g : Ghost P) : Prop where
  sawRoot : ∀ t, (rs t).sawRoot = true →
    (rs .caller).token = false ∨ ∃ b v, g.status 0 = .deposited b v
  stop : s.stop = true → (rs .caller).token = false ∨ ∃ b v, g.status 0 = .deposited b v
  sawStop : ∀ t, (rs t).sawStop = true → s.stop = true
  token : (rs .caller).token = false → s.stop = true ∧ g.status 0 = .owned .caller .taken ∧
    (s.tasks 0).state = readyState leaves 0
  taken : ∀ t, g.status 0 = .owned t .taken → (rs .caller).token = false
  deposited : ∀ b v, g.status 0 = .deposited b v → s.stop = true ∨ ∃ t, (rs t).sawRoot = true

/-- The invariant, for a ghost state. -/
structure InvWith (s : State L P) (rs : Thread → Res P) (g : Ghost P) : Prop where
  views : Views s rs g
  tree : TreeInv R leaves s.tasks s.blocks g
  pool : PoolInv numBlocks s.free g
  queue : QueueInv R leaves numWorkers s.leafQ g
  flags : FlagInv leaves s rs g

def Inv (s : State L P) (rs : Thread → Res P) : Prop :=
  ∃ g, InvWith R leaves numBlocks numWorkers s rs g

end Invariant

/-! ## Owned tasks and buffers -/

section Owned

variable {L P Proof E : Type} {R : FoldReducer L P Proof E} {leaves : List L}
  {numBlocks numWorkers : ℕ} {s : State L P} {rs : Thread → Res P} {g : Ghost P} {t : Thread}

theorem Status.view_eq_some {st : Status P} {task : Task} {x : Mode × Task} :
    st.view t task = some x ↔ st = .owned t x.1 ∧ task = x.2 := by
  cases st with
  | owned u m =>
      simp only [Status.view]
      split_ifs with hu
      · subst hu
        simp only [Option.some.injEq, Status.owned.injEq, true_and]
        exact Prod.ext_iff
      · simp [hu]
  | _ => simp [Status.view]

theorem Holder.view_eq_some {h : Holder} {block x : Option P} :
    h.view t block = some x ↔ h = .owned t ∧ block = x := by
  cases h with
  | owned u =>
      simp only [Holder.view]
      split_ifs with hu
      · simp [hu]
      · simp [hu]
  | _ => simp [Holder.view]

theorem Views.owned (h : Views s rs g) {i : ℕ} {m : Mode} {task : Task}
    (hr : (rs t).tasks i = some (m, task)) : g.status i = .owned t m ∧ s.tasks i = task := by
  rw [h.tasks, Status.view_eq_some] at hr
  exact hr

theorem Views.buf (h : Views s rs g) {b : ℕ} {x : Option P} (hr : (rs t).bufs b = some x) :
    g.buf b = .owned t ∧ s.blocks b = x := by
  rw [h.bufs, Holder.view_eq_some] at hr
  exact hr

theorem PoolInv.freeList {free : List ℕ} {g : Ghost P} (h : PoolInv numBlocks free g) :
    FreeList numBlocks free g.buf :=
  ⟨h.nodup, h.mem, h.inRange⟩

/-- The queue part of the invariant only looks at which tasks are fresh and which leaves
are being made. -/
theorem QueueInv.congr {leafQ : ℕ → List (L × ℕ)} {g' : Ghost P}
    (h : QueueInv R leaves numWorkers leafQ g) (hnext : g'.nextLeaf = g.nextLeaf)
    (hfresh : ∀ i, g'.status i = .fresh ↔ g.status i = .fresh)
    (howned : ∀ t i, g'.status i = .owned t .making →
      g.status i = .owned t .making ∨ i < leaves.length - 1) :
    QueueInv R leaves numWorkers leafQ g' where
  sorted := h.sorted
  payload := h.payload
  mem w i := by rw [hfresh, hnext, h.mem]
  unproduced i := by
    rw [hnext, hfresh]
    exact h.unproduced i
  range := by
    rw [hnext]
    exact h.range
  later i j := by
    rw [hfresh, hfresh]
    exact h.later i j
  owned t i hi ht := by
    simp only [hfresh]
    rcases howned t i ht with ht | hlt
    · exact h.owned t i hi ht
    · exact absurd hi (not_le.mpr hlt)

theorem Status.view_of_ne {st : Status P} {u : Thread} {m : Mode} (h : st = .owned t m)
    (hu : u ≠ t) (task : Task) : st.view u task = none := by
  rw [h, Status.view, if_neg (Ne.symm hu)]

theorem Holder.view_of_ne {h : Holder} {u : Thread} (hh : h = .owned t) (hu : u ≠ t)
    (block : Option P) : h.view u block = none := by
  rw [hh, Holder.view, if_neg (Ne.symm hu)]

/-- The views after one thread's resource has changed. -/
theorem Views.update (h : Views s rs g) {s' : State L P} {r' : Res P} {g' : Ghost P}
    (htasks : ∀ j, r'.tasks j = (g'.status j).view t (s'.tasks j))
    (hbufs : ∀ b, r'.bufs b = (g'.buf b).view t (s'.blocks b))
    (hready : ∀ w, t = .worker w → r'.ready = s'.readyQ w)
    (hcursor : t = .producer → r'.cursor = g'.nextLeaf)
    (htasks' : ∀ u, u ≠ t → ∀ j,
      (g'.status j).view u (s'.tasks j) = (g.status j).view u (s.tasks j))
    (hbufs' : ∀ u, u ≠ t → ∀ b,
      (g'.buf b).view u (s'.blocks b) = (g.buf b).view u (s.blocks b))
    (hready' : ∀ w, t ≠ .worker w → s'.readyQ w = s.readyQ w)
    (hcursor' : t ≠ .producer → g'.nextLeaf = g.nextLeaf) :
    Views s' (Function.update rs t r') g' := by
  constructor
  · intro u j
    by_cases hu : u = t
    · rw [hu, Function.update_self, htasks]
    · rw [Function.update_of_ne hu, htasks' u hu, h.tasks]
  · intro u b
    by_cases hu : u = t
    · rw [hu, Function.update_self, hbufs]
    · rw [Function.update_of_ne hu, hbufs' u hu, h.bufs]
  · intro w
    by_cases hu : t = .worker w
    · rw [← hu, Function.update_self, hready w hu]
    · rw [Function.update_of_ne (Ne.symm hu), hready' w hu, h.ready]
  · by_cases hu : t = .producer
    · rw [← hu, Function.update_self, hcursor hu]
    · rw [Function.update_of_ne (Ne.symm hu), hcursor' hu, h.cursor]

/-- A task changes that no other thread sees, before or after. -/
theorem Views.setStatus (h : Views s rs g) (i : ℕ) (st : Status P) (tasks : ℕ → Task)
    (hold : ∀ u, u ≠ t → (g.status i).view u (s.tasks i) = none)
    (hnew : ∀ u, u ≠ t → st.view u (tasks i) = none)
    (hsame : ∀ j, j ≠ i → ∀ u, (g.status j).view u (tasks j) = (g.status j).view u (s.tasks j)) :
    (∀ j, Function.update (rs t).tasks i (st.view t (tasks i)) j =
        (Function.update g.status i st j).view t (tasks j)) ∧
      ∀ u, u ≠ t → ∀ j, (Function.update g.status i st j).view u (tasks j) =
        (g.status j).view u (s.tasks j) := by
  constructor
  · intro j
    by_cases hj : j = i
    · rw [hj, Function.update_self, Function.update_self]
    · rw [Function.update_of_ne hj, Function.update_of_ne hj, h.tasks, hsame j hj]
  · intro u hu j
    by_cases hj : j = i
    · rw [hj, Function.update_self, hnew u hu, hold u hu]
    · rw [Function.update_of_ne hj, hsame j hj]

/-- A buffer changes that no other thread sees, before or after. -/
theorem Views.setHolder (h : Views s rs g) (b : ℕ) (x : Holder) (blocks : ℕ → Option P)
    (hold : ∀ u, u ≠ t → (g.buf b).view u (s.blocks b) = none)
    (hnew : ∀ u, u ≠ t → x.view u (blocks b) = none) (hsame : ∀ c, c ≠ b → blocks c = s.blocks c) :
    (∀ c, Function.update (rs t).bufs b (x.view t (blocks b)) c =
        (Function.update g.buf b x c).view t (blocks c)) ∧
      ∀ u, u ≠ t → ∀ c, (Function.update g.buf b x c).view u (blocks c) =
        (g.buf c).view u (s.blocks c) := by
  constructor
  · intro c
    by_cases hc : c = b
    · rw [hc, Function.update_self, Function.update_self]
    · rw [Function.update_of_ne hc, Function.update_of_ne hc, h.bufs, hsame c hc]
  · intro u hu c
    by_cases hc : c = b
    · rw [hc, Function.update_self, hnew u hu, hold u hu]
    · rw [Function.update_of_ne hc, hsame c hc]

/-- The views after tasks and buffers have moved; the queues are as before. -/
theorem Views.move (h : Views s rs g) {s' : State L P} {r' : Res P} {g' : Ghost P}
    (htasks : (∀ j, r'.tasks j = (g'.status j).view t (s'.tasks j)) ∧ ∀ u, u ≠ t → ∀ j,
      (g'.status j).view u (s'.tasks j) = (g.status j).view u (s.tasks j))
    (hbufs : (∀ b, r'.bufs b = (g'.buf b).view t (s'.blocks b)) ∧ ∀ u, u ≠ t → ∀ b,
      (g'.buf b).view u (s'.blocks b) = (g.buf b).view u (s.blocks b))
    (hready : r'.ready = (rs t).ready) (hcursor : r'.cursor = (rs t).cursor)
    (hreadyQ : s'.readyQ = s.readyQ) (hnext : g'.nextLeaf = g.nextLeaf) :
    Views s' (Function.update rs t r') g' := by
  refine h.update htasks.1 hbufs.1 ?_ ?_ htasks.2 hbufs.2 (fun w _ => congrFun hreadyQ w)
    fun _ => hnext
  · rintro w rfl
    rw [hready, hreadyQ, h.ready]
  · rintro rfl
    rw [hcursor, hnext, h.cursor]

/-- Buffers that are not held by tasks change. -/
theorem TreeInv.setHolder {tasks : ℕ → Task} {blocks blocks' : ℕ → Option P} {buf : ℕ → Holder}
    (h : TreeInv R leaves tasks blocks g)
    (hbuf : ∀ b i, g.buf b = .held i → buf b = .held i ∧ blocks' b = blocks b) :
    TreeInv R leaves tasks blocks' { g with buf := buf } := by
  refine ⟨h.outside, h.fresh, h.waiting, ?_, h.pending, h.consumed, h.root⟩
  intro j c v hj
  obtain ⟨htask, hheld, hblock, hfolded⟩ := h.deposited j c v hj
  obtain ⟨hheld', hblock'⟩ := hbuf c j hheld
  exact ⟨htask, hheld', hblock'.trans hblock, hfolded⟩

/-- A buffer that is not free passes to another holder. -/
theorem PoolInv.pass {free : List ℕ} {g' : Ghost P} (h : PoolInv numBlocks free g) {b : ℕ}
    {x : Holder} (hb : g.buf b ≠ .free) (hx : x ≠ .free) (hbuf : g'.buf = Function.update g.buf b x)
    (hheld : ∀ i, x = .held i → ∃ v, g'.status i = .deposited b v)
    (hstatus : ∀ i d v, d ≠ b → g.status i = .deposited d v → g'.status i = .deposited d v) :
    PoolInv numBlocks free g' := by
  have hself : g'.buf b = x := by rw [hbuf, Function.update_self]
  have hother : ∀ d, d ≠ b → g'.buf d = g.buf d := by
    intro d hd
    rw [hbuf, Function.update_of_ne hd]
  refine ⟨fun d i hd => ?_, fun d hd => ?_, h.nodup, fun d => ?_⟩
  · by_cases hdb : d = b
    · rw [hdb, hself] at hd
      rw [hdb]
      exact hheld i hd
    · rw [hother d hdb] at hd
      obtain ⟨v, hv⟩ := h.held d i hd
      exact ⟨v, hstatus i d v hdb hv⟩
  · by_cases hdb : d = b
    · rw [hdb]
      exact h.inRange b hb
    · rw [hother d hdb] at hd
      exact h.inRange d hd
  · rw [h.mem]
    by_cases hdb : d = b
    · simp only [hdb, hself, hb, hx, and_false]
    · rw [hother d hdb]

/-- The flags when the thread's own are as before. -/
theorem FlagInv.congr (h : FlagInv leaves s rs g) {s' : State L P} {r' : Res P} {g' : Ghost P}
    (hstop : s'.stop = s.stop) (htoken : r'.token = (rs t).token)
    (hsawRoot : r'.sawRoot = (rs t).sawRoot) (hsawStop : r'.sawStop = (rs t).sawStop)
    (hroot : ∀ b v, g'.status 0 = .deposited b v ↔ g.status 0 = .deposited b v)
    (htaken : ∀ u, g'.status 0 = .owned u .taken → g.status 0 = .owned u .taken)
    (hcaller : g.status 0 = .owned .caller .taken → g'.status 0 = .owned .caller .taken ∧
      (s'.tasks 0).state = (s.tasks 0).state) :
    FlagInv leaves s' (Function.update rs t r') g' := by
  have htok := field_update Res.token htoken
  have hdep : ∀ {tok : Bool}, (tok = false ∨ ∃ b v, g.status 0 = .deposited b v) →
      tok = false ∨ ∃ b v, g'.status 0 = .deposited b v := by
    rintro tok (htok | ⟨b, v, hbv⟩)
    · exact Or.inl htok
    · exact Or.inr ⟨b, v, (hroot b v).mpr hbv⟩
  constructor
  · intro u hu
    rw [field_update Res.sawRoot hsawRoot] at hu
    rw [htok]
    exact hdep (h.sawRoot u hu)
  · intro hs
    rw [hstop] at hs
    rw [htok]
    exact hdep (h.stop hs)
  · intro u hu
    rw [field_update Res.sawStop hsawStop] at hu
    rw [hstop]
    exact h.sawStop u hu
  · intro ht
    rw [htok] at ht
    obtain ⟨hs, hcall, hstate⟩ := h.token ht
    obtain ⟨hcall', hstate'⟩ := hcaller hcall
    exact ⟨hstop.trans hs, hcall', hstate'.trans hstate⟩
  · intro u hu
    rw [htok]
    exact h.taken u (htaken u hu)
  · intro b v hbv
    rw [hstop]
    rcases h.deposited b v ((hroot b v).mp hbv) with hs | ⟨u, hu⟩
    · exact Or.inl hs
    · exact Or.inr ⟨u, by rw [field_update Res.sawRoot hsawRoot, hu]⟩

/-- **A thread writes a task that it owns.** -/
theorem Inv.setTask (h : Inv R leaves numBlocks numWorkers s rs) {i : ℕ} {m : Mode} {task : Task}
    (hr : (rs t).tasks i = some (m, task)) (task' : Task)
    (h0 : i = 0 → m = .making ∧ task'.state ≠ NodeState.processedWaitingForConsumption) :
    Inv R leaves numBlocks numWorkers (s.setTask i task')
      (Function.update rs t ((rs t).setTask i (some (m, task')))) := by
  obtain ⟨g, hv, ht, hp, hq, hf⟩ := h
  obtain ⟨hown, -⟩ := hv.owned hr
  have hne : ∀ j, g.status j ≠ g.status i → Function.update s.tasks i task' j = s.tasks j := by
    intro j hj
    exact Function.update_of_ne (fun heq => hj (by rw [heq])) _ _
  refine ⟨g, ?_, ?_, hp, hq, ?_⟩
  · have hviews := hv.setStatus i (g.status i) (Function.update s.tasks i task')
      (fun _ hu => Status.view_of_ne hown hu _) (fun _ hu => Status.view_of_ne hown hu _)
      fun j hj _ => by rw [Function.update_of_ne hj]
    rw [Function.update_eq_self, Function.update_self, hown, Status.view, if_pos rfl] at hviews
    exact hv.move hviews ⟨hv.bufs t, fun _ _ _ => rfl⟩ rfl rfl rfl rfl
  · constructor
    · exact ht.outside
    · intro j hj
      show _ ∧ Function.update s.tasks i _ j = _
      rw [hne j (by simp [hj, hown])]
      exact ht.fresh j hj
    · intro j hj
      show _ ∧ Function.update s.tasks i _ j = _ ∧ _
      rw [hne j (by simp [hj, hown])]
      exact ht.waiting j hj
    · intro j b v hj
      show Function.update s.tasks i _ j = _ ∧ _
      rw [hne j (by simp [hj, hown])]
      exact ht.deposited j b v hj
    · exact ht.pending
    · exact ht.consumed
    · intro u hu
      show (Function.update s.tasks i task' 0).state ≠ _
      by_cases hi : i = 0
      · rw [hi, Function.update_self]
        exact (h0 hi).2
      · rw [Function.update_of_ne (Ne.symm hi)]
        exact ht.root u hu
  · refine hf.congr rfl rfl rfl rfl (fun _ _ => Iff.rfl) (fun _ hu => hu) ?_
    intro hcall
    refine ⟨hcall, ?_⟩
    show (Function.update s.tasks i task' 0).state = _
    by_cases hi : i = 0
    · obtain ⟨rfl, -⟩ := h0 hi
      rw [hi, hcall] at hown
      cases hown
    · rw [Function.update_of_ne (Ne.symm hi)]

/-- **A thread writes a buffer that it owns.** -/
theorem Inv.setBlock (h : Inv R leaves numBlocks numWorkers s rs) {b : ℕ} {x : Option P}
    (hr : (rs t).bufs b = some x) (x' : Option P) :
    Inv R leaves numBlocks numWorkers (s.setBlock b x')
      (Function.update rs t ((rs t).setBuf b (some x'))) := by
  obtain ⟨g, hv, ht, hp, hq, hf⟩ := h
  obtain ⟨hown, -⟩ := hv.buf hr
  refine ⟨g, ?_, ?_, hp, hq, ?_⟩
  · have hviews := hv.setHolder b (g.buf b) (Function.update s.blocks b x')
      (fun _ hu => Holder.view_of_ne hown hu _) (fun _ hu => Holder.view_of_ne hown hu _)
      fun c hc => Function.update_of_ne hc _ _
    rw [Function.update_eq_self, Function.update_self, hown, Holder.view, if_pos rfl] at hviews
    exact hv.move ⟨hv.tasks t, fun _ _ _ => rfl⟩ hviews rfl rfl rfl rfl
  · refine ht.setHolder fun c i hc => ⟨hc, Function.update_of_ne ?_ _ _⟩
    rintro rfl
    rw [hown] at hc
    cases hc
  · exact hf.congr rfl rfl rfl rfl (fun _ _ => Iff.rfl) (fun _ hu => hu) fun hcall => ⟨hcall, rfl⟩

/-! ## Queues and pool -/

/-- A worker changes its own ready queue. -/
theorem Inv.setReady (h : Inv R leaves numBlocks numWorkers s rs) (w : ℕ) (q : List ℕ) :
    Inv R leaves numBlocks numWorkers { s with readyQ := Function.update s.readyQ w q }
      (Function.update rs (.worker w) { rs (.worker w) with ready := q }) := by
  obtain ⟨g, hv, ht, hp, hq, hf⟩ := h
  refine ⟨g, ?_, ht, hp, hq, ?_⟩
  · refine hv.update (hv.tasks _) (hv.bufs _) ?_ ?_ (fun _ _ _ => rfl) (fun _ _ _ => rfl) ?_
      (fun _ => rfl)
    · rintro w' hw
      obtain rfl := Thread.worker.inj hw
      show q = Function.update s.readyQ w q w
      rw [Function.update_self]
    · intro hw
      cases hw
    · intro w' hw
      exact Function.update_of_ne (fun heq => hw (by rw [heq])) _ _
  · exact hf.congr rfl rfl rfl rfl (fun _ _ => Iff.rfl) (fun _ hu => hu) fun hcall => ⟨hcall, rfl⟩

/-- The fresh leaf that is popped. -/
theorem Inv.popLeaf (h : Inv R leaves numBlocks numWorkers s rs) {w : ℕ} {x : L × ℕ}
    {rest : List (L × ℕ)} (hpop : s.leafQ w = x :: rest)
    (hnone : ∀ i task, (rs (.worker w)).tasks i = some (.making, task) → R.Fails) :
    leaves.length - 1 ≤ x.2 ∧ x.2 < 2 * leaves.length - 1 ∧
    leaves[x.2 - (leaves.length - 1)]? = some x.1 ∧ (rs (.worker w)).tasks x.2 = none ∧
    Inv R leaves numBlocks numWorkers { s with leafQ := Function.update s.leafQ w rest }
      (Function.update rs (.worker w)
        ((rs (.worker w)).setTask x.2 (some (.making, ⟨none, LeafState.notStarted⟩)))) := by
  obtain ⟨g, hv, ht, hp, hq, hf⟩ := h
  have hmem : x ∈ s.leafQ w := by
    rw [hpop]
    exact List.mem_cons_self
  obtain ⟨hfresh, hnext, hchunk⟩ := (hq.mem w x.2).mp (List.mem_map_of_mem hmem)
  obtain ⟨hleaf, htask⟩ := ht.fresh x.2 hfresh
  have hlt : x.2 < 2 * leaves.length - 1 := lt_of_lt_of_le hnext hq.range.2
  have hview : (rs (.worker w)).tasks x.2 = none := by
    rw [hv.tasks, hfresh]
    rfl
  -- the popped leaf is the first one of the queue
  have hsorted := hq.sorted w
  rw [hpop, List.map_cons, List.pairwise_cons] at hsorted
  let g' : Ghost P :=
    { g with status := Function.update g.status x.2 (.owned (.worker w) .making) }
  have hself : g'.status x.2 = .owned (.worker w) .making := Function.update_self _ _ _
  have hother : ∀ j, j ≠ x.2 → g'.status j = g.status j := fun j hj => Function.update_of_ne hj _ _
  have hstatus : ∀ j, g'.status j = .fresh ↔ g.status j = .fresh ∧ j ≠ x.2 := by
    intro j
    by_cases hj : j = x.2
    · simp [hj, hself]
    · simp [hother j hj, hj]
  have hdep : ∀ j, (g'.status j).Deposited = (g.status j).Deposited := by
    intro j
    by_cases hj : j = x.2
    · rw [hj, hself, hfresh]
      rfl
    · rw [hother j hj]
  have hwaiting : ∀ j, g'.status j = .waiting ↔ g.status j = .waiting := by
    intro j
    by_cases hj : j = x.2
    · simp [hj, hself, hfresh]
    · rw [hother j hj]
  have hpending : ∀ j, (g'.status j).Pending ↔ (g.status j).Pending := by
    intro j
    by_cases hj : j = x.2
    · simp [hj, hself, hfresh, Status.Pending]
    · rw [hother j hj]
  have hdeposited : ∀ j b v, g'.status j = .deposited b v ↔ g.status j = .deposited b v := by
    intro j b v
    by_cases hj : j = x.2
    · simp [hj, hself, hfresh]
    · rw [hother j hj]
  refine ⟨hleaf, hlt, hq.payload w x hmem, hview, g', ?_, ?_, ?_, ?_, ?_⟩
  · have hviews := hv.setStatus x.2 (.owned (.worker w) .making) s.tasks
      (fun _ _ => by rw [hfresh]; rfl) (fun _ hu => Status.view_of_ne rfl hu _) fun _ _ _ => rfl
    rw [htask, Status.view, if_pos rfl] at hviews
    exact hv.move hviews ⟨hv.bufs _, fun _ _ _ => rfl⟩ rfl rfl rfl rfl
  · constructor
    · intro j
      by_cases hj : j = x.2
      · rw [hj, hself]
        constructor
        · intro hout
          cases hout
        · intro hle
          omega
      · rw [hother j hj]
        exact ht.outside j
    · intro j hj
      exact ht.fresh j ((hstatus j).mp hj).1
    · intro j hj
      have hdeps : g'.deposits j = g.deposits j := by simp only [Ghost.deposits, hdep]
      rw [hdeps]
      exact ht.waiting j ((hwaiting j).mp hj)
    · intro j b v hj
      exact ht.deposited j b v ((hdeposited j b v).mp hj)
    · intro j hj hjp
      rw [hwaiting]
      exact ht.pending j hj ((hpending j).mp hjp)
    · intro j hj hjw
      rw [hpending]
      exact ht.consumed j hj ((hwaiting _).mp hjw)
    · intro u hu
      by_cases hj : 0 = x.2
      · rw [hj, htask]
        exact Nat.zero_ne_add_one 3
      · rw [hother 0 hj] at hu
        exact ht.root u hu
  · refine { hp with held := ?_ }
    intro b i hb
    obtain ⟨v, hi⟩ := hp.held b i hb
    exact ⟨v, (hdeposited i b v).mpr hi⟩
  · show QueueInv R leaves numWorkers (Function.update s.leafQ w rest) g'
    constructor
    · intro w'
      by_cases hw : w' = w
      · rw [hw, Function.update_self]
        exact hsorted.2
      · rw [Function.update_of_ne hw]
        exact hq.sorted w'
    · intro w' y hy
      by_cases hw : w' = w
      · rw [hw, Function.update_self] at hy
        exact hq.payload w y (by rw [hpop]; exact List.mem_cons_of_mem x hy)
      · rw [Function.update_of_ne hw] at hy
        exact hq.payload w' y hy
    · intro w' i
      rw [hstatus]
      by_cases hw : w' = w
      · have hcons := hq.mem w i
        rw [hpop, List.map_cons, List.mem_cons] at hcons
        rw [hw, Function.update_self]
        constructor
        · intro hi
          obtain ⟨hf, hn, hc⟩ := hcons.mp (Or.inr hi)
          exact ⟨⟨hf, (hsorted.1 i hi).ne'⟩, hn, hc⟩
        · rintro ⟨⟨hf, hne⟩, hn, hc⟩
          exact (hcons.mpr ⟨hf, hn, hc⟩).resolve_left hne
      · rw [Function.update_of_ne hw, hq.mem]
        constructor
        · rintro ⟨hf, hn, hc⟩
          refine ⟨⟨hf, ?_⟩, hn, hc⟩
          rintro rfl
          exact hw (hc.symm.trans hchunk)
        · rintro ⟨⟨hf, -⟩, hn, hc⟩
          exact ⟨hf, hn, hc⟩
    · intro i hi hlt'
      rw [hstatus]
      refine ⟨hq.unproduced i hi hlt', ?_⟩
      rintro rfl
      exact absurd hnext (not_lt.mpr hi)
    · exact hq.range
    · intro i j hi hij hj hc
      rw [hstatus] at hi ⊢
      refine ⟨hq.later i j hi.1 hij hj hc, ?_⟩
      rintro rfl
      -- then an earlier leaf of the chunk would be at the front of the queue
      have hin : i ∈ (s.leafQ w).map Prod.snd :=
        (hq.mem w i).mpr ⟨hi.1, hij.trans hnext, hc.symm.trans hchunk⟩
      rw [hpop, List.map_cons, List.mem_cons] at hin
      rcases hin with rfl | hin
      · exact hi.2 rfl
      · exact absurd (hsorted.1 i hin) (not_lt.mpr hij.le)
    · intro u i hi hu
      by_cases hix : i = x.2
      · subst hix
        rw [hself] at hu
        obtain ⟨rfl, -⟩ := Status.owned.inj hu
        refine Or.inr ⟨by rw [hchunk], fun j hij hj hc => ?_⟩
        rw [hstatus]
        exact ⟨hq.later x.2 j hfresh hij hj hc, hij.ne'⟩
      · rw [hother i hix] at hu
        rcases hq.owned u i hi hu with hfail | ⟨rfl, hlater⟩
        · exact Or.inl hfail
        · by_cases hiw : chunk leaves numWorkers i = w
          · -- the worker has no other leaf
            left
            apply hnone i (s.tasks i)
            rw [hv.tasks, hu, hiw, Status.view, if_pos rfl]
          · refine Or.inr ⟨rfl, fun j hij hj hc => ?_⟩
            rw [hstatus]
            refine ⟨hlater j hij hj hc, ?_⟩
            rintro rfl
            exact hiw (hc.symm.trans hchunk)
  · have hcaller : g.status 0 = .owned .caller .taken → (0 : ℕ) ≠ x.2 := by
      intro hcall heq
      rw [heq, hfresh] at hcall
      cases hcall
    refine hf.congr rfl rfl rfl rfl ?_ ?_ ?_
    · exact hdeposited 0
    · intro u hu
      by_cases hj : 0 = x.2
      · rw [hj, hself] at hu
        cases hu
      · rwa [hother 0 hj] at hu
    · intro hcall
      exact ⟨by rw [hother 0 (hcaller hcall), hcall], rfl⟩

/-- The leaf that is pushed. -/
theorem Inv.pushLeaf (h : Inv R leaves numBlocks numWorkers s rs) {l : L}
    {i w : ℕ} (hw : chunk leaves numWorkers i = w)
    (hcursor : (rs .producer).cursor = i) (hlt : i < 2 * leaves.length - 1)
    (hl : leaves[i - (leaves.length - 1)]? = some l) :
    Inv R leaves numBlocks numWorkers
      { s with leafQ := Function.update s.leafQ w (s.leafQ w ++ [(l, i)]) }
      (Function.update rs .producer { rs .producer with cursor := i + 1 }) := by
  obtain ⟨g, hv, ht, hp, hq, hf⟩ := h
  have hnext : g.nextLeaf = i := by rw [← hcursor, hv.cursor]
  have hfresh : g.status i = .fresh := hq.unproduced i hnext.le hlt
  refine ⟨{ g with nextLeaf := i + 1 }, ?_, ⟨ht.outside, ht.fresh, ht.waiting, ht.deposited,
    ht.pending, ht.consumed, ht.root⟩, ⟨hp.held, hp.inRange, hp.nodup, hp.mem⟩, ?_, ?_⟩
  · refine hv.update (hv.tasks _) (hv.bufs _) ?_ (fun _ => rfl) (fun _ _ _ => rfl)
      (fun _ _ _ => rfl) (fun _ _ => rfl) ?_
    · intro w hw
      cases hw
    · intro hw
      exact absurd rfl hw
  · show QueueInv R leaves numWorkers (Function.update s.leafQ w (s.leafQ w ++ [(l, i)]))
      { g with nextLeaf := i + 1 }
    constructor
    · intro v
      by_cases hv : v = w
      · rw [hv, Function.update_self, List.map_append, List.pairwise_append]
        refine ⟨hq.sorted _, by simp, ?_⟩
        intro a ha b hb
        obtain rfl : b = i := by simpa using hb
        rw [← hnext]
        exact ((hq.mem _ a).mp ha).2.1
      · rw [Function.update_of_ne hv]
        exact hq.sorted v
    · intro v y hy
      by_cases hv : v = w
      · rw [hv, Function.update_self, List.mem_append, List.mem_singleton] at hy
        rcases hy with hy | rfl
        · exact hq.payload _ y hy
        · exact hl
      · rw [Function.update_of_ne hv] at hy
        exact hq.payload v y hy
    · intro v j
      by_cases hv : v = w
      · rw [hv, Function.update_self, List.map_append, List.mem_append, hq.mem, hnext]
        simp only [List.map_cons, List.map_nil, List.mem_singleton]
        constructor
        · rintro (⟨hf, hj, hc⟩ | rfl)
          · exact ⟨hf, hj.trans (Nat.lt_succ_self i), hc⟩
          · exact ⟨hfresh, Nat.lt_succ_self _, hw⟩
        · rintro ⟨hf, hj, hc⟩
          rcases Nat.lt_succ_iff_lt_or_eq.mp hj with hj | rfl
          · exact Or.inl ⟨hf, hj, hc⟩
          · exact Or.inr rfl
      · rw [Function.update_of_ne hv, hq.mem, hnext]
        constructor
        · rintro ⟨hf, hj, hc⟩
          exact ⟨hf, hj.trans (Nat.lt_succ_self i), hc⟩
        · rintro ⟨hf, hj, hc⟩
          refine ⟨hf, ?_, hc⟩
          rcases Nat.lt_succ_iff_lt_or_eq.mp hj with hj | rfl
          · exact hj
          · exact absurd (hc.symm.trans hw) hv
    · intro j hj hj'
      exact hq.unproduced j (by rw [hnext]; exact (Nat.le_succ i).trans hj) hj'
    · have := hq.range
      rw [hnext] at this
      exact ⟨this.1.trans (Nat.le_succ i), hlt⟩
    · exact hq.later
    · exact hq.owned
  · exact hf.congr rfl rfl rfl rfl (fun _ _ => Iff.rfl) (fun _ hu => hu) fun hcall => ⟨hcall, rfl⟩

/-- A buffer from the free list. -/
theorem Inv.alloc (h : Inv R leaves numBlocks numWorkers s rs) {b : ℕ} {free : List ℕ}
    (hpop : s.free = b :: free) (t : Thread) :
    b < numBlocks ∧ (rs t).bufs b = none ∧
    Inv R leaves numBlocks numWorkers { s with free := free }
      (Function.update rs t ((rs t).setBuf b (some (s.blocks b)))) := by
  obtain ⟨g, hv, ht, hp, hq, hf⟩ := h
  have hmem : b ∈ s.free := by
    rw [hpop]
    exact List.mem_cons_self
  obtain ⟨hb, hfree⟩ := (hp.mem b).mp hmem
  let g' : Ghost P := { g with buf := Function.update g.buf b (.owned t) }
  have hself : g'.buf b = .owned t := Function.update_self _ _ _
  have hother : ∀ c, c ≠ b → g'.buf c = g.buf c := fun c hc => Function.update_of_ne hc _ _
  refine ⟨hb, by rw [hv.bufs, hfree]; rfl, g', ?_, ?_, ?_, ?_, ?_⟩
  · have hviews := hv.setHolder b (.owned t) s.blocks (fun _ _ => by rw [hfree]; rfl)
      (fun _ hu => Holder.view_of_ne rfl hu _) fun _ _ => rfl
    rw [Holder.view, if_pos rfl] at hviews
    exact hv.move ⟨hv.tasks t, fun _ _ _ => rfl⟩ hviews rfl rfl rfl rfl
  · refine ht.setHolder fun c i hc => ⟨(hother c ?_).trans hc, rfl⟩
    rintro rfl
    rw [hfree] at hc
    cases hc
  · rw [hpop] at hp
    have hlist : FreeList numBlocks free g'.buf := hp.freeList.pop Holder.noConfusion
    refine ⟨fun c i hc => ?_, hlist.inPool, hlist.nodup, hlist.mem⟩
    by_cases hcb : c = b
    · rw [hcb, hself] at hc
      cases hc
    · rw [hother c hcb] at hc
      exact hp.held c i hc
  · exact hq.congr rfl (fun _ => Iff.rfl) fun _ _ hu => Or.inl hu
  · exact hf.congr rfl rfl rfl rfl (fun _ _ => Iff.rfl) (fun _ hu => hu) fun hcall => ⟨hcall, rfl⟩

/-- A buffer goes back to the free list. -/
theorem Inv.free (h : Inv R leaves numBlocks numWorkers s rs) {b : ℕ} {x : Option P}
    (hr : (rs t).bufs b = some x) :
    Inv R leaves numBlocks numWorkers { s with free := s.free ++ [b] }
      (Function.update rs t ((rs t).setBuf b none)) := by
  obtain ⟨g, hv, ht, hp, hq, hf⟩ := h
  obtain ⟨hown, -⟩ := hv.buf hr
  let g' : Ghost P := { g with buf := Function.update g.buf b .free }
  have hself : g'.buf b = .free := Function.update_self _ _ _
  have hother : ∀ c, c ≠ b → g'.buf c = g.buf c := fun c hc => Function.update_of_ne hc _ _
  refine ⟨g', ?_, ?_, ?_, ?_, ?_⟩
  · exact hv.move ⟨hv.tasks t, fun _ _ _ => rfl⟩ (hv.setHolder b .free s.blocks
      (fun _ hu => Holder.view_of_ne hown hu _) (fun _ _ => rfl) fun _ _ => rfl) rfl rfl rfl rfl
  · refine ht.setHolder fun c i hc => ⟨(hother c ?_).trans hc, rfl⟩
    rintro rfl
    rw [hown] at hc
    cases hc
  · have howned : g.buf b ≠ .free := by
      rw [hown]
      exact Holder.noConfusion
    have hlist : FreeList numBlocks (s.free ++ [b]) g'.buf := hp.freeList.push howned
    refine ⟨fun c i hc => ?_, hlist.inPool, hlist.nodup, hlist.mem⟩
    by_cases hcb : c = b
    · rw [hcb, hself] at hc
      cases hc
    · rw [hother c hcb] at hc
      exact hp.held c i hc
  · exact hq.congr rfl (fun _ => Iff.rfl) fun _ _ hu => Or.inl hu
  · exact hf.congr rfl rfl rfl rfl (fun _ _ => Iff.rfl) (fun _ hu => hu) fun hcall => ⟨hcall, rfl⟩

end Owned

end NexusVm.Nova.ParallelTree
