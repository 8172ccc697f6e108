import NexusVm.Concurrent.Prog
import NexusVm.Nova.Run
import Mathlib.Data.Nat.Log

/-!
# Parallel tree folding

`nova/src/parallel_tree` and `nova/src/tree_folding/fold_driver.rs`.  Workers, the leaf
producer and the caller of `run` are threads of atomic actions on the task heap, the
block pool, the queues and the stop flag.
-/

namespace NexusVm.Nova.ParallelTree

open Concurrent

/-- `FoldReducer` with fan-in two. -/
structure FoldReducer (L P Proof E : Type) where
  strictToAcc : L → Except E P
  foldAccAcc : P → P → Except E (P × Proof)

section Driver

variable {L P Proof E : Type} (R : FoldReducer L P Proof E)

/-- `strict_to_acc_level`. -/
def strictToAccLevel (leaves : List L) : Except E (List P) := leaves.mapM R.strictToAcc

/-- `fold_next_level`; `chunks_exact` leaves out what is less than a pair. -/
def foldNextLevel : List P → Except E (List P)
  | a :: b :: current => do
      let (parent, _) ← R.foldAccAcc a b
      let next ← foldNextLevel current
      .ok (parent :: next)
  | _ => .ok []

variable {R}

theorem length_foldNextLevel {current next : List P} (h : foldNextLevel R current = .ok next) :
    next.length = current.length / 2 := by
  induction current using foldNextLevel.induct generalizing next with
  | case1 a b current ih =>
      unfold foldNextLevel at h
      cases hfold : R.foldAccAcc a b with
      | error e => simp [hfold, bind, Except.bind] at h
      | ok parent =>
          cases hrest : foldNextLevel R current with
          | error e => simp [hfold, hrest, bind, Except.bind] at h
          | ok rest =>
              simp only [hfold, hrest, bind, Except.bind, Except.ok.injEq] at h
              rw [← h, List.length_cons, ih hrest, List.length_cons, List.length_cons]
              omega
  | case2 current hshort =>
      have hlen : current.length < 2 := by
        rcases current with - | ⟨a, - | ⟨b, rest⟩⟩
        · simp
        · simp
        · exact absurd rfl (hshort a b rest)
      unfold foldNextLevel at h
      split at h
      · simp only [List.length_cons] at hlen
        omega
      · rw [← Except.ok.inj h, List.length_nil]
        omega

variable (R)

/-- The loop over the levels. -/
def foldLevels (current : List P) : Run E P :=
  if _h : 1 < current.length then
    match _hnext : foldNextLevel R current with
    | .error e => .error (.error e)
    | .ok next => foldLevels next
  else
    -- `current_level.pop().unwrap()`
    match current.getLast? with
    | some root => .ok root
    | none => .error .panic
termination_by current.length
decreasing_by
  rw [length_foldNextLevel _hnext]
  omega

/-- The loop of `len_is_power_of_k`. -/
def powerLoop (n : ℕ) : Bool :=
  if 1 < n then
    if n % 2 ≠ 0 then false else powerLoop (n / 2)
  else true

/-- `len_is_power_of_k` for two. -/
def lenIsPowerOfK (len : ℕ) : Bool :=
  if len = 0 then false else powerLoop len

/-- `FoldDriver::fold_root`. -/
def foldRoot (leaves : List L) : Run E P := do
  Run.assert (leaves ≠ [])
  Run.assert (lenIsPowerOfK leaves.length)
  match strictToAccLevel R leaves with
  | .error e => .error (.error e)
  | .ok current => foldLevels R current

end Driver

/-- `LeafTask` and `NodeTask`: the buffer (`-1` is `none`) and the state. -/
structure Task where
  bufferId : Option ℕ
  state : ℕ
deriving DecidableEq

namespace LeafState

def notStarted : ℕ := 0
def processing : ℕ := 1
def ready : ℕ := 2
def processedWaitingForConsumption : ℕ := 3
def consumed : ℕ := 4

end LeafState

namespace NodeState

def notStarted : ℕ := 0
def waitingOneChild : ℕ := 1
def waitingBothChildren : ℕ := 2
def processing : ℕ := 3
def processedWaitingForConsumption : ℕ := 4
def beingConsumed : ℕ := 5
def consumed : ℕ := 6

end NodeState

/-- The variants of `Task`. -/
inductive Kind
  | leaf
  | node
deriving DecidableEq

/-- The sizes of the heap. -/
structure TaskHeap where
  size : ℕ
  numLeaves : ℕ

namespace TaskHeap

def new (k : ℕ) : TaskHeap := ⟨2 * 2 ^ k - 1, 2 ^ k⟩

def parent (i : ℕ) : Option ℕ := if i = 0 then none else some ((i - 1) / 2)

def left (i : ℕ) : ℕ := 2 * i + 1

def right (i : ℕ) : ℕ := 2 * i + 2

variable (heap : TaskHeap)

def leafStart : ℕ := heap.size - heap.numLeaves

/-- `get`: the variant of the task at an index. -/
def get (i : ℕ) : Option Kind :=
  if i < heap.size then
    if heap.size - heap.numLeaves ≤ i then some .leaf else some .node
  else none

end TaskHeap

/-- What the threads share. -/
structure State (L P : Type) where
  tasks : ℕ → Task
  blocks : ℕ → Option P
  free : List ℕ
  readyQ : ℕ → List ℕ
  leafQ : ℕ → List (L × ℕ)
  stop : Bool

/-- `READY_Q_CAP`. -/
def readyQCap : ℕ := 512

section Actions

variable {L P : Type}

/-- Programs on the shared state. -/
abbrev Act (L P α : Type) := Prog (State L P) α

def State.setTask (s : State L P) (i : ℕ) (task : Task) : State L P :=
  { s with tasks := Function.update s.tasks i task }

@[simp] theorem State.setTask_self (s : State L P) (i : ℕ) (task : Task) :
    (s.setTask i task).tasks i = task := by
  show Function.update s.tasks i task i = task
  exact Function.update_self i task s.tasks

theorem State.setTask_of_ne (s : State L P) {i j : ℕ} (hj : j ≠ i) (task : Task) :
    (s.setTask i task).tasks j = s.tasks j := by
  show Function.update s.tasks i task j = s.tasks j
  exact Function.update_of_ne hj task s.tasks

def State.setBlock (s : State L P) (b : ℕ) (value : Option P) : State L P :=
  { s with blocks := Function.update s.blocks b value }

def loadBufferId (i : ℕ) : Act L P (Option ℕ) := .atomic fun s => ((s.tasks i).bufferId, s)

def storeBufferId (i : ℕ) (id : Option ℕ) : Act L P Unit :=
  .atomic fun s => ((), s.setTask i { s.tasks i with bufferId := id })

def loadState (i : ℕ) : Act L P ℕ := .atomic fun s => ((s.tasks i).state, s)

def storeState (i : ℕ) (state : ℕ) : Act L P Unit :=
  .atomic fun s => ((), s.setTask i { s.tasks i with state := state })

/-- `compare_exchange(..).is_ok()` on a state. -/
def compareExchange (i old new : ℕ) : Act L P Bool :=
  .atomic fun s =>
    if (s.tasks i).state = old then (true, s.setTask i { s.tasks i with state := new })
    else (false, s)

def loadStop : Act L P Bool := .atomic fun s => (s.stop, s)

def storeStop : Act L P Unit := .atomic fun s => ((), { s with stop := true })

/-- `alloc`: pops the free list. -/
def alloc : Act L P (Option ℕ) :=
  .atomic fun s =>
    match s.free with
    | [] => (none, s)
    | b :: free => (some b, { s with free := free })

def freeCount : Act L P ℕ := .atomic fun s => (s.free.length, s)

/-- `BufHandle::write`. -/
def write (b : ℕ) (value : P) : Act L P Unit := .atomic fun s => ((), s.setBlock b (some value))

/-- `take` of `BufHandle::read`, which panics on `none`. -/
def read (b : ℕ) : Act L P (Option P) := .atomic fun s => (s.blocks b, s.setBlock b none)

/-- `BufHandle::release`: clears the slot and gives the buffer back. -/
def release (b : ℕ) : Act L P Unit := do
  .atomic fun s => ((), s.setBlock b none)
  .atomic fun s => ((), { s with free := s.free ++ [b] })

def popReady (w : ℕ) : Act L P (Option ℕ) :=
  .atomic fun s =>
    match s.readyQ w with
    | [] => (none, s)
    | i :: rest => (some i, { s with readyQ := Function.update s.readyQ w rest })

def pushReady (w i : ℕ) : Act L P Bool :=
  .atomic fun s =>
    if (s.readyQ w).length < readyQCap then
      (true, { s with readyQ := Function.update s.readyQ w (s.readyQ w ++ [i]) })
    else (false, s)

def popLeaf (w : ℕ) : Act L P (Option (L × ℕ)) :=
  .atomic fun s =>
    match s.leafQ w with
    | [] => (none, s)
    | x :: rest => (some x, { s with leafQ := Function.update s.leafQ w rest })

def pushLeaf (w : ℕ) (x : L × ℕ) : Act L P Bool :=
  .atomic fun s =>
    if (s.leafQ w).length < readyQCap then
      (true, { s with leafQ := Function.update s.leafQ w (s.leafQ w ++ [x]) })
    else (false, s)

namespace LeafTask

def tryStartProcessing (i b : ℕ) : Act L P Bool := do
  storeBufferId i (some b)
  if ← compareExchange i LeafState.notStarted LeafState.processing then return true
  else
    storeBufferId i none
    return false

def trySetReady (i : ℕ) : Act L P Bool := compareExchange i LeafState.processing LeafState.ready

def tryStartConsuming (i : ℕ) : Act L P Bool :=
  compareExchange i LeafState.ready LeafState.processedWaitingForConsumption

def trySetConsumed (i : ℕ) : Act L P Bool :=
  compareExchange i LeafState.processedWaitingForConsumption LeafState.consumed

def getBufIdIfReady (i : ℕ) : Act L P (Option ℕ) := do
  if (← loadState i) = LeafState.ready then loadBufferId i
  else return none

end LeafTask

/-! ## Node tasks and workers -/

namespace NodeTask

def tryGotFirstChild (i : ℕ) : Act L P Bool :=
  compareExchange i NodeState.notStarted NodeState.waitingOneChild

def tryGotSecondChild (i : ℕ) : Act L P Bool :=
  compareExchange i NodeState.waitingOneChild NodeState.waitingBothChildren

def notifyChildReady (i : ℕ) : Act L P Bool := do
  if ← tryGotFirstChild i then return false
  else tryGotSecondChild i

def tryStartProcessing (i b : ℕ) : Act L P Bool := do
  storeBufferId i (some b)
  if ← compareExchange i NodeState.waitingBothChildren NodeState.processing then return true
  else
    storeBufferId i none
    return false

def trySetReady (i : ℕ) : Act L P Bool :=
  compareExchange i NodeState.processing NodeState.processedWaitingForConsumption

def tryStartConsuming (i : ℕ) : Act L P Bool :=
  compareExchange i NodeState.processedWaitingForConsumption NodeState.beingConsumed

def trySetConsumed (i : ℕ) : Act L P Bool :=
  compareExchange i NodeState.beingConsumed NodeState.consumed

def getBufIdIfReady (i : ℕ) : Act L P (Option ℕ) := do
  if (← loadState i) = NodeState.processedWaitingForConsumption then loadBufferId i
  else return none

end NodeTask

end Actions

/-- `WorkerError`; what a message shows of the reducer's error is kept. -/
inductive WorkerError (E : Type)
  | taskNotFound (i : ℕ)
  | wrongTaskType (i : ℕ)
  | processingFailed (i : ℕ) (message : String)
  | strictToAccFailed (i : ℕ) (e : E)
  | bufferClaimFailed (i : ℕ)
  | stateTransitionFailed (i : ℕ) (message : String)
  | foldOperationFailed (i : ℕ) (e : E)

/-- `ParallelTreeError`. -/
inductive ParallelTreeError
  | noRootResult
  | invalidInput (message : String)
deriving DecidableEq

/-- Where a thread goes on. -/
inductive Label (L P : Type)
  /-- The worker's main loop. -/
  | top
  /-- The worker's loop around `alloc`, with the leaf that needs a buffer. -/
  | alloc (leaf : L) (i : ℕ)
  /-- The producer's loop, with the leaves that are left and the next index. -/
  | next (leaves : List L) (i : ℕ)
  /-- The loop of `run` until the computation is complete. -/
  | wait
  | halted
  | panicked
  | returned (result : Except ParallelTreeError P)

/-- The threads: the workers, the leaf producer and the caller of `run`. -/
inductive Thread
  | worker (w : ℕ)
  | producer
  | caller
deriving DecidableEq

section Worker

variable {L P Proof E : Type} (heap : TaskHeap) (numBlocks : ℕ) (R : FoldReducer L P Proof E)

/-- `BlockPool::claim`: only the bounds are checked. -/
def claim (b : ℕ) : Option ℕ := if b < numBlocks then some b else none

/-- `if let Some(handle) = pool.claim(b) { handle.release() }`. -/
def claimAndRelease (b : ℕ) : Act L P Unit :=
  match claim numBlocks b with
  | some b => release b
  | none => return ()

/-- Tells the parent of a task that it is ready; the second child makes it ready too. -/
def notifyParent (w i : ℕ) : Act L P Unit :=
  match TaskHeap.parent i with
  | none => return ()
  | some p =>
      match heap.get p with
      | some .node => do
          if ← NodeTask.notifyChildReady p then
            let _ ← pushReady w p
            return ()
          else return ()
      | _ => return ()

/-- The end of `process_leaf_input`, with the leaf's accumulator. -/
def finishLeaf (w i b : ℕ) (acc : P) : Act L P (Run (WorkerError E) Unit) :=
  match claim numBlocks b with
  | none => return .error (.error (.bufferClaimFailed i))
  | some b => do
      write b acc
      if ← LeafTask.trySetReady i then
        notifyParent heap w i
        return .ok ()
      else
        claimAndRelease numBlocks b
        return .error (.error (.stateTransitionFailed i "Failed to set ready state"))

/-- `process_leaf_input`, once it has a buffer. -/
def processLeafInput (w : ℕ) (leaf : L) (i b : ℕ) : Act L P (Run (WorkerError E) Unit) := do
  if ← LeafTask.tryStartProcessing i b then
    match R.strictToAcc leaf with
    | .error e =>
        storeState i LeafState.notStarted
        storeBufferId i none
        claimAndRelease numBlocks b
        return .error (.error (.strictToAccFailed i e))
    | .ok acc => finishLeaf heap numBlocks w i b acc
  else
    claimAndRelease numBlocks b
    return .error (.error (.processingFailed i "Failed to start processing"))

/-- `start_consuming_task_and_get_buf_handle`. -/
def startConsumingTaskAndGetBufHandle (i : ℕ) : Act L P (Option ℕ) :=
  match heap.get i with
  | none => return none
  | some .leaf => do
      match ← LeafTask.getBufIdIfReady i with
      | none => return none
      | some b => if ← LeafTask.tryStartConsuming i then return claim numBlocks b else return none
  | some .node => do
      match ← NodeTask.getBufIdIfReady i with
      | none => return none
      | some b => if ← NodeTask.tryStartConsuming i then return claim numBlocks b else return none

/-- `set_consumed_task`. -/
def setConsumedTask (i : ℕ) : Act L P Unit :=
  match heap.get i with
  | none => return ()
  | some .leaf => do
      let _ ← LeafTask.trySetConsumed i
      return ()
  | some .node => do
      let _ ← NodeTask.trySetConsumed i
      return ()

/-- `clear_buffer_id`. -/
def clearBufferId (i : ℕ) : Act L P Unit :=
  match heap.get i with
  | none => return ()
  | some _ => storeBufferId i none

/-- The end of `process_ready_inner_node`, with the accumulator in its buffer. -/
def publishInnerNode (w i left : ℕ) : Act L P (Run (WorkerError E) Unit) := do
  if ← NodeTask.tryStartProcessing i left then
    if ← NodeTask.trySetReady i then
      notifyParent heap w i
      if i = 0 then
        setConsumedTask heap (TaskHeap.left i)
        setConsumedTask heap (TaskHeap.right i)
      return .ok ()
    else
      storeState i NodeState.waitingBothChildren
      storeBufferId i none
      claimAndRelease numBlocks left
      return .error (.error (.stateTransitionFailed i "Failed to set ready state"))
  else
    storeState i NodeState.waitingBothChildren
    claimAndRelease numBlocks left
    return .error (.error (.stateTransitionFailed i "Failed to start processing"))

/-- `process_ready_inner_node`, with the folded accumulator. -/
def finishInnerNode (w i left right : ℕ) (parentAcc : P) :
    Act L P (Run (WorkerError E) Unit) := do
  setConsumedTask heap (TaskHeap.left i)
  setConsumedTask heap (TaskHeap.right i)
  clearBufferId heap (TaskHeap.left i)
  clearBufferId heap (TaskHeap.right i)
  -- the left buffer is reused for the result
  release right
  write left parentAcc
  publishInnerNode heap numBlocks w i left

/-- `process_ready_inner_node`, with both children's buffers. -/
def foldChildren (w i left right : ℕ) : Act L P (Run (WorkerError E) Unit) := do
  match ← read left with
  | none => return .error .panic
  | some accLeft =>
      match ← read right with
      | none => return .error .panic
      | some accRight =>
          match R.foldAccAcc accLeft accRight with
          | .error e =>
              release left
              release right
              return .error (.error (.foldOperationFailed i e))
          | .ok (parentAcc, _) => finishInnerNode heap numBlocks w i left right parentAcc

/-- `process_ready_inner_node`. -/
def processReadyInnerNode (w i : ℕ) : Act L P (Run (WorkerError E) Unit) :=
  match heap.get i with
  | none => return .error (.error (.taskNotFound i))
  | some .leaf => return .error (.error (.wrongTaskType i))
  | some .node => do
      let state ← loadState i
      if state ≠ NodeState.waitingBothChildren then
        return .error (.error (.stateTransitionFailed i
          s!"Node not in WAITING_BOTH_CHILDREN state (current: {state})"))
      else
        match ← startConsumingTaskAndGetBufHandle heap numBlocks (TaskHeap.left i) with
        | none => return .error (.error (.bufferClaimFailed (TaskHeap.left i)))
        | some left =>
            match ← startConsumingTaskAndGetBufHandle heap numBlocks (TaskHeap.right i) with
            | none =>
                -- the left handle is dropped
                release left
                return .error (.error (.bufferClaimFailed (TaskHeap.right i)))
            | some right => foldChildren heap numBlocks R w i left right

/-- Where a worker goes on after a task; errors are only logged. -/
def afterTask : Run (WorkerError E) Unit → Label L P
  | .ok () => .top
  | .error (.error _) => .top
  | .error .panic => .panicked

/-- `check_and_signal_completion`: the root ends the computation. -/
def checkAndSignalCompletion (i : ℕ) : Act L P Bool :=
  if i = 0 then do
    storeStop
    return true
  else return false

/-- A round of the main loop of `WorkerLocal::run`. -/
def workerRound (w : ℕ) : Act L P (Label L P) := do
  if ← loadStop then return .halted
  else
    match ← popReady w with
    | some i =>
        match ← processReadyInnerNode heap numBlocks R w i with
        | .ok () => if ← checkAndSignalCompletion i then return .halted else return .top
        | .error failure => return afterTask (.error failure)
    | none =>
        match ← popLeaf w with
        | none => return .top
        | some (leaf, i) =>
            match heap.get i with
            | some .leaf => return .alloc leaf i
            -- `TaskNotFound` or `WrongTaskType`
            | _ => return .top

/-- A round of the loop around `alloc`, and the leaf's processing once there is a buffer. -/
def allocRound (w : ℕ) (leaf : L) (i : ℕ) : Act L P (Label L P) := do
  match ← alloc with
  | some b => return afterTask (← processLeafInput heap numBlocks R w leaf i b)
  | none =>
      -- yields if there is still none
      let _ ← freeCount
      return .alloc leaf i

/-! ## Producer and caller and the folder -/

/-- The worker whose queue a leaf is put in: the leaves are divided into contiguous
chunks. -/
def workerIdx (numWorkers i : ℕ) : ℕ :=
  min ((i - heap.leafStart) * numWorkers / heap.numLeaves) (numWorkers - 1)

/-- A round of the producer: one attempt to push the next leaf. -/
def producerRound (numWorkers : ℕ) : List L → ℕ → Act L P (Label L P)
  | [], _ => return .halted
  | leaf :: leaves, i =>
      if heap.leafStart + heap.numLeaves ≤ i then return .halted
      else do
        if ← pushLeaf (workerIdx heap numWorkers i) (leaf, i) then return .next leaves (i + 1)
        else if ← loadStop then return .halted
        else return .next (leaf :: leaves) i

/-- `get_root_result`: reads the root's buffer, whose handle is then dropped; `panic` if
the slot is empty. -/
def getRootResult : Act L P (Run Empty (Option P)) :=
  match heap.get 0 with
  | some .node => do
      match ← NodeTask.getBufIdIfReady 0 with
      | none => return .ok none
      | some b =>
          match claim numBlocks b with
          | none => return .ok none
          | some b =>
              match ← read b with
              | none => return .error .panic
              | some value =>
                  release b
                  return .ok (some value)
  | _ => return .ok none

/-- A round of the loop of `ParallelTreeFolder::run`, and its end. -/
def callerRound : Act L P (Label L P) := do
  if ← loadStop then
    match ← getRootResult heap numBlocks with
    | .error _ => return .panicked
    | .ok none => return .returned (.error .noRootResult)
    | .ok (some result) =>
        storeStop
        return .returned (.ok result)
  else return .wait

end Worker

/-- `ParallelTreeFolder`. -/
structure ParallelTreeFolder (L P Proof E : Type) where
  reducer : FoldReducer L P Proof E
  numWorkers : ℕ

section Folder

variable {L P Proof E : Type} (F : ParallelTreeFolder L P Proof E) (leaves : List L)

/-- The heap for a number of leaves. -/
def heapOf : TaskHeap := TaskHeap.new (Nat.log2 leaves.length)

section Heap

variable {leaves : List L}

theorem heapOf_eq (hlen : leaves.length = 2 ^ Nat.log2 leaves.length) :
    heapOf leaves = ⟨2 * leaves.length - 1, leaves.length⟩ := by
  unfold heapOf TaskHeap.new
  rw [← hlen]

theorem heapOf_get_node (hlen : leaves.length = 2 ^ Nat.log2 leaves.length) {i : ℕ}
    (hi : i < leaves.length - 1) : (heapOf leaves).get i = some .node := by
  rw [heapOf_eq hlen]
  show (if i < 2 * leaves.length - 1 then _ else _) = _
  have hstart : ¬2 * leaves.length - 1 - leaves.length ≤ i := by omega
  rw [if_pos (by omega)]
  exact if_neg hstart

theorem heapOf_get_leaf (hlen : leaves.length = 2 ^ Nat.log2 leaves.length) {i : ℕ}
    (hi : leaves.length - 1 ≤ i) (hlt : i < 2 * leaves.length - 1) :
    (heapOf leaves).get i = some .leaf := by
  rw [heapOf_eq hlen]
  show (if i < 2 * leaves.length - 1 then _ else _) = _
  have hstart : 2 * leaves.length - 1 - leaves.length ≤ i := by omega
  rw [if_pos hlt]
  exact if_pos hstart

theorem heapOf_leafStart (hlen : leaves.length = 2 ^ Nat.log2 leaves.length) :
    (heapOf leaves).leafStart = leaves.length - 1 := by
  rw [heapOf_eq hlen]
  show 2 * leaves.length - 1 - leaves.length = _
  omega

end Heap

/-- "Ensure enough buffers": the pool is made for four times as many cores as workers and
has two blocks for each core. -/
def ParallelTreeFolder.numBlocks : ℕ := F.numWorkers * 4 * 2

/-- At least one worker. -/
def ParallelTreeFolder.numCores : ℕ := max F.numWorkers 1

/-- The programs of the threads. -/
def ParallelTreeFolder.code : Thread → Label L P → Option (Act L P (Label L P))
  | .worker w, .top => some (workerRound (heapOf leaves) F.numBlocks F.reducer w)
  | .worker w, .alloc leaf i => some (allocRound (heapOf leaves) F.numBlocks F.reducer w leaf i)
  | .producer, .next rest i => some (producerRound (heapOf leaves) F.numCores rest i)
  | .caller, .wait => some (callerRound (heapOf leaves) F.numBlocks)
  | _, _ => none

/-- The shared state in the beginning. -/
def ParallelTreeFolder.initialState : State L P where
  tasks _ := ⟨none, 0⟩
  blocks _ := none
  free := (List.range F.numBlocks).reverse
  readyQ _ := []
  leafQ _ := []
  stop := false

/-- The threads in the beginning. -/
def ParallelTreeFolder.initial : Config (State L P) Thread (Label L P) where
  state := F.initialState
  threads
    | .worker w => .ret (if w < F.numCores then .top else .halted)
    | .producer => .ret (.next leaves (heapOf leaves).leafStart)
    | .caller => .ret .wait

/-- `ParallelTreeFolder::run` checks its input and starts the threads. -/
def ParallelTreeFolder.run : Except ParallelTreeError (Config (State L P) Thread (Label L P)) :=
  if leaves.length = 0 then .error (.invalidInput "Number of leaves cannot be zero")
  else if leaves.length ≠ 2 ^ Nat.log2 leaves.length then
    .error (.invalidInput
      s!"Number of leaves must be a power of 2, got {leaves.length}")
  else .ok (F.initial leaves)

/-- What the threads come to from the start of a run, in any order of their steps. -/
def ParallelTreeFolder.Reachable (c : Config (State L P) Thread (Label L P)) : Prop :=
  ∃ c₀, F.run leaves = .ok c₀ ∧ Steps (F.code leaves) c₀ c

end Folder

end NexusVm.Nova.ParallelTree
