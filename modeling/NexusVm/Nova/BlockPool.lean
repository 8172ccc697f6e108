import NexusVm.Nova.Run

/-!
# Block pools

`nova/src/parallel_tree/block_pool.rs`, called from one thread.  The free list is a queue: buffers
are taken at its front and given back at its end.
-/

namespace NexusVm.Nova.ParallelTree

/-- `BlockPool`. -/
structure BlockPool (P : Type) where
  blocks : List (Option P)
  free : List ℕ

namespace BlockPool

variable {P : Type}

section Model

/-- `BlockPool::new`: two buffers per core, the highest first in the queue; `BufId` has 32 bits. -/
def new (numCores : ℕ) : BlockPool P :=
  let numBlocks := numCores * 2
  { blocks := List.replicate numBlocks none
    free := (List.range (numBlocks % 2 ^ 32)).reverse }

variable (pool : BlockPool P)

/-- `SegQueue::push`. -/
def push (id : ℕ) : BlockPool P := { pool with free := pool.free ++ [id] }

/-- `alloc`: the buffer of the handle. -/
def alloc : Option ℕ × BlockPool P :=
  match pool.free with
  | [] => (none, pool)
  | id :: free => (some id, { pool with free := free })

/-- `can_edit`. -/
def canEdit (id : ℕ) : Bool := id < pool.blocks.length

/-- The loop of `is_free` that takes everything out of the queue, into `tmp`. -/
def drain (id : ℕ) : List ℕ → Bool → List ℕ → Bool × List ℕ
  | [], found, tmp => (found, tmp)
  | x :: free, found, tmp => drain id free (if x = id then true else found) (tmp ++ [x])

/-- `is_free`. -/
def isFree (id : ℕ) : Bool × BlockPool P :=
  if pool.canEdit id then
    let (found, tmp) := drain id pool.free false []
    (found, tmp.reverse.foldl push { pool with free := [] })
  else (false, pool)

/-- `free`, also of a handle that is released or dropped. -/
def free' (id : ℕ) : Run Empty (BlockPool P) :=
  if pool.canEdit id then .ok ({ pool with blocks := pool.blocks.set id none }.push id)
  else .error .panic

/-- `claim`: the buffer of the handle. -/
def claim (id : ℕ) : Option ℕ := if pool.canEdit id then some id else none

/-- `BufHandle::write`. -/
def write (id : ℕ) (value : P) : Run Empty (BlockPool P) := do
  Run.assert (id < pool.blocks.length)
  .ok { pool with blocks := pool.blocks.set id (some value) }

/-- `BufHandle::read`. -/
def read (id : ℕ) : Run Empty (P × BlockPool P) :=
  match pool.blocks[id]? with
  | some (some value) => .ok (value, { pool with blocks := pool.blocks.set id none })
  | _ => .error .panic

/-- The buffers of the next `n` calls of `alloc`. -/
def allocs : ℕ → BlockPool P → List (Option ℕ)
  | 0, _ => []
  | n + 1, pool =>
      let (id, pool) := pool.alloc
      id :: allocs n pool

end Model

/-- **The pools that calls can reach.** -/
inductive Reachable : BlockPool P → Prop
  | new (numCores : ℕ) : Reachable (new numCores)
  | alloc {pool : BlockPool P} (h : Reachable pool) : Reachable pool.alloc.2
  | isFree {pool : BlockPool P} (h : Reachable pool) (id : ℕ) : Reachable (pool.isFree id).2
  | free {pool next : BlockPool P} {id : ℕ} (h : Reachable pool)
      (hnext : pool.free' id = .ok next) : Reachable next
  | write {pool next : BlockPool P} {id : ℕ} {value : P} (h : Reachable pool)
      (hnext : pool.write id value = .ok next) : Reachable next
  | read {pool next : BlockPool P} {id : ℕ} {value : P} (h : Reachable pool)
      (hnext : pool.read id = .ok (value, next)) : Reachable next

/-- The scan finds members, and keeps the order. -/
theorem drain_eq (id : ℕ) (free : List ℕ) (found : Bool) (tmp : List ℕ) :
    drain id free found tmp = (found || decide (id ∈ free), tmp ++ free) := by
  induction free generalizing found tmp with
  | nil => simp [drain]
  | cons x free ih =>
      rw [drain, ih, List.append_assoc, List.singleton_append]
      by_cases hx : x = id
      · simp [hx]
      · have hx' : id ≠ x := fun h => hx h.symm
        simp [hx, hx']

theorem foldl_push (ids : List ℕ) (pool : BlockPool P) :
    ids.foldl push pool = { pool with free := pool.free ++ ids } := by
  induction ids generalizing pool with
  | nil => simp
  | cons id ids ih =>
      rw [List.foldl_cons, ih, push]
      simp

/-- **What `is_free` does**: it answers for the queue, which it turns around. -/
theorem isFree_eq (pool : BlockPool P) (id : ℕ) : pool.isFree id =
    if pool.canEdit id then (decide (id ∈ pool.free), { pool with free := pool.free.reverse })
    else (false, pool) := by
  unfold isFree
  rw [drain_eq, Bool.false_or, List.nil_append]
  dsimp only
  rw [foldl_push, List.nil_append]

/-- Calls of `alloc` read the queue from its front. -/
theorem allocs_eq (n : ℕ) (pool : BlockPool P) :
    allocs n pool = (List.range n).map fun i => pool.free[i]? := by
  induction n generalizing pool with
  | zero => rfl
  | succ n ih =>
      rw [List.range_succ_eq_map, List.map_cons, List.map_map]
      unfold allocs alloc
      cases hfree : pool.free with
      | nil => simp [ih, hfree, Function.comp_def]
      | cons id free => simp [ih, Function.comp_def]

/-- The next calls of `alloc` are known from the queue, and the other way around. -/
theorem allocs_eq_iff (pool pool' : BlockPool P) :
    (∀ n, allocs n pool' = allocs n pool) ↔ pool'.free = pool.free := by
  constructor
  · intro h
    apply List.ext_getElem?
    intro i
    have hentry := congrArg (fun l => l[i]?) (h (i + 1))
    simpa [allocs_eq] using hentry
  · intro h n
    rw [allocs_eq, allocs_eq, h]

/-! ## Reachable pools -/

/-- Buffers in the queue belong to the pool. -/
def InRange (pool : BlockPool P) : Prop := ∀ id ∈ pool.free, pool.canEdit id

theorem inRange_new (numCores : ℕ) : InRange (new numCores : BlockPool P) := by
  intro id hid
  have hlt : id < numCores * 2 % 2 ^ 32 := by simpa [new] using hid
  apply decide_eq_true
  rw [new, List.length_replicate]
  exact hlt.trans_le (Nat.mod_le _ _)

variable {pool : BlockPool P}

theorem InRange.alloc (h : InRange pool) : InRange pool.alloc.2 := by
  unfold BlockPool.alloc
  cases hfree : pool.free with
  | nil => exact h
  | cons x free =>
      intro id hid
      apply h
      rw [hfree]
      exact List.mem_cons_of_mem x hid

theorem InRange.isFree (h : InRange pool) (id : ℕ) :
    InRange (pool.isFree id).2 := by
  rw [isFree_eq]
  split_ifs with hid
  · intro x hx
    exact h x (List.mem_reverse.mp hx)
  · exact h

theorem InRange.free {pool next : BlockPool P} {id : ℕ} (h : InRange pool)
    (hnext : pool.free' id = .ok next) : InRange next := by
  unfold free' at hnext
  split_ifs at hnext with hid
  cases hnext
  intro x hx
  apply decide_eq_true
  rw [push, List.length_set]
  rcases List.mem_append.mp hx with hx | hx
  · exact of_decide_eq_true (h x hx)
  · obtain rfl := List.mem_singleton.mp hx
    exact of_decide_eq_true hid

/-- Slots are overwritten without a change of the queue. -/
theorem InRange.set (h : InRange pool) (id : ℕ) (slot : Option P) :
    InRange { pool with blocks := pool.blocks.set id slot } := by
  intro x hx
  apply decide_eq_true
  rw [List.length_set]
  exact of_decide_eq_true (h x hx)

theorem Reachable.inRange (h : Reachable pool) : InRange pool := by
  induction h with
  | new numCores => exact inRange_new numCores
  | alloc _ ih => exact ih.alloc
  | isFree _ id ih => exact ih.isFree id
  | free _ hnext ih => exact ih.free hnext
  | write _ hnext ih =>
      obtain ⟨-, -, hok⟩ := bind_eq_ok.mp hnext
      cases hok
      exact ih.set _ _
  | read _ hnext ih =>
      unfold BlockPool.read at hnext
      split at hnext
      · cases hnext
        exact ih.set _ _
      · cases hnext

/-- **`is_free` as a query.**  In every reachable pool it answers whether the buffer is in the
queue; the later allocations stay the same exactly if it rejects the buffer as out of range, or the
queue reads the same from both ends. -/
theorem isFree_query_iff (h : Reachable pool) (id : ℕ) :
    (((pool.isFree id).1 = true ↔ id ∈ pool.free) ∧
      ∀ n, allocs n (pool.isFree id).2 = allocs n pool) ↔
    pool.blocks.length ≤ id ∨ pool.free.reverse = pool.free := by
  have hanswer : (pool.isFree id).1 = true ↔ id ∈ pool.free := by
    rw [isFree_eq]
    by_cases hid : pool.canEdit id
    · rw [if_pos hid]
      exact decide_eq_true_iff
    · rw [if_neg hid]
      constructor
      · exact fun hfalse => absurd hfalse Bool.false_ne_true
      · exact fun hmem => absurd (h.inRange id hmem) hid
  rw [and_iff_right hanswer, allocs_eq_iff, isFree_eq]
  by_cases hid : id < pool.blocks.length
  · rw [if_pos (show pool.canEdit id = true from decide_eq_true hid)]
    exact (or_iff_right (Nat.not_le.mpr hid)).symm
  · rw [if_neg (by rwa [canEdit, decide_eq_true_iff])]
    exact iff_of_true rfl (Or.inl (Nat.not_lt.mp hid))

/-- A pool with one of its two buffers in use. -/
theorem isFree_query_one :
    ((((new 1 : BlockPool Unit).alloc.2.isFree 0).1 = true ↔
        0 ∈ (new 1 : BlockPool Unit).alloc.2.free) ∧
      ∀ n, allocs n ((new 1 : BlockPool Unit).alloc.2.isFree 0).2 =
        allocs n (new 1 : BlockPool Unit).alloc.2) ↔
    (new 1 : BlockPool Unit).alloc.2.blocks.length ≤ 0 ∨
      (new 1 : BlockPool Unit).alloc.2.free.reverse = (new 1 : BlockPool Unit).alloc.2.free :=
  isFree_query_iff (Reachable.new 1).alloc 0

/-- The first allocation of a new pool after a query is the one that was last before. -/
theorem isFree_turns_queue :
    ¬ ∀ pool : BlockPool Unit, Reachable pool → ∀ id, ((pool.isFree id).1 = true ↔ id ∈ pool.free) ∧
      ∀ n, allocs n (pool.isFree id).2 = allocs n pool := by
  intro h
  have hfirst := (h (new 1) (Reachable.new 1) 0).2 1
  revert hfirst
  decide

end BlockPool

end NexusVm.Nova.ParallelTree
