import NexusVm.Nova.ParallelTree

/-!
# Indices of the task heap

`TaskHeap` of `nova/src/parallel_tree/task.rs`.  The indices of a heap are the nodes of a complete
binary tree, counted level by level from the root.
-/

namespace NexusVm.Nova.ParallelTree.TaskHeap

section Model

variable (heap : TaskHeap)

/-- `is_leaf`. -/
def isLeaf (i : ℕ) : Bool := heap.size - heap.numLeaves ≤ i

/-- `level`; `ilog2` of a positive number. -/
def level (idx : ℕ) : Option ℕ :=
  if heap.size ≤ idx then none else some (Nat.log2 (idx + 1))

/-- `col`. -/
def col (idx : ℕ) : Option ℕ :=
  if heap.size ≤ idx then none
  else
    let level := Nat.log2 (idx + 1)
    let levelStart := 1 <<< level - 1
    some (idx - levelStart)

end Model

/-- A node of the complete binary tree of depth `k`: the column counts from the left. -/
structure Node (k : ℕ) where
  level : ℕ
  column : ℕ
  level_le : level ≤ k
  column_lt : column < 2 ^ level

namespace Node

variable {k : ℕ}

/-- The nodes before a node: whole levels and the columns to its left. -/
def index (n : Node k) : ℕ := 2 ^ n.level - 1 + n.column

theorem index_succ (n : Node k) : n.index + 1 = 2 ^ n.level + n.column := by
  have hpos := Nat.two_pow_pos n.level
  unfold index
  omega

/-- The bit length of the next index is the level. -/
theorem log2_index (n : Node k) : Nat.log2 (n.index + 1) = n.level := by
  rw [n.index_succ, Nat.log2_eq_log_two]
  apply Nat.log_eq_of_pow_le_of_lt_pow
  · exact Nat.le_add_right _ _
  · rw [pow_succ]
    have hlt := n.column_lt
    omega

/-- The level has all of its columns. -/
theorem index_lt (n : Node k) : n.index < (TaskHeap.new k).size := by
  have hlt := n.column_lt
  have hle : 2 ^ n.level ≤ 2 ^ k := Nat.pow_le_pow_right two_pos n.level_le
  have hsucc := n.index_succ
  show n.index < 2 * 2 ^ k - 1
  omega

/-- Every index of a heap is the index of a node. -/
theorem exists_of_lt {i : ℕ} (hi : i < (TaskHeap.new k).size) : ∃ n : Node k, n.index = i := by
  have hsize : i + 1 < 2 ^ (k + 1) := by
    rw [pow_succ]
    change i < 2 * 2 ^ k - 1 at hi
    omega
  have hlow : 2 ^ Nat.log 2 (i + 1) ≤ i + 1 := Nat.pow_log_le_self 2 i.succ_ne_zero
  have hhigh : i + 1 < 2 ^ (Nat.log 2 (i + 1) + 1) := Nat.lt_pow_succ_log_self Nat.one_lt_two _
  rw [pow_succ] at hhigh
  refine ⟨⟨Nat.log 2 (i + 1), i + 1 - 2 ^ Nat.log 2 (i + 1), ?_, by omega⟩, ?_⟩
  · exact Nat.lt_succ_iff.mp (Nat.log_lt_of_lt_pow i.succ_ne_zero hsize)
  · unfold index
    dsimp only
    omega

/-- `level` and `col` read the node off its index. -/
theorem level_index (n : Node k) : (TaskHeap.new k).level n.index = some n.level := by
  unfold TaskHeap.level
  rw [if_neg (Nat.not_le.mpr n.index_lt), n.log2_index]

theorem col_index (n : Node k) : (TaskHeap.new k).col n.index = some n.column := by
  unfold TaskHeap.col
  rw [if_neg (Nat.not_le.mpr n.index_lt)]
  dsimp only
  rw [n.log2_index, Nat.one_shiftLeft]
  unfold index
  rw [Nat.add_sub_cancel_left]

/-- The children of a node above the last level. -/
def child (n : Node k) (h : n.level < k) (side : Fin 2) : Node k where
  level := n.level + 1
  column := 2 * n.column + side
  level_le := h
  column_lt := by
    have hlt := n.column_lt
    have hside := side.isLt
    rw [pow_succ]
    omega

theorem index_child (n : Node k) (h : n.level < k) (side : Fin 2) :
    (n.child h side).index = 2 * n.index + 1 + side := by
  have hchild := (n.child h side).index_succ
  have hsucc := n.index_succ
  dsimp only [child] at hchild ⊢
  rw [pow_succ] at hchild
  omega

/-- The leaves are the nodes of the last level. -/
theorem isLeaf_index (n : Node k) : (TaskHeap.new k).isLeaf n.index = true ↔ n.level = k := by
  have hsucc := n.index_succ
  have hlt := n.column_lt
  have hpos := Nat.two_pow_pos k
  rw [isLeaf, decide_eq_true_iff]
  show 2 * 2 ^ k - 1 - 2 ^ k ≤ n.index ↔ _
  constructor
  · intro hle
    by_contra hne
    have hlevel : n.level + 1 ≤ k := Nat.lt_of_le_of_ne n.level_le hne
    have hpow : 2 ^ (n.level + 1) ≤ 2 ^ k := Nat.pow_le_pow_right two_pos hlevel
    rw [pow_succ] at hpow
    omega
  · intro hlevel
    rw [hlevel] at hsucc
    omega

end Node

/-! ## The heap -/

/-- **A heap that is a complete binary tree of depth `k`.** -/
structure IsCompleteTree (k : ℕ) (heap : TaskHeap) : Prop where
  /-- Neither `2 * num_leaves - 1` nor `size - num_leaves` is below zero. -/
  sizes : heap.numLeaves = 2 ^ k ∧ heap.size + 1 = 2 * 2 ^ k ∧ heap.leafStart + 2 ^ k = heap.size
  root : parent 0 = none ∧ heap.level 0 = some 0 ∧ heap.col 0 = some 0
  parent_left : ∀ i, parent (left i) = some i
  parent_right : ∀ i, parent (right i) = some i
  child_parent : ∀ i, 0 < i → ∃ p, parent i = some p ∧
    (i % 2 = 1 → left p = i) ∧ (i % 2 = 0 → right p = i)
  outside : ∀ i, heap.size ≤ i → heap.level i = none ∧ heap.col i = none ∧ heap.get i = none
  /-- The start of the level is at most the index, so that `col` is not below zero. -/
  position : ∀ i < heap.size, ∃ l c, heap.level i = some l ∧ heap.col i = some c ∧ l ≤ k ∧
    c < 2 ^ l ∧ 2 ^ l - 1 + c = i
  positions : ∀ l ≤ k, ∀ c < 2 ^ l, ∃! i, heap.level i = some l ∧ heap.col i = some c
  children : ∀ i l c, heap.level i = some l → heap.col i = some c → heap.isLeaf i = false →
    heap.level (left i) = some (l + 1) ∧ heap.col (left i) = some (2 * c) ∧
    heap.level (right i) = some (l + 1) ∧ heap.col (right i) = some (2 * c + 1)
  leaves : ∀ i < heap.size, (heap.isLeaf i = true ↔ heap.size - 2 ^ k ≤ i) ∧
    (heap.isLeaf i = true ↔ heap.level i = some k) ∧
    heap.get i = some (if heap.isLeaf i then .leaf else .node)
  columns : ∀ c < 2 ^ k, heap.level (heap.leafStart + c) = some k ∧
    heap.col (heap.leafStart + c) = some c
  /-- In words of `w` bits that hold the number of leaves twice, no index overflows. -/
  fits : ∀ w, 2 * heap.numLeaves < 2 ^ w → ∀ i < heap.size, left i < 2 ^ w ∧ right i < 2 ^ w

theorem parent_left_eq (i : ℕ) : parent (left i) = some i := by
  unfold parent left
  rw [if_neg (Nat.succ_ne_zero _)]
  congr 1
  omega

theorem parent_right_eq (i : ℕ) : parent (right i) = some i := by
  unfold parent right
  rw [if_neg (by omega)]
  congr 1
  omega

/-- The side of a child is the parity of its index. -/
theorem exists_parent {i : ℕ} (hi : 0 < i) :
    ∃ p, parent i = some p ∧ (i % 2 = 1 → left p = i) ∧ (i % 2 = 0 → right p = i) := by
  refine ⟨(i - 1) / 2, if_neg hi.ne', ?_, ?_⟩
  · intro hodd
    unfold left
    omega
  · intro heven
    unfold right
    omega

theorem eq_none_of_le {heap : TaskHeap} {i : ℕ} (h : heap.size ≤ i) :
    heap.level i = none ∧ heap.col i = none ∧ heap.get i = none := by
  refine ⟨if_pos h, if_pos h, if_neg (Nat.not_lt.mpr h)⟩

/-- A level and a column come from one node. -/
theorem exists_node {k i l c : ℕ} (hl : (TaskHeap.new k).level i = some l)
    (hc : (TaskHeap.new k).col i = some c) :
    ∃ n : Node k, n.index = i ∧ n.level = l ∧ n.column = c := by
  have hi : i < (TaskHeap.new k).size := by
    by_contra hle
    rw [(eq_none_of_le (Nat.not_lt.mp hle)).1] at hl
    cases hl
  obtain ⟨n, rfl⟩ := Node.exists_of_lt hi
  rw [n.level_index] at hl
  rw [n.col_index] at hc
  exact ⟨n, rfl, Option.some.inj hl, Option.some.inj hc⟩

theorem new_children {k i l c : ℕ} (hl : (TaskHeap.new k).level i = some l)
    (hc : (TaskHeap.new k).col i = some c) (hleaf : (TaskHeap.new k).isLeaf i = false) :
    (TaskHeap.new k).level (left i) = some (l + 1) ∧
    (TaskHeap.new k).col (left i) = some (2 * c) ∧
    (TaskHeap.new k).level (right i) = some (l + 1) ∧
    (TaskHeap.new k).col (right i) = some (2 * c + 1) := by
  obtain ⟨n, rfl, rfl, rfl⟩ := exists_node hl hc
  have habove : n.level < k := by
    apply Nat.lt_of_le_of_ne n.level_le
    intro hlast
    rw [n.isLeaf_index.mpr hlast] at hleaf
    cases hleaf
  have hleft : left n.index = (n.child habove 0).index := (n.index_child habove 0).symm
  have hright : right n.index = (n.child habove 1).index := (n.index_child habove 1).symm
  rw [hleft, hright]
  exact ⟨Node.level_index _, Node.col_index _, Node.level_index _, Node.col_index _⟩

theorem new_leaves {k i : ℕ} (hi : i < (TaskHeap.new k).size) :
    ((TaskHeap.new k).isLeaf i = true ↔ (TaskHeap.new k).size - 2 ^ k ≤ i) ∧
    ((TaskHeap.new k).isLeaf i = true ↔ (TaskHeap.new k).level i = some k) ∧
    (TaskHeap.new k).get i = some (if (TaskHeap.new k).isLeaf i then .leaf else .node) := by
  constructor
  · exact decide_eq_true_iff
  constructor
  · obtain ⟨n, rfl⟩ := Node.exists_of_lt hi
    rw [n.isLeaf_index, n.level_index, Option.some.injEq]
  · unfold TaskHeap.get isLeaf
    rw [if_pos hi]
    by_cases hleaf : (TaskHeap.new k).size - (TaskHeap.new k).numLeaves ≤ i
    · rw [if_pos hleaf, if_pos (decide_eq_true hleaf)]
    · rw [if_neg hleaf, if_neg (by rwa [decide_eq_true_iff])]

/-- **The indices of a heap.**  For every depth the heap is a complete binary tree: parents and
children agree with the levels and the columns, the last level has the leaves in their order, and
nothing is below zero. -/
theorem new_isCompleteTree (k : ℕ) : IsCompleteTree k (TaskHeap.new k) := by
  have hpos := Nat.two_pow_pos k
  constructor
  · refine ⟨rfl, ?_, ?_⟩
    · show 2 * 2 ^ k - 1 + 1 = 2 * 2 ^ k
      omega
    · show 2 * 2 ^ k - 1 - 2 ^ k + 2 ^ k = 2 * 2 ^ k - 1
      omega
  · let root : Node k := ⟨0, 0, Nat.zero_le k, Nat.one_pos⟩
    exact ⟨rfl, root.level_index, root.col_index⟩
  · exact parent_left_eq
  · exact parent_right_eq
  · exact fun i => exists_parent
  · exact fun i => eq_none_of_le
  · intro i hi
    obtain ⟨n, rfl⟩ := Node.exists_of_lt hi
    exact ⟨_, _, n.level_index, n.col_index, n.level_le, n.column_lt, rfl⟩
  · intro l hl c hc
    let n : Node k := ⟨l, c, hl, hc⟩
    refine ⟨n.index, ⟨n.level_index, n.col_index⟩, ?_⟩
    rintro i ⟨hlevel, hcol⟩
    obtain ⟨m, rfl, rfl, rfl⟩ := exists_node hlevel hcol
    rfl
  · exact fun i l c => new_children
  · exact fun i => new_leaves
  · intro c hc
    let n : Node k := ⟨k, c, le_refl k, hc⟩
    have hindex : (TaskHeap.new k).leafStart + c = n.index := by
      show 2 * 2 ^ k - 1 - 2 ^ k + c = 2 ^ k - 1 + c
      omega
    rw [hindex]
    exact ⟨n.level_index, n.col_index⟩
  · intro w hw i hi
    have hpow : k + 1 < w := by
      rw [← Nat.pow_lt_pow_iff_right Nat.one_lt_two, pow_succ, mul_comm]
      exact hw
    have hle : 2 ^ (k + 2) ≤ 2 ^ w := Nat.pow_le_pow_right two_pos hpow
    change i < 2 * 2 ^ k - 1 at hi
    rw [pow_add] at hle
    unfold left right
    omega

end NexusVm.Nova.ParallelTree.TaskHeap
