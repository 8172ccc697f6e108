import NexusVm.Nova.Circuits.PcdComplete
import NexusVm.Nova.Mle

/-!
# The builder of binary trees

`nova/src/circuits/nova/pcd/tree.rs`.  The leaves prove the even steps over a padded list of states;
nodes are kept under their positions and joined level by level.
-/

namespace NexusVm.Nova.Circuits.Pcd

open R1cs Cyclefold Synth

section Binary

variable {n b : ℕ} {G1 G2 PP1 PP2 : Type} [Fact n.Prime] [Fact b.Prime] [AddCommGroup G1]
  [Module (ZMod n) G1] [AddCommGroup G2] [Module (ZMod b) G2]
  {c : Setting n b G1 G2 PP1 PP2} {SC : StepCircuit (ZMod n)}

/-- The loop over `compute_step`. -/
def pushStates {α : Type} (compute_step : α → α) : ℕ → α → List α
  | 0, last => [last]
  | k + 1, last => last :: pushStates compute_step k (compute_step last)

/-- `states`: as many as are computed, then copies of the last. -/
def treeStates {α : Type} (compute_step : α → α) (initial_input : α) (steps : ℕ) : List α :=
  let padded_n := nextPowerOfTwo steps
  let states := pushStates compute_step (min steps (2 * padded_n - 1)) initial_input
  states ++ List.replicate (2 * padded_n - states.length) (states.getLastD initial_input)

variable (system : System c SC) (params : PublicParams (ZMod n) PP1 PP2)

/-- `nodes`, a map from positions. -/
abbrev Nodes (n b : ℕ) (G1 G2 : Type) : Type := ℕ → Option (PCDNode n b G1 G2)

/-- `nodes.get(&idx).unwrap()`. -/
def Nodes.unwrap (nodes : Nodes n b G1 G2) (idx : ℕ) :
    Run Cyclefold.Error (PCDNode n b G1 G2) :=
  match nodes idx with
  | some node => .ok node
  | none => .error .panic

/-- A leaf under twice its number, for the step of that index. -/
def insertLeaves (states : List (List (ZMod n))) :
    List ℕ → Nodes n b G1 G2 → Nodes n b G1 G2
  | [], nodes => nodes
  | i :: is, nodes => insertLeaves states is
      (Function.update nodes (2 * i)
        (some (proveLeaf system params (UInt64.ofNat (2 * i)) (states.getD (2 * i) []))))

/-- A pass over a level: pairs are joined under the middle of their positions, and an odd node at
the end stays. -/
def buildLevel : Nodes n b G1 G2 → List ℕ →
    Run Cyclefold.Error (Nodes n b G1 G2 × List ℕ)
  | nodes, left_idx :: right_idx :: rest => do
      let left ← nodes.unwrap left_idx
      let right ← nodes.unwrap right_idx
      let parent_node ← proveParent system params left right
      let parent_idx := (left_idx + right_idx) / 2
      let (nodes, next) ← buildLevel (Function.update nodes parent_idx (some parent_node)) rest
      .ok (nodes, parent_idx :: next)
  | nodes, rest => .ok (nodes, rest)

/-- The loop over the levels, and the root; `none` is lack of fuel. -/
def buildLevels : ℕ → Nodes n b G1 G2 → List ℕ →
    Option (Run Cyclefold.Error (PCDNode n b G1 G2))
  | 0, _, _ => none
  | fuel + 1, nodes, level_indices =>
      if 1 < level_indices.length then
        match buildLevel system params nodes level_indices with
        | .error e => some (.error e)
        | .ok (nodes, next) => buildLevels fuel nodes next
      else
        match level_indices with
        | [] => some (.error .panic)
        | idx :: _ => some (nodes.unwrap idx)

/-- `build_binary_pcd_tree`. -/
def buildBinaryPcdTree (initial_input : List (ZMod n)) (steps : ℕ)
    (compute_step : List (ZMod n) → List (ZMod n)) (fuel : ℕ) :
    Option (Run Cyclefold.Error (PCDNode n b G1 G2)) :=
  let padded_n := nextPowerOfTwo steps
  let states := treeStates compute_step initial_input steps
  buildLevels system params fuel
    (insertLeaves system params states (List.range padded_n) fun _ => none)
    ((List.range padded_n).map (2 * ·))

theorem pushStates_eq {α : Type} (f : α → α) (k : ℕ) (z : α) :
    pushStates f k z = (List.range (k + 1)).map fun i => f^[i] z := by
  induction k generalizing z with
  | zero => rfl
  | succ k ih =>
      rw [pushStates, ih, List.range_succ_eq_map (n := k + 1), List.map_cons, List.map_map]
      rfl

theorem one_le_nextPowerOfTwo (k : ℕ) : 1 ≤ nextPowerOfTwo k := by
  obtain ⟨j, hj⟩ := nextPowerOfTwo_eq k
  rw [hj]
  exact Nat.one_le_two_pow

/-- A state is computed up to the number of steps, and the last one after it. -/
theorem getD_treeStates {α : Type} (f : α → α) (z d : α) {steps i : ℕ}
    (hi : i < 2 * nextPowerOfTwo steps) : (treeStates f z steps).getD i d = f^[min i steps] z := by
  have hle := le_nextPowerOfTwo steps
  have hpos := one_le_nextPowerOfTwo steps
  have hmin : min steps (2 * nextPowerOfTwo steps - 1) = steps := by omega
  rw [treeStates, hmin, pushStates_eq]
  have hlen : ((List.range (steps + 1)).map fun j => f^[j] z).length = steps + 1 := by
    rw [List.length_map, List.length_range]
  by_cases hlt : i < steps + 1
  · rw [List.getD_append _ _ _ _ (by rw [hlen]; exact hlt),
      List.getD_eq_getElem _ _ (by rw [hlen]; exact hlt), List.getElem_map, List.getElem_range,
      min_eq_left (by omega)]
  · have hlast : ((List.range (steps + 1)).map fun j => f^[j] z).getLastD z = f^[steps] z := by
      rw [List.range_succ, List.map_append, List.map_singleton, List.getLastD_concat]
    rw [List.getD_append_right _ _ _ _ (by rw [hlen]; omega), hlen, hlast,
      List.getD_replicate _ (by omega), min_eq_right (by omega)]

/-- The tree of height `m` from leaf `s` on, as a recursion. -/
def balanced (state : ℕ → List (ZMod n)) : ℕ → ℕ → Run Cyclefold.Error (PCDNode n b G1 G2)
  | 0, s => .ok (proveLeaf system params (UInt64.ofNat (2 * s)) (state (2 * s)))
  | m + 1, s => do
      let left ← balanced state m s
      let right ← balanced state m (s + 2 ^ m)
      proveParent system params left right

/-- Positions of a level, and under each the tree from its first leaf on. -/
def LevelIs (state : ℕ → List (ZMod n)) (m : ℕ) (nodes : Nodes n b G1 G2) : ℕ → List ℕ → Prop
  | _, [] => True
  | s, idx :: rest => idx + 1 = 2 * s + 2 ^ m ∧
      (∃ node, nodes idx = some node ∧ balanced system params state m s = .ok node) ∧
      LevelIs state m nodes (s + 2 ^ m) rest

variable {system params} {state : ℕ → List (ZMod n)}

variable {nodes : Nodes n b G1 G2}

omit [Fact n.Prime] [Fact b.Prime] [AddCommGroup G1] [Module (ZMod n) G1] [AddCommGroup G2]
  [Module (ZMod b) G2] in
theorem unwrap_eq_ok {idx : ℕ} {node : PCDNode n b G1 G2} :
    nodes.unwrap idx = .ok node ↔ nodes idx = some node := by
  unfold Nodes.unwrap
  cases nodes idx with
  | none => exact ⟨nofun, nofun⟩
  | some node' => rw [Except.ok.injEq, Option.some.injEq]

variable {idxs : List ℕ}

/-- A level does not depend on positions before it. -/
theorem LevelIs.update {m s p : ℕ} (h : LevelIs system params state m nodes s idxs)
    (hp : p + 1 < 2 * s + 2 ^ m) (value : Option (PCDNode n b G1 G2)) :
    LevelIs system params state m (Function.update nodes p value) s idxs := by
  induction idxs generalizing s with
  | nil => trivial
  | cons idx rest ih =>
      obtain ⟨hidx, hnode, hrest⟩ := h
      have hpos := Nat.two_pow_pos m
      refine ⟨hidx, ?_, ih hrest (by omega)⟩
      rwa [Function.update_of_ne (by omega)]

/-- What a pass leaves. -/
theorem buildLevel_levelIs {m k s : ℕ} (hlen : idxs.length = 2 * k)
    (h : LevelIs system params state m nodes s idxs) {out : Nodes n b G1 G2 × List ℕ}
    (hrun : buildLevel system params nodes idxs = .ok out) :
    LevelIs system params state (m + 1) out.1 s out.2 ∧ out.2.length = k ∧
      ∀ idx, idx + 1 < 2 * s + 2 * 2 ^ m → out.1 idx = nodes idx := by
  have hpos := Nat.two_pow_pos m
  induction k generalizing s nodes idxs out with
  | zero =>
      obtain rfl := List.eq_nil_of_length_eq_zero hlen
      cases hrun
      exact ⟨trivial, rfl, fun _ _ => rfl⟩
  | succ k ih =>
      match idxs, hlen with
      | left_idx :: right_idx :: rest, hlen =>
          obtain ⟨hl_idx, ⟨left, hl, hl_tree⟩, hr_idx, ⟨right, hr, hr_tree⟩, hrest⟩ := h
          obtain ⟨left', hleft, hrun⟩ := bind_eq_ok.mp hrun
          obtain rfl := Option.some.inj (hl.symm.trans (unwrap_eq_ok.mp hleft))
          obtain ⟨right', hright, hrun⟩ := bind_eq_ok.mp hrun
          obtain rfl := Option.some.inj (hr.symm.trans (unwrap_eq_ok.mp hright))
          obtain ⟨parent_node, hparent, hrun⟩ := bind_eq_ok.mp hrun
          obtain ⟨out', hrun', hout⟩ := bind_eq_ok.mp hrun
          cases hout
          have hparent_idx : (left_idx + right_idx) / 2 + 1 = 2 * s + 2 * 2 ^ m := by omega
          have hlen' : rest.length = 2 * k := by
            rw [List.length_cons, List.length_cons] at hlen
            omega
          obtain ⟨hlevel, hlength, hframe⟩ := ih hlen' (hrest.update (by omega) _) hrun'
          have hwidth : s + 2 ^ m + 2 ^ m = s + 2 ^ (m + 1) := by
            rw [pow_succ]
            omega
          refine ⟨⟨?_, ⟨parent_node, ?_, ?_⟩, hwidth ▸ hlevel⟩, ?_, ?_⟩
          · rw [hparent_idx, pow_succ]
            omega
          · rw [hframe _ (by omega), Function.update_self]
          · exact bind_eq_ok.mpr ⟨left, hl_tree, bind_eq_ok.mpr ⟨right, hr_tree, hparent⟩⟩
          · rw [List.length_cons, hlength]
          · intro idx hidx
            rw [hframe idx (by omega), Function.update_of_ne (by omega)]

/-- A pass returns if the trees of the next height do. -/
theorem exists_buildLevel {m k s : ℕ} (hlen : idxs.length = 2 * k)
    (h : LevelIs system params state m nodes s idxs)
    (htrees : ∀ t < k, ∃ node, balanced system params state (m + 1) (s + t * 2 ^ (m + 1)) = .ok node) :
    ∃ out, buildLevel system params nodes idxs = .ok out := by
  have hpos := Nat.two_pow_pos m
  induction k generalizing s nodes idxs with
  | zero =>
      obtain rfl := List.eq_nil_of_length_eq_zero hlen
      exact ⟨_, rfl⟩
  | succ k ih =>
      match idxs, hlen with
      | left_idx :: right_idx :: rest, hlen =>
          obtain ⟨hl_idx, ⟨left, hl, hl_tree⟩, hr_idx, ⟨right, hr, hr_tree⟩, hrest⟩ := h
          obtain ⟨node, hnode⟩ := htrees 0 (Nat.succ_pos k)
          rw [Nat.zero_mul, Nat.add_zero] at hnode
          obtain ⟨left', hleft, hnode⟩ := bind_eq_ok.mp hnode
          obtain rfl := Except.ok.inj (hl_tree.symm.trans hleft)
          obtain ⟨right', hright, hnode⟩ := bind_eq_ok.mp hnode
          obtain rfl := Except.ok.inj (hr_tree.symm.trans hright)
          have hlen' : rest.length = 2 * k := by
            rw [List.length_cons, List.length_cons] at hlen
            omega
          have hwidth : s + 2 ^ m + 2 ^ m = s + 2 ^ (m + 1) := by
            rw [pow_succ]
            omega
          obtain ⟨out, hout⟩ := ih hlen'
            (hrest.update (show (left_idx + right_idx) / 2 + 1 < _ by omega) (some node)) (by
              intro t ht
              rw [hwidth,
                show s + 2 ^ (m + 1) + t * 2 ^ (m + 1) = s + (t + 1) * 2 ^ (m + 1) by ring]
              exact htrees (t + 1) (by omega))
          exact ⟨_, bind_eq_ok.mpr ⟨left, unwrap_eq_ok.mpr hl, bind_eq_ok.mpr ⟨right,
            unwrap_eq_ok.mpr hr, bind_eq_ok.mpr ⟨node, hnode, bind_eq_ok.mpr ⟨out, hout, rfl⟩⟩⟩⟩⟩

variable {root : PCDNode n b G1 G2}

/-- Below a tree of a height all smaller trees are. -/
theorem exists_balanced_sub {m j s : ℕ} (h : balanced system params state (m + j) s = .ok root) :
    ∀ t < 2 ^ j, ∃ node, balanced system params state m (s + t * 2 ^ m) = .ok node := by
  induction j generalizing s root with
  | zero =>
      intro t ht
      obtain rfl : t = 0 := by simpa using ht
      rw [Nat.zero_mul, Nat.add_zero]
      exact ⟨root, h⟩
  | succ j ih =>
      intro t ht
      obtain ⟨left, hleft, h⟩ := bind_eq_ok.mp h
      obtain ⟨right, hright, -⟩ := bind_eq_ok.mp h
      by_cases hlt : t < 2 ^ j
      · exact ih hleft t hlt
      · obtain ⟨node, hnode⟩ := ih hright (t - 2 ^ j) (by rw [pow_succ] at ht; omega)
        refine ⟨node, ?_⟩
        have hindex : s + 2 ^ (m + j) + (t - 2 ^ j) * 2 ^ m = s + t * 2 ^ m := by
          obtain ⟨q, rfl⟩ := Nat.exists_eq_add_of_le (Nat.not_lt.mp hlt)
          rw [Nat.add_sub_cancel_left, pow_add]
          ring
        rw [← hindex]
        exact hnode

theorem buildLevels_of_lt {fuel : ℕ} (h : 1 < idxs.length) :
    buildLevels system params (fuel + 1) nodes idxs =
      match buildLevel system params nodes idxs with
      | .error e => some (.error e)
      | .ok (nodes, next) => buildLevels system params fuel nodes next := by
  show (if 1 < idxs.length then _ else _) = _
  rw [if_pos h]

/-- **The loop** returns the tree of the full height, and nothing else. -/
theorem buildLevels_iff {m j : ℕ} (hlen : idxs.length = 2 ^ j)
    (h : LevelIs system params state m nodes 0 idxs) (root : PCDNode n b G1 G2) :
    (∃ fuel, buildLevels system params fuel nodes idxs = some (.ok root)) ↔
      balanced system params state (m + j) 0 = .ok root := by
  induction j generalizing m nodes idxs with
  | zero =>
      obtain ⟨idx, rfl⟩ := List.length_eq_one_iff.mp hlen
      obtain ⟨-, ⟨node, hnode, htree⟩, -⟩ := h
      have hone : ∀ fuel, buildLevels system params (fuel + 1) nodes [idx] =
          some (.ok node) := by
        intro fuel
        rw [buildLevels, if_neg (by simp)]
        exact congrArg some (unwrap_eq_ok.mpr hnode)
      rw [Nat.add_zero, htree, Except.ok.injEq]
      constructor
      · rintro ⟨fuel, hrun⟩
        cases fuel with
        | zero => cases hrun
        | succ fuel =>
            rw [hone] at hrun
            exact Except.ok.inj (Option.some.inj hrun)
      · rintro rfl
        exact ⟨1, hone 0⟩
  | succ j ih =>
      have hpos := Nat.two_pow_pos j
      have hlen' : idxs.length = 2 * 2 ^ j := by rw [hlen, pow_succ, mul_comm]
      have hgt : 1 < idxs.length := by omega
      have hheight : m + (j + 1) = m + 1 + j := by omega
      rw [hheight]
      constructor
      · rintro ⟨fuel, hrun⟩
        cases fuel with
        | zero => cases hrun
        | succ fuel =>
            rw [buildLevels_of_lt hgt] at hrun
            split at hrun
            · cases hrun
            · rename_i nodes' next hpass
              obtain ⟨hlevel, hlength, -⟩ := buildLevel_levelIs hlen' h hpass
              exact (ih hlength hlevel).mp ⟨fuel, hrun⟩
      · intro hroot
        obtain ⟨⟨nodes', next⟩, hpass⟩ := exists_buildLevel hlen' h (exists_balanced_sub hroot)
        obtain ⟨hlevel, hlength, -⟩ := buildLevel_levelIs hlen' h hpass
        obtain ⟨fuel, hrun⟩ := (ih hlength hlevel).mpr hroot
        refine ⟨fuel + 1, ?_⟩
        rw [buildLevels_of_lt hgt, hpass]
        exact hrun

/-! ## The leaves and correct trees -/

theorem insertLeaves_eq (states : List (List (ZMod n))) (is : List ℕ) (nodes : Nodes n b G1 G2)
    {i : ℕ} (hi : i ∈ is ∨ nodes (2 * i) =
      some (proveLeaf system params (UInt64.ofNat (2 * i)) (states.getD (2 * i) []))) :
    insertLeaves system params states is nodes (2 * i) =
      some (proveLeaf system params (UInt64.ofNat (2 * i)) (states.getD (2 * i) [])) := by
  induction is generalizing nodes with
  | nil => exact hi.resolve_left List.not_mem_nil
  | cons k is ih =>
      apply ih
      by_cases hk : i = k
      · right
        rw [hk, Function.update_self]
      · rcases hi with hi | hi
        · exact Or.inl ((List.mem_cons.mp hi).resolve_left hk)
        · right
          rw [Function.update_of_ne (by omega)]
          exact hi

theorem levelIs_leaves {k s : ℕ}
    (h : ∀ i, s ≤ i → i < s + k → nodes (2 * i) = some (proveLeaf system params (UInt64.ofNat (2 * i)) (state (2 * i)))) :
    LevelIs system params state 0 nodes s ((List.range' s k).map (2 * ·)) := by
  induction k generalizing s with
  | zero => trivial
  | succ k ih =>
      rw [List.range'_succ, List.map_cons]
      refine ⟨rfl, ⟨_, h s le_rfl (by omega), rfl⟩, ih fun i hi hlt => ?_⟩
      rw [pow_zero] at hi hlt
      exact h i (by omega) (by omega)

variable (system params) in
/-- **The builder** returns the tree over all leaves, and nothing else. -/
theorem buildBinaryPcdTree_iff (z : List (ZMod n)) {steps m : ℕ} (hm : nextPowerOfTwo steps = 2 ^ m)
    (f : List (ZMod n) → List (ZMod n)) :
    (∃ fuel, buildBinaryPcdTree system params z steps f fuel = some (.ok root)) ↔
      balanced system params (fun i => (treeStates f z steps).getD i []) m 0 = .ok root := by
  have hlevel : LevelIs system params (fun i => (treeStates f z steps).getD i []) 0
      (insertLeaves system params (treeStates f z steps) (List.range (2 ^ m)) fun _ => none) 0
      ((List.range (2 ^ m)).map (2 * ·)) := by
    rw [List.range_eq_range']
    apply levelIs_leaves
    intro i _ hi
    apply insertLeaves_eq
    left
    rw [← List.range_eq_range', List.mem_range]
    omega
  have hiff := buildLevels_iff (j := m) (by rw [List.length_map, List.length_range]) hlevel
    root
  rw [Nat.zero_add] at hiff
  rw [← hiff]
  simp only [buildBinaryPcdTree, hm]

/-- Every leaf proves its step from the state that the computation has there. -/
def LeavesTrue {α : Type} (f : α → α) (z d : α) (steps : ℕ) : Prop :=
  ∀ i < nextPowerOfTwo steps, (treeStates f z steps).getD (2 * i) d = f^[2 * i] z

/-- The number of steps of a padded execution: the next power of two minus one. -/
def paddedSteps (steps : ℕ) : ℕ := nextPowerOfTwo (steps + 1) - 1

/-- The first even index after the computed states. -/
def firstPadded (steps : ℕ) : ℕ := 2 * (steps / 2 + 1)

section Padding

variable {α : Type} {f : α → α} {z d : α} {steps : ℕ}

/-- States after the last repeat every other step, if the first padded leaf is true. -/
theorem iterate_eq_of_padded (h : f^[firstPadded steps] z = f^[steps] z) {k : ℕ}
    (hk : steps ≤ k) : f^[k] z = f^[(k - steps) % 2] (f^[steps] z) := by
  have hshift : ∀ k, steps ≤ k → f^[k] z = f^[k - steps] (f^[steps] z) := by
    intro k hk
    rw [← Function.iterate_add_apply, Nat.sub_add_cancel hk]
  have hle : steps ≤ firstPadded steps := by
    unfold firstPadded
    omega
  have hperiod : Function.IsPeriodicPt f (firstPadded steps - steps) (f^[steps] z) := by
    rw [hshift _ hle] at h
    exact h
  have htwo : Function.IsPeriodicPt f 2 (f^[steps] z) := by
    apply hperiod.trans_dvd
    have hcases : firstPadded steps - steps = 1 ∨ firstPadded steps - steps = 2 := by
      unfold firstPadded
      omega
    rcases hcases with heq | heq <;> rw [heq]
    exact one_dvd 2
  rw [hshift k hk, htwo.iterate_mod_apply]

/-- **Which padded leaves are true**: there are none for two steps, and otherwise the first decides
for all. -/
theorem leavesTrue_iff (hpos : 1 ≤ steps) :
    LeavesTrue f z d steps ↔ steps ≤ 2 ∨ f^[firstPadded steps] z = f^[steps] z := by
  have hle := le_nextPowerOfTwo steps
  constructor
  · intro h
    by_cases hsmall : steps ≤ 2
    · exact Or.inl hsmall
    · right
      have hleaf := h (steps / 2 + 1) (by omega)
      rw [getD_treeStates f z d (by omega), min_eq_right (by omega)] at hleaf
      exact hleaf.symm
  · rintro h i hi
    rw [getD_treeStates f z d (by omega)]
    by_cases hcomputed : 2 * i ≤ steps
    · rw [min_eq_left hcomputed]
    · rw [min_eq_right (by omega)]
      rcases h with hsmall | hpadded
      · have hpow : nextPowerOfTwo steps = steps := by
          interval_cases steps <;> rfl
        omega
      · rw [iterate_eq_of_padded hpadded (show steps ≤ 2 * i by omega)]
        have heven := iterate_eq_of_padded hpadded
          (show steps ≤ firstPadded steps by unfold firstPadded; omega)
        rw [hpadded] at heven
        have hparity : (2 * i - steps) % 2 = (firstPadded steps - steps) % 2 := by
          unfold firstPadded
          omega
        rw [hparity]
        exact heven

/-- With true leaves the whole tree ends where the padded execution does. -/
theorem iterate_padded (hpos : 1 ≤ steps) (h : LeavesTrue f z d steps) :
    f^[2 * nextPowerOfTwo steps - 1] z = f^[paddedSteps steps] z := by
  have hle := le_nextPowerOfTwo steps
  rcases (leavesTrue_iff hpos).mp h with hsmall | hpadded
  · have heq : 2 * nextPowerOfTwo steps - 1 = paddedSteps steps := by
      interval_cases steps <;> rfl
    rw [heq]
  · have hle' := le_nextPowerOfTwo (steps + 1)
    obtain ⟨k, hk⟩ := nextPowerOfTwo_eq (steps + 1)
    have hodd : paddedSteps steps % 2 = 1 := by
      cases k with
      | zero =>
          rw [pow_zero] at hk
          omega
      | succ k =>
          rw [pow_succ] at hk
          unfold paddedSteps
          omega
    rw [iterate_eq_of_padded hpadded (show steps ≤ 2 * nextPowerOfTwo steps - 1 by omega),
      iterate_eq_of_padded hpadded (show steps ≤ paddedSteps steps by unfold paddedSteps; omega)]
    congr 1
    unfold paddedSteps at hodd ⊢
    omega

end Padding

/-! ## The root and counting -/

section Root

variable {f : List (ZMod n) → List (ZMod n)}

theorem toNat_ofNat {k : ℕ} (h : k < 2 ^ 64) : (UInt64.ofNat k).toNat = k :=
  UInt64.toNat_ofNat_of_lt h

theorem applyFrom_const {F : Type} [AddCommMonoidWithOne F] {α : Type} (f : α → α) (i : F) (k : ℕ)
    (z : α) : applyFrom (fun _ => f) i k z = f^[k] z := by
  induction k with
  | zero => rfl
  | succ k ih => rw [applyFrom, ih, Function.iterate_succ_apply']

variable {z : List (ZMod n)}

theorem length_iterate (hf : SC.Computes fun _ => f) (hz : z.length = SC.arity) (k : ℕ) :
    (f^[k] z).length = SC.arity := by
  rw [← applyFrom_const f (0 : ZMod n)]
  exact hf.length_applyFrom 0 k hz

/-- A tree starts at its first leaf and ends with the step of its last leaf. -/
theorem balanced_ends (hf : SC.Computes fun _ => f) (hshape : params.shape = system.shape)
    {m s : ℕ} (hstate : ∀ i, s ≤ i → i < s + 2 ^ m → (state (2 * i)).length = SC.arity)
    (hbound : 2 * (s + 2 ^ m) < 2 ^ 64) {root : PCDNode n b G1 G2}
    (h : balanced system params state m s = .ok root) :
    root.i = UInt64.ofNat (2 * s) ∧ root.z_j = f (state (2 * (s + 2 ^ m - 1))) := by
  induction m generalizing s root with
  | zero =>
      cases h
      have hcast : (UInt64.ofNat (2 * s)).toNat = 2 * s := toNat_ofNat (by omega)
      obtain ⟨-, -, hz_j⟩ := proveLeaf_verified system hf hshape
        (by rw [hcast]; omega) (hstate s le_rfl (by omega))
      exact ⟨rfl, hz_j⟩
  | succ m ih =>
      obtain ⟨left, hleft, h⟩ := bind_eq_ok.mp h
      obtain ⟨right, hright, h⟩ := bind_eq_ok.mp h
      obtain ⟨fold_l, fold_r, fold, nodes, hparent⟩ := (proveParent_eq_ok system).mp h
      have hpos := Nat.two_pow_pos m
      rw [pow_succ] at hstate hbound
      obtain ⟨hi, -⟩ := ih (fun i hs hlt => hstate i hs (by omega)) (by omega) hleft
      obtain ⟨-, hz_j⟩ := ih (fun i hs hlt => hstate i (by omega) (by omega)) (by omega) hright
      have hlast : s + 2 ^ (m + 1) - 1 = s + 2 ^ m + 2 ^ m - 1 := by
        rw [pow_succ]
        omega
      rw [hparent.eq, hlast]
      exact ⟨hi, hz_j⟩

/-- With true leaves the tree is the one that starts with the state of its first leaf. -/
theorem balanced_eq_build (hb : 2 ^ 127 ≤ b) (hn : 2 ^ 127 ≤ n) (hf : SC.Computes fun _ => f)
    (hshape : params.shape = system.shape) (hz : z.length = SC.arity) {m s : ℕ}
    (hstate : ∀ i, s ≤ i → i < s + 2 ^ m → state (2 * i) = f^[2 * i] z)
    (hbound : 2 * (s + 2 ^ m) < 2 ^ 64)
    (hfits : FitsAlong system params (fun _ => f) (.complete m) (UInt64.ofNat (2 * s)) (f^[2 * s] z)) :
    balanced system params state m s =
      build system params (fun _ => f) (.complete m) (UInt64.ofNat (2 * s)) (f^[2 * s] z) := by
  induction m generalizing s with
  | zero => rw [balanced, hstate s le_rfl (by omega), Shape.complete, build]
  | succ m ih =>
      have hpos := Nat.two_pow_pos m
      rw [pow_succ] at hstate hbound
      have hcast : (UInt64.ofNat (2 * s)).toNat = 2 * s := toNat_ofNat (by omega)
      have hsize := Shape.size_complete m
      rw [pow_succ] at hsize
      obtain ⟨left, hleft, hbuilt⟩ := build_built system hb hn hf hshape
        (length_iterate hf hz (2 * s)) (by rw [hcast]; omega) hfits.1
      have hright : FitsAlong system params (fun _ => f) (.complete m) (left.j + 1)
          (f left.z_j) := (hfits.2 left hleft).1
      have hj : left.j.toNat + 1 = 2 * (s + 2 ^ m) := by
        rw [hbuilt.j, hcast]
        omega
      have hnext : left.j + 1 = UInt64.ofNat (2 * (s + 2 ^ m)) := by
        apply UInt64.toNat.inj
        rw [toNat_ofNat (by omega), UInt64.toNat_add, UInt64.toNat_one, hj,
          Nat.mod_eq_of_lt (by omega)]
      have hz_j : f left.z_j = f^[2 * (s + 2 ^ m)] z := by
        rw [hbuilt.z_j, applyFrom_const, ← Function.iterate_add_apply,
          ← Function.iterate_succ_apply' f]
        congr 1
        omega
      rw [hnext, hz_j] at hright
      rw [balanced, ih (fun i hs hlt => hstate i hs (by omega)) (by omega) hfits.1,
        ih (fun i hs hlt => hstate i (by omega) (by omega)) (by omega) hright, Shape.complete,
        build, hleft]
      show _ = build system params (fun _ => f) (.complete m) (left.j + 1) (f left.z_j) >>= _
      rw [hnext, hz_j]
      rfl

variable [DecidableEq G1] [DecidableEq G2]

/-- **A correct tree**: it is returned and accepted, it starts at index zero, and it ends with the
state after the steps, or after those of a padded execution if all leaves are true. -/
def TreeCorrect (system : System c SC) (params : PublicParams (ZMod n) PP1 PP2)
    (f : List (ZMod n) → List (ZMod n)) (initial_input : List (ZMod n)) (steps : ℕ) : Prop :=
  ∃ fuel root, buildBinaryPcdTree system params initial_input steps f fuel = some (.ok root) ∧
    root.verify c params = .ok () ∧ root.i = 0 ∧
    (root.z_j = f^[steps] initial_input ∨
      root.z_j = f^[paddedSteps steps] initial_input ∧ LeavesTrue f initial_input [] steps)

/-- All leaves of a correct tree are true. -/
theorem leavesTrue_of_correct (hf : SC.Computes fun _ => f) (hshape : params.shape = system.shape)
    (hz : z.length = SC.arity) {steps : ℕ} (hpos : 1 ≤ steps)
    (hsize : 2 * nextPowerOfTwo steps < 2 ^ 64) (h : TreeCorrect system params f z steps) :
    LeavesTrue f z [] steps := by
  obtain ⟨fuel, root, hrun, -, -, hz_j | ⟨-, hleaves⟩⟩ := h
  · apply (leavesTrue_iff hpos).mpr
    by_cases hsmall : steps ≤ 2
    · exact Or.inl hsmall
    · right
      obtain ⟨m, hm⟩ := nextPowerOfTwo_eq steps
      have hle := le_nextPowerOfTwo steps
      have htree := (buildBinaryPcdTree_iff system params z hm f).mp ⟨fuel, hrun⟩
      have hstate : ∀ i, 0 ≤ i → i < 0 + 2 ^ m →
          ((treeStates f z steps).getD (2 * i) []).length = SC.arity := by
        intro i _ hi
        rw [getD_treeStates f z [] (by omega)]
        exact length_iterate hf hz _
      obtain ⟨-, hend⟩ := balanced_ends hf hshape hstate (by omega) htree
      rw [getD_treeStates f z [] (by omega), min_eq_right (by omega), hz_j] at hend
      have hfixed : Function.IsFixedPt f (f^[steps] z) := hend.symm
      have hsplit : firstPadded steps = firstPadded steps - steps + steps := by
        unfold firstPadded
        omega
      rw [hsplit, Function.iterate_add_apply]
      exact hfixed.iterate _
  · exact hleaves

/-- With true leaves the tree is correct, if the squares of the challenges fit. -/
theorem correct_of_leavesTrue (hb : 2 ^ 127 ≤ b) (hn : 2 ^ 127 ≤ n) (hf : SC.Computes fun _ => f)
    (hshape : params.shape = system.shape) (hz : z.length = SC.arity) {steps m : ℕ}
    (hpos : 1 ≤ steps) (hsize : 2 * nextPowerOfTwo steps < 2 ^ 64)
    (hm : nextPowerOfTwo steps = 2 ^ m)
    (hfits : FitsAlong system params (fun _ => f) (.complete m) 0 z) (h : LeavesTrue f z [] steps) :
    TreeCorrect system params f z steps := by
  have hsize_m := Shape.size_complete m
  rw [pow_succ] at hsize_m
  obtain ⟨root, hroot, hbuilt⟩ := build_built system hb hn hf hshape hz
    (show UInt64.toNat 0 + (Shape.complete m).size < 2 ^ 64 by rw [UInt64.toNat_zero]; omega) hfits
  have htree : balanced system params (fun i => (treeStates f z steps).getD i []) m 0 =
      .ok root := by
    rw [← hroot]
    apply balanced_eq_build hb hn hf hshape hz
    · intro i _ hi
      exact h i (by omega)
    · omega
    · exact hfits
  obtain ⟨fuel, hrun⟩ := (buildBinaryPcdTree_iff system params z hm f).mpr htree
  refine ⟨fuel, root, hrun, (verify_eq_ok c).mpr hbuilt.verified, hbuilt.i, Or.inr ⟨?_, h⟩⟩
  have hsteps : (Shape.complete m).size = 2 * nextPowerOfTwo steps - 1 := by omega
  rw [hbuilt.z_j, applyFrom_const, hsteps]
  exact iterate_padded hpos h

/-- **The builder is correct** exactly if all padded leaves are true: for at most two steps, or if
the state after the last step comes back at the next even index.  The squares of the challenges have
to fit, which they do if the other field is not smaller. -/
theorem build_binary_pcd_tree_iff (system : System c SC) (params : PublicParams (ZMod n) PP1 PP2)
    (hb : 2 ^ 127 ≤ b) (hn : 2 ^ 127 ≤ n) (hshape : params.shape = system.shape)
    (hf : SC.Computes fun _ => f) (hz : z.length = SC.arity) {steps m : ℕ} (hpos : 1 ≤ steps)
    (hsize : 2 * nextPowerOfTwo steps < 2 ^ 64) (hm : nextPowerOfTwo steps = 2 ^ m) :
    (TreeCorrect system params f z steps → steps ≤ 2 ∨ f^[firstPadded steps] z = f^[steps] z) ∧
    (FitsAlong system params (fun _ => f) (.complete m) 0 z →
      (TreeCorrect system params f z steps ↔
        steps ≤ 2 ∨ f^[firstPadded steps] z = f^[steps] z)) ∧
    (n ≤ b → FitsAlong system params (fun _ => f) (.complete m) 0 z) := by
  have honly : TreeCorrect system params f z steps →
      steps ≤ 2 ∨ f^[firstPadded steps] z = f^[steps] z := fun h =>
    (leavesTrue_iff hpos).mp (leavesTrue_of_correct hf hshape hz hpos hsize h)
  refine ⟨honly, fun hfits => ⟨honly, fun h => ?_⟩, fun hle => fitsAlong_of_le system hle _ _ _⟩
  exact correct_of_leavesTrue hb hn hf hshape hz hpos hsize hm hfits ((leavesTrue_iff hpos).mpr h)

end Root

end Binary

section Example

open Bn254

/-- The circuit that adds one to one number. -/
def addOne : StepCircuit (ZMod fr) where
  arity := 1
  Aux := Unit
  hint _ _ := ()
  generateConstraints _ _ z := ⟨z.map (· + 1), True⟩
  length_value _ _ _ h := by rw [List.length_map, h]

theorem addOne_computes : addOne.Computes fun _ z => z.map (· + 1) where
  holds _ _ _ := trivial
  value _ _ _ _ _ := rfl

/-- The output of a leaf at `0` with the key zero. -/
def countHash : ZMod fr :=
  hash sumSetting (transcript sumSetting 0 0 1 [0] [1] (baseAccumulators sumSetting).1
    (baseAccumulators sumSetting).2)

theorem hash_allocBase_addOne (vk : ZMod fr) :
    hash sumSetting (body sumSetting addOne (addOne.hint 0 [0])
      (allocBase sumSetting vk 0 [0])).value.1 = vk + countHash := by
  rw [value_body_base _ (valid_allocBase rfl) rfl, countHash, hash_sumOracle, hash_sumOracle]
  simp [transcript, allocBase, addOne]

/-- Two rows for the circuit that adds one. -/
noncomputable def countSystem : System sumSetting addOne :=
  outcomeArithmetization (fun v => hash sumSetting (body sumSetting _ v.1 v.2).value.1)
    (fun x => (addOne.hint 0 [0], allocBase sumSetting (x - countHash) 0 [0]))
    (fun _ _ h => (holds_iff.mp h).hash_input)
    (fun x => ⟨valid_allocBase rfl, holds_iff.mpr (accepted_allocBase addOne_computes rfl
      ((sub_add_cancel x countHash).symm.trans (hash_allocBase_addOne _).symm))⟩)

/-- **Three steps of counting**: no correct root. -/
theorem three_steps_incorrect : ¬ TreeCorrect countSystem sumParams (List.map (· + 1)) [0] 3 := by
  intro h
  have hleaves := leavesTrue_of_correct addOne_computes rfl rfl (by decide) (by decide) h
  rcases (leavesTrue_iff (by decide)).mp hleaves with hsmall | hpadded
  · omega
  · have hpadded' : [(0 + 1 + 1 + 1 + 1 : ZMod fr)] = [0 + 1 + 1 + 1] := hpadded
    rw [List.cons.injEq] at hpadded'
    exact one_ne_zero (add_eq_left.mp hpadded'.1)

/-- Two steps of counting. -/
theorem build_binary_pcd_tree_two :
    TreeCorrect countSystem sumParams (List.map (· + 1)) [0] 2 := by
  have hpos : 1 ≤ 2 := one_le_two
  have hiff := build_binary_pcd_tree_iff countSystem sumParams (by norm_num [fq])
    (by norm_num [fr]) rfl addOne_computes (z := [0]) (m := 1) rfl hpos (by decide) rfl
  exact (hiff.2.1 (hiff.2.2 (by norm_num [fr, fq]))).mpr (Or.inl le_rfl)

end Example

end NexusVm.Nova.Circuits.Pcd
