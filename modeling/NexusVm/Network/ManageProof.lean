import NexusVm.Network.Workers

/-!
# Managing a proof

`network/src/bin/pcdnode/post.rs`: one task for each leaf and each node of the tree.  A task waits
for its children, then asks the workers.
-/

namespace NexusVm.Network

open Nova Nova.Cyclefold Nova.Circuits Nova.Circuits.Pcd NexusVm.Prover Concurrent
  Concurrent.Requests

section Tasks

variable {n b : ℕ} {G1 G2 P : Type}

/-- The task of a leaf. -/
def leafTask (t : Trace P) : Task (PcdMsg n b G1 G2 P) (PCDNode n b G1 G2) where
  needs := []
  request _ := some (.leafReq t)

/-- The task of a node: the block at the end of each child goes with the child. -/
def nodeTask (tr : Trace P) (l r : ℕ) : Task (PcdMsg n b G1 G2 P) (PCDNode n b G1 G2) where
  needs := [l, r]
  request
    | [l, r] => do
        let ltr ← tr.get l.j.toNat
        let rtr ← tr.get r.j.toNat
        some (.nodeReq [(l, ltr), (r, rtr)])
    | _ => none

/-- A pass over the handles. -/
def pairTasks (tr : Trace P) : List ℕ → List (Task (PcdMsg n b G1 G2 P) (PCDNode n b G1 G2))
  | l :: r :: v => nodeTask tr l r :: pairTasks tr v
  | _ => []

/-- The loop of `manage_proof`: all tasks, and the handle of the last; `none` is lack of fuel. -/
def spawnLevels (tr : Trace P) :
    ℕ → List (Task (PcdMsg n b G1 G2 P) (PCDNode n b G1 G2)) → List ℕ →
      Option (List (Task (PcdMsg n b G1 G2 P) (PCDNode n b G1 G2)) × ℕ)
  | 0, _, _ => none
  | _ + 1, tasks, [h] => some (tasks, h)
  | fuel + 1, tasks, v =>
      spawnLevels tr fuel (tasks ++ pairTasks tr v) (List.range' tasks.length (v.length / 2))

/-- `manage_proof`. -/
def manageProof (fuel : ℕ) (tr : Trace P) :
    Option (List (Task (PcdMsg n b G1 G2 P) (PCDNode n b G1 G2)) × ℕ) :=
  let leaves := (tr.splitBy 2).map leafTask
  spawnLevels tr fuel leaves (List.range leaves.length)

end Tasks

section ManageProof

variable {n b : ℕ} {G1 G2 PP1 PP2 P : Type} [Fact n.Prime] [Fact b.Prime] [AddCommGroup G1]
  [Module (ZMod n) G1] [AddCommGroup G2] [Module (ZMod b) G2] {c : Setting n b G1 G2 PP1 PP2}
  (prover : BlockProver c P) (tr : Trace P)

/-- The states with `p` PCD workers and `q` MSM workers. -/
abbrev NetState (n b : ℕ) (G1 G2 P : Type) (p q : ℕ) : Type :=
  State (PcdMsg n b G1 G2 P) (PCDNode n b G1 G2) (List (ZMod n)) G1 (Fin p) (Fin q)

/-- The requests so far. -/
def requests {p q : ℕ} (s : NetState n b G1 G2 P p q) : List (PcdMsg n b G1 G2 P) :=
  s.asked.map Prod.snd

def leafStart : PcdMsg n b G1 G2 P → Option ℕ
  | .leafReq t => some t.start
  | .nodeReq _ => none

def nodeMiddle : PcdMsg n b G1 G2 P → Option ℕ
  | .nodeReq ((l, _) :: _) => some l.j.toNat
  | _ => none

/-- **What a run should end with**: one request for each even block, one for each odd block with the
nodes on both sides of it, and the node of the local prover over all blocks. -/
structure Complete {p q : ℕ} (root : ℕ) (s : NetState n b G1 G2 P p q) : Prop where
  leaves : ((requests s).filterMap leafStart).Perm (List.range' 0 ((tr.blocks.length + 1) / 2) 2)
  leaf : ∀ t, .leafReq t ∈ requests s →
    ∃ block, tr.block t.start = some block ∧ t.block t.start = some block
  nodes : ((requests s).filterMap nodeMiddle).Perm (List.range' 1 (tr.blocks.length / 2) 2)
  node : ∀ ns, .nodeReq ns ∈ requests s → ∃ l ltr r rtr, ns = [(l, ltr), (r, rtr)] ∧
    r.i.toNat = l.j.toNat + 1 ∧ tr.get l.j.toNat = some ltr
  root : ∃ v fuel calls, s.tasks root = .done v ∧
    provePar prover tr fuel = some (.ok v, calls) ∧ v.i = 0 ∧ v.j.toNat = tr.blocks.length ∧
      Spans prover tr v (List.range tr.blocks.length)

/-- **Distributed proving is local proving**: the tasks get spawned, and for any numbers of workers
each run ends, and from each state of a run on the run can be completed. -/
def ProvesDistributed : Prop :=
  ∃ fuel tasks root, manageProof fuel tr = some (tasks, root) ∧ ∀ p q, 0 < p → 0 < q →
    (∀ run : ℕ → NetState n b G1 G2 P p q, run 0 = .initial →
      ¬ ∀ t, Requests.Step (pools prover) tasks (run t) (run (t + 1))) ∧
    ∀ s : NetState n b G1 G2 P p q, Requests.Steps (pools prover) tasks .initial s →
      ∃ s', Requests.Steps (pools prover) tasks s s' ∧ Complete prover tr root s'

end ManageProof

section Plan

variable {n b : ℕ} {G1 G2 P : Type} (tr : Trace P)
  (tasks : List (Task (PcdMsg n b G1 G2 P) (PCDNode n b G1 G2)))

/-- A task whose node ends with the last block. -/
inductive Rightmost : ℕ → Prop
  | leaf {h : ℕ} {t : Trace P} (htask : tasks[h]? = some (leafTask t))
      (hlast : t.start + 1 = tr.blocks.length) : Rightmost h
  | node {h l r : ℕ} (htask : tasks[h]? = some (nodeTask tr l r)) (hright : Rightmost r) :
      Rightmost h

/-- A node on the right edge of the tree. -/
def RightNode (h : ℕ) : Prop :=
  ∃ l r, tasks[h]? = some (nodeTask tr l r) ∧ Rightmost tr tasks r

variable {tr tasks}

theorem RightNode.rightmost {h : ℕ} (hnode : RightNode tr tasks h) : Rightmost tr tasks h := by
  obtain ⟨l, r, htask, hright⟩ := hnode
  exact .node htask hright

/-- More tasks do not change the edge. -/
theorem Rightmost.append {h : ℕ} (hright : Rightmost tr tasks h)
    (more : List (Task (PcdMsg n b G1 G2 P) (PCDNode n b G1 G2))) :
    Rightmost tr (tasks ++ more) h := by
  have hget : ∀ {i : ℕ} {task : Task (PcdMsg n b G1 G2 P) (PCDNode n b G1 G2)},
      tasks[i]? = some task → (tasks ++ more)[i]? = some task := fun {i task} hi => by
    rw [List.getElem?_append_left (List.getElem?_eq_some_iff.mp hi).1, hi]
  induction hright with
  | leaf htask hlast => exact .leaf (hget htask) hlast
  | node htask _ ih => exact .node (hget htask) ih

variable {v : List ℕ}

/-- The tasks of a pass. -/
theorem pairTasks_getElem? {i l r : ℕ} (hl : v[2 * i]? = some l) (hr : v[2 * i + 1]? = some r) :
    (pairTasks tr v : List (Task (PcdMsg n b G1 G2 P) (PCDNode n b G1 G2)))[i]? =
      some (nodeTask tr l r) := by
  induction v using pairTasks.induct generalizing i with
  | case1 l' r' v ih =>
      cases i with
      | zero =>
          cases hl
          cases hr
          rfl
      | succ i =>
          rw [pairTasks, List.getElem?_cons_succ]
          exact ih hl hr
  | case2 v hv =>
      exfalso
      cases v with
      | nil => cases hl
      | cons l' v =>
          cases v with
          | nil => cases hr
          | cons r' v => exact hv l' r' v rfl

theorem spawnLevels_succ {fuel : ℕ} (hv : v.length ≠ 1) :
    spawnLevels tr (fuel + 1) tasks v =
      spawnLevels tr fuel (tasks ++ pairTasks tr v) (List.range' tasks.length (v.length / 2)) := by
  rw [spawnLevels]
  rintro h rfl
  exact hv rfl

/-- The last task of a pass is on the right edge if the last handle is. -/
theorem rightNode_of_pass {m : ℕ} (hv : v.length = 2 ^ (m + 1)) {last : ℕ}
    (hlast : v[v.length - 1]? = some last) (hright : Rightmost tr tasks last) :
    RightNode tr (tasks ++ pairTasks tr v) (tasks.length + (2 ^ m - 1)) := by
  have hpos := Nat.two_pow_pos m
  rw [pow_succ] at hv
  obtain ⟨l, hl⟩ : ∃ l, v[2 * (2 ^ m - 1)]? = some l :=
    ⟨_, List.getElem?_eq_getElem (by omega)⟩
  have hr : v[2 * (2 ^ m - 1) + 1]? = some last := by
    rw [← hlast]
    congr 1
    omega
  refine ⟨l, last, ?_, hright.append _⟩
  rw [List.getElem?_append_right (Nat.le_add_right _ _), Nat.add_sub_cancel_left]
  exact pairTasks_getElem? hl hr

variable {out : List (Task (PcdMsg n b G1 G2 P) (PCDNode n b G1 G2))}

/-- The right edge goes up to the root. -/
theorem rightNode_root {fuel root m : ℕ} (h : spawnLevels tr fuel tasks v = some (out, root))
    (hv : v.length = 2 ^ m) {l : ℕ} (hlast : v[v.length - 1]? = some l)
    (hright : Rightmost tr tasks l) (hnode : m = 0 → RightNode tr tasks l) :
    RightNode tr out root := by
  induction fuel generalizing tasks v m l with
  | zero => cases h
  | succ fuel ih =>
      cases m with
      | zero =>
          obtain ⟨handle, rfl⟩ := List.length_eq_one_iff.mp hv
          cases h
          cases hlast
          exact hnode rfl
      | succ m =>
          have hpos := Nat.two_pow_pos m
          have hpass := rightNode_of_pass hv hlast hright
          rw [pow_succ] at hv
          rw [spawnLevels_succ (by omega)] at h
          have hhalf : v.length / 2 = 2 ^ m := by omega
          rw [hhalf] at h
          refine ih h List.length_range' ?_ hpass.rightmost fun _ => hpass
          rw [List.length_range', List.getElem?_range' (by omega), Nat.one_mul]

/-- **The root is on the right edge**, above the leaves if there are several blocks. -/
theorem rightNode_manageProof {fuel root m : ℕ} (h : manageProof fuel tr = some (out, root))
    (hm : tr.blocks.length + 1 = 2 ^ (m + 2)) :
    RightNode tr out root := by
  have hpos := Nat.two_pow_pos m
  have hsplit : (tr.splitBy 2).length = 2 ^ (m + 1) := by
    rw [Trace.splitBy, List.length_map, List.length_range, pow_succ]
    rw [pow_add] at hm
    omega
  have hleaves : ((tr.splitBy 2).map
      (leafTask : Trace P → Task (PcdMsg n b G1 G2 P) (PCDNode n b G1 G2))).length = 2 ^ (m + 1) := by
    rw [List.length_map, hsplit]
  refine rightNode_root (m := m + 1) h (by rw [List.length_range, hleaves])
    (l := 2 ^ (m + 1) - 1) ?_ ?_ (by simp)
  · rw [List.length_range, hleaves, List.getElem?_range (by rw [pow_succ]; omega)]
  · have hlast : (tr.splitBy 2)[2 ^ (m + 1) - 1]? = some
        { k := tr.k, start := (2 ^ (m + 1) - 1) * 2,
          blocks := (tr.blocks.drop ((2 ^ (m + 1) - 1) * 2)).take 2 } := by
      have hlt : 2 ^ (m + 1) - 1 < (tr.blocks.length + 2 - 1) / 2 := by
        rw [pow_succ]
        rw [pow_add] at hm
        omega
      rw [Trace.splitBy, List.getElem?_map, List.getElem?_range hlt, Option.map_some]
    apply Rightmost.leaf (t := _)
    · rw [List.getElem?_map, hlast, Option.map_some]
    · dsimp only
      rw [pow_add] at hm
      rw [pow_succ]
      omega

end Plan

section Results

variable {n b : ℕ} {G1 G2 PP1 PP2 P : Type} [Fact n.Prime] [Fact b.Prime] [AddCommGroup G1]
  [Module (ZMod n) G1] [AddCommGroup G2] [Module (ZMod b) G2] {c : Setting n b G1 G2 PP1 PP2}
  {prover : BlockProver c P} {tr : Trace P}
  {tasks : List (Task (PcdMsg n b G1 G2 P) (PCDNode n b G1 G2))}

/-! ## What tasks return, one block and small traces -/

variable {v : PCDNode n b G1 G2}

/-- The result of a leaf. -/
theorem value_leafTask {h : ℕ} {t : Trace P} (htask : tasks[h]? = some (leafTask t))
    (hvalue : Value (pools prover) tasks h v) :
    proveLeaf prover t = .ok v := by
  obtain ⟨task, results, req, job, make, htask', -, -, hreq, hstart, rfl⟩ := hvalue.cases
  rw [htask, Option.some.injEq] at htask'
  subst htask'
  cases hreq
  exact start_eq_some_iff hstart

/-- The result of a node. -/
theorem value_nodeTask {h l r : ℕ} (htask : tasks[h]? = some (nodeTask tr l r))
    (hvalue : Value (pools prover) tasks h v) :
    ∃ vl vr ltr rtr, Value (pools prover) tasks l vl ∧ Value (pools prover) tasks r vr ∧
      tr.get vl.j.toNat = some ltr ∧ tr.get vr.j.toNat = some rtr ∧
        proveNode prover ltr vl vr = .ok v := by
  obtain ⟨task, results, req, job, make, htask', hlength, hneeds, hreq, hstart, rfl⟩ := hvalue.cases
  rw [htask, Option.some.injEq] at htask'
  subst htask'
  obtain ⟨vl, vr, rfl⟩ := List.length_eq_two.mp hlength.symm
  obtain ⟨ltr, hltr, hreq⟩ := Option.bind_eq_some_iff.mp hreq
  obtain ⟨rtr, hrtr, hreq⟩ := Option.bind_eq_some_iff.mp hreq
  cases hreq
  exact ⟨vl, vr, ltr, rtr, hneeds 0 l vl rfl rfl, hneeds 1 r vr rfl rfl, hltr, hrtr,
    start_eq_some_iff hstart⟩

/-- Nodes on the right edge end with the last block. -/
theorem Rightmost.last {h : ℕ} (hright : Rightmost tr tasks h) (hlen : tr.blocks.length < 2 ^ 64)
    (hvalue : Value (pools prover) tasks h v) :
    v.j.toNat = tr.blocks.length := by
  induction hright generalizing v with
  | @leaf h t htask hlast =>
      obtain ⟨-, hj, -⟩ := proveLeaf_ok (value_leafTask htask hvalue)
      have hcast : (UInt64.ofNat t.start).toNat = t.start :=
        UInt64.toNat_ofNat_of_lt (show t.start < 2 ^ 64 by omega)
      rw [hj, UInt64.toNat_add, hcast, UInt64.toNat_one, hlast, Nat.mod_eq_of_lt hlen]
  | node htask _ ih =>
      obtain ⟨vl, vr, ltr, rtr, -, hr, -, -, hnode⟩ := value_nodeTask htask hvalue
      rw [(proveNode_ok hnode).2.1]
      exact ih hr

/-- **A node on the right edge has no result**: there is no block after its right child. -/
theorem RightNode.no_value {h : ℕ} (hnode : RightNode tr tasks h)
    (hlen : tr.blocks.length < 2 ^ 64) (hstart : tr.start = 0) (v : PCDNode n b G1 G2) :
    ¬ Value (pools prover) tasks h v := by
  intro hvalue
  obtain ⟨l, r, htask, hright⟩ := hnode
  obtain ⟨vl, vr, ltr, rtr, -, hr, -, hrtr, -⟩ := value_nodeTask htask hvalue
  have hj := hright.last hlen hr
  obtain ⟨block, hblock, -⟩ := Option.map_eq_some_iff.mp hrtr
  rw [hj, Trace.block_of_start hstart, List.getElem?_eq_none (le_refl _)] at hblock
  cases hblock

omit [Fact n.Prime] [Fact b.Prime] [AddCommGroup G1] [Module (ZMod n) G1] [AddCommGroup G2]
  [Module (ZMod b) G2] in
/-- The only task of a trace of one block. -/
theorem manageProof_one (hone : tr.blocks.length = 1) : ∃ t ∈ tr.splitBy 2, t.start = 0 ∧
    manageProof 1 tr =
      some ([(leafTask t : Task (PcdMsg n b G1 G2 P) (PCDNode n b G1 G2))], 0) := by
  have hsplit : tr.splitBy 2 =
      [{ k := tr.k, start := 0 * 2, blocks := (tr.blocks.drop (0 * 2)).take 2 }] := by
    rw [Trace.splitBy, hone]
    rfl
  refine ⟨_, by rw [hsplit]; exact List.mem_singleton_self _, rfl, ?_⟩
  rw [manageProof, hsplit]
  rfl

/-- The leaf of the only block. -/
theorem provePar_one (hone : tr.blocks.length = 1) (hv : proveParLeafStep prover tr 0 = .ok v) :
    provePar prover tr 1 = some (.ok v, [.leaf 0]) := by
  have hpow : isPowerOfTwo (tr.blocks.length + 1) = true := by
    rw [hone]
    rfl
  rw [provePar, if_pos hpow, hone]
  simp only [Nat.reduceAdd, Nat.reduceDiv, List.range'_one, proveLeaves, hv]
  rfl

/-- A task that is done was the only one to ask. -/
theorem asked_one {p q : ℕ} {s : NetState n b G1 G2 P p q} {t : Trace P}
    (hs : AskedOnce (pools prover) [leafTask t] s) (hdone : s.tasks 0 = .done v) :
    s.asked = [(0, .leafReq t)] := by
  have hentry : ∀ entry ∈ s.asked, entry = (0, .leafReq t) := by
    intro entry hmem
    obtain ⟨task, results, htask, -, -, hreq⟩ := (hs.asks entry hmem).request
    obtain ⟨h, req⟩ := entry
    cases h with
    | zero =>
        cases htask
        cases hreq
        rfl
    | succ h => cases htask
  have hzero := (hs.mem 0).mpr (Or.inr ⟨v, hdone⟩)
  have hnodup := hs.nodup
  cases hasked : s.asked with
  | nil =>
      rw [hasked] at hzero
      cases hzero
  | cons first rest =>
      rw [hasked] at hentry hnodup
      rw [hentry first List.mem_cons_self] at hnodup ⊢
      cases rest with
      | nil => rfl
      | cons second rest =>
          rw [hentry second (List.mem_cons_of_mem _ List.mem_cons_self)] at hnodup
          exact absurd List.mem_cons_self (List.nodup_cons.mp hnodup).1

/-- A trace of one block is proved. -/
theorem provesDistributed_one (hn : 2 ^ 64 ≤ n) (h : Provable tr) (hone : tr.blocks.length = 1) :
    ProvesDistributed prover tr := by
  have hpow : isPowerOfTwo (tr.blocks.length + 1) = true := by
    rw [hone]
    rfl
  have hlen : tr.blocks.length < 2 ^ 64 := by
    rw [hone]
    norm_num
  obtain ⟨t, ht, hzero, hspawn⟩ : ∃ t ∈ tr.splitBy 2, t.start = 0 ∧ manageProof 1 tr =
      some ([(leafTask t : Task (PcdMsg n b G1 G2 P) (PCDNode n b G1 G2))], 0) :=
    manageProof_one hone
  obtain ⟨hlt, hblock⟩ := Trace.block_of_splitBy Nat.two_pos h.start ht
  obtain ⟨block, hget⟩ := Trace.exists_block h.start hlt
  have hsteps : block.steps ≠ [] := by
    apply h.steps 0
    rwa [Trace.block_of_start h.start, hzero] at hget
  obtain ⟨v, hv, hi, hj⟩ := (proveParLeafStep_iff prover hn hpow
    (show t.start + 1 < 2 ^ 64 by omega)).mpr ⟨block, hget, hsteps⟩
  have hleaf : proveLeaf prover t = .ok v := (proveLeaf_eq hn hpow (by omega) hblock).trans hv
  refine ⟨1, [leafTask t], 0, hspawn, fun p q hp hq => ⟨fun run hrun => not_forall_step hrun, ?_⟩⟩
  intro s hs
  have : Nonempty (Fin p) := ⟨⟨0, hp⟩⟩
  have : Nonempty (Fin q) := ⟨⟨0, hq⟩⟩
  have hinv := hs.invariant_of_initial
  have hstart : ∀ h req, Asks (pools prover) [leafTask t] h req →
      ∃ out, (pools prover).start req = some out := by
    intro h req hasks
    obtain ⟨task, results, htask, -, -, hreq⟩ := hasks.request
    cases h with
    | zero =>
        cases htask
        cases hreq
        refine ⟨(v.w.W, setCommitment v), ?_⟩
        simp only [pools, localPcd, hleaf]
    | succ h => cases htask
  have hvalue : Value (pools prover) [leafTask t] 0 v := by
    obtain ⟨⟨job, make⟩, hout⟩ := hstart 0 (.leafReq t) ⟨leafTask t, [], rfl, rfl, (by simp), rfl⟩
    have hok : localPcd prover (.leafReq t) = .ok _ := start_eq_some_iff hout
    have heq := Except.ok.inj (hleaf.symm.trans hok)
    rw [heq]
    let task : Task (PcdMsg n b G1 G2 P) (PCDNode n b G1 G2) := leafTask t
    have htask : [task][0]? = some task := rfl
    have hlength : task.needs.length = ([] : List (PCDNode n b G1 G2)).length := rfl
    exact .mk htask hlength (by simp) rfl hout
  obtain ⟨s', hsteps', hdone⟩ := exists_steps_done hinv hstart
  have hroot := hdone 0 v hvalue
  have hasked := asked_one (hsteps'.invariant hinv).askedOnce hroot
  have hrequests : requests s' = [.leafReq t] := by
    rw [requests, hasked]
    rfl
  refine ⟨s', hsteps', ⟨?_, ?_, ?_, ?_, ?_⟩⟩
  · rw [hrequests, hone]
    simp only [List.filterMap_cons, leafStart, hzero]
    rfl
  · rw [hrequests]
    intro t' ht'
    cases List.mem_singleton.mp ht'
    exact ⟨block, hget, hblock.trans hget⟩
  · rw [hrequests, hone]
    rfl
  · rw [hrequests]
    intro ns hns
    cases List.mem_singleton.mp hns
  · rw [hzero] at hv hi hj
    refine ⟨v, 1, _, hroot, provePar_one hone hv, UInt64.toNat.inj hi, by rw [hj, hone], ?_⟩
    rw [hone]
    exact .leaf hv

/-- A trace of more blocks is never proved. -/
theorem not_provesDistributed (hstart : tr.start = 0) (hlen : tr.blocks.length < 2 ^ 64) {m : ℕ}
    (hm : tr.blocks.length + 1 = 2 ^ (m + 2)) : ¬ ProvesDistributed prover tr := by
  rintro ⟨fuel, tasks, root, hspawn, hruns⟩
  obtain ⟨s, hsteps, hcomplete⟩ := (hruns 1 1 Nat.one_pos Nat.one_pos).2 .initial .refl
  obtain ⟨v, fuel, calls, hdone, -⟩ := hcomplete.root
  exact (rightNode_manageProof hspawn hm).no_value hlen hstart v
    (hsteps.invariant_of_initial.matched.done root v hdone)

/-- **Distributed proving is local proving exactly for a trace of one block.**  For more, the task
of the rightmost node asks for the block after the last one and panics. -/
theorem manage_proof_iff (hn : 2 ^ 64 ≤ n) (prover : BlockProver c P) (tr : Trace P)
    (hlen : tr.blocks.length < 2 ^ 64) {m : ℕ} (hm : tr.blocks.length + 1 = 2 ^ m)
    (h : Provable tr) : ProvesDistributed prover tr ↔ tr.blocks.length = 1 := by
  constructor
  · intro hproves
    have hpos := List.length_pos_iff.mpr h.blocks
    cases m with
    | zero =>
        rw [pow_zero] at hm
        omega
    | succ m =>
        cases m with
        | zero =>
            rw [zero_add, pow_one] at hm
            omega
        | succ m => exact absurd hproves (not_provesDistributed h.start hlen hm)
  · exact provesDistributed_one hn h

end Results

section Example

open Bn254

/-- A trace of three blocks is not proved. -/
theorem three_blocks_not_proved :
    ¬ ProvesDistributed sumProver ⟨1, 0, List.replicate 3 (zeroBlock 1)⟩ :=
  not_provesDistributed (m := 0) rfl (by norm_num) rfl

/-- A trace of one block is proved. -/
theorem one_block_proved : ProvesDistributed sumProver ⟨1, 0, [zeroBlock 1]⟩ := by
  apply (manage_proof_iff (by norm_num [fr]) sumProver ⟨1, 0, [zeroBlock 1]⟩ (by norm_num)
    (m := 1) rfl ?_).mpr rfl
  refine ⟨rfl, List.cons_ne_nil _ _, fun i block hget => ?_⟩
  obtain rfl := List.mem_singleton.mp (List.mem_of_getElem? hget)
  exact List.cons_ne_nil _ _

end Example

end NexusVm.Network
