import NexusVm.Network.Progress

/-!
# Progress accounting

Each node task of a tree counts two nodes, one for each of its children, so that a tree never counts
more than its blocks but one.  The task of the rightmost leaf's parent counts and then panics: no
tree is ever finished.

A history is any order in which programs are submitted and tasks start, are answered or fail.  The
count is right while each program is submitted for the first time; a second submission counts on
the entry of the first.  Workers are seen by their answers only, and how long a task waits is not
treated.
-/

namespace NexusVm.Network

open Nova Nova.Cyclefold Nova.Circuits Nova.Circuits.Pcd NexusVm.Prover
open Concurrent.Requests (Task)

section Tasks

variable {n b : ℕ} {G1 G2 P : Type} {tr : Trace P}
  {tasks : List (Task (PcdMsg n b G1 G2 P) (PCDNode n b G1 G2))}

theorem length_pairTasks (v : List ℕ) :
    (pairTasks tr v : List (Task (PcdMsg n b G1 G2 P) (PCDNode n b G1 G2))).length =
      v.length / 2 := by
  induction v using pairTasks.induct with
  | case1 l r v ih =>
      rw [pairTasks, List.length_cons, ih, List.length_cons, List.length_cons]
      omega
  | case2 v hv =>
      rw [pairTasks.eq_2 tr v hv, List.length_nil]
      cases v with
      | nil => rfl
      | cons l v =>
          cases v with
          | nil => simp
          | cons r v => exact (hv l r v rfl).elim

/-- The loop adds one task fewer than there are handles. -/
theorem exists_append_of_spawnLevels {fuel root m : ℕ} {v : List ℕ}
    {out : List (Task (PcdMsg n b G1 G2 P) (PCDNode n b G1 G2))}
    (h : spawnLevels tr fuel tasks v = some (out, root)) (hv : v.length = 2 ^ m) :
    ∃ more, out = tasks ++ more ∧ more.length + 1 = 2 ^ m := by
  induction fuel generalizing tasks v m with
  | zero => cases h
  | succ fuel ih =>
      cases m with
      | zero =>
          obtain ⟨handle, rfl⟩ := List.length_eq_one_iff.mp hv
          cases h
          exact ⟨[], (List.append_nil _).symm, rfl⟩
      | succ m =>
          have hpos := Nat.two_pow_pos m
          rw [pow_succ] at hv
          rw [spawnLevels_succ (by omega)] at h
          have hhalf : v.length / 2 = 2 ^ m := by omega
          rw [hhalf] at h
          obtain ⟨more, rfl, hmore⟩ := ih h List.length_range'
          refine ⟨pairTasks tr v ++ more, List.append_assoc _ _ _, ?_⟩
          rw [List.length_append, length_pairTasks, hhalf, pow_succ]
          omega

/-- A task that waits for others. -/
def IsNode (tasks : List (Task (PcdMsg n b G1 G2 P) (PCDNode n b G1 G2))) (h : ℕ) : Prop :=
  ∃ task, tasks[h]? = some task ∧ task.needs ≠ []

/-- A traced program has `2 ^ m - 1` blocks, at least three. -/
theorem Traced.length (h : Traced tr) : ∃ m, tr.blocks.length + 1 = 2 ^ (m + 2) := by
  have hpos : 0 < tr.blocks.length := List.length_pos_iff.mpr h.blocks
  obtain ⟨hmany, m, hm⟩ := (nextPowerOfTwo_eq_succ_iff hpos).mp h.stops
  have hm2 : 2 ≤ m := by
    by_contra hlt
    have hle : 2 ^ m ≤ 2 ^ 1 := Nat.pow_le_pow_right Nat.two_pos (by omega)
    omega
  exact ⟨m - 2, by rw [hm, Nat.sub_add_cancel hm2]⟩

/-- The nodes of a tree are after its leaves, half as many as there are blocks. -/
theorem isNode_of_manageProof {fuel root : ℕ} (htraced : Traced tr)
    (h : manageProof fuel tr = some (tasks, root)) {handle : ℕ} (hnode : IsNode tasks handle) :
    handle ∈ Finset.Ico ((tr.blocks.length + 1) / 2) tr.blocks.length := by
  obtain ⟨m, hm⟩ := htraced.length
  have hsplit : (tr.splitBy 2).length = 2 ^ (m + 1) := by
    rw [Trace.splitBy, List.length_map, List.length_range, pow_succ]
    rw [pow_add] at hm
    omega
  obtain ⟨more, rfl, hmore⟩ := exists_append_of_spawnLevels (m := m + 1) h (by
    rw [List.length_range, List.length_map, hsplit])
  obtain ⟨task, htask, hne⟩ := hnode
  rw [pow_add] at hm
  rw [pow_succ] at hmore hsplit
  rw [Finset.mem_Ico]
  by_cases hlt : handle < ((tr.splitBy 2).map
      (leafTask : Trace P → Task (PcdMsg n b G1 G2 P) (PCDNode n b G1 G2))).length
  · rw [List.getElem?_append_left hlt, List.getElem?_map] at htask
    obtain ⟨t, -, rfl⟩ := Option.map_eq_some_iff.mp htask
    exact absurd rfl hne
  · have hbound := (List.getElem?_eq_some_iff.mp htask).1
    rw [List.length_append] at hbound
    rw [List.length_map] at hlt hbound
    omega

variable {sub : Submission n b G1 G2 P}

/-- The node tasks that have left their first state. -/
def started (sub : Submission n b G1 G2 P) : Set ℕ :=
  {h | IsNode sub.tasks h ∧ ¬sub.states h = .idle}

theorem started_finite (sub : Submission n b G1 G2 P) : (started sub).Finite := by
  apply (Set.finite_lt_nat sub.tasks.length).subset
  rintro h ⟨⟨task, htask, -⟩, -⟩
  exact (List.getElem?_eq_some_iff.mp htask).1

variable {st : TaskState n b G1 G2 P}

variable {h : ℕ}

/-- Tasks do not go back to their first state. -/
theorem started_subset_update (hst : ¬st = .idle) :
    started sub ⊆ started (sub.setState h st) := by
  rintro k ⟨hnode, hk⟩
  refine ⟨hnode, ?_⟩
  by_cases heq : k = h
  · subst heq
    rwa [Submission.states_setState_self]
  · rwa [Submission.states_setState_ne _ heq]

theorem ncard_started_mono (hst : ¬st = .idle) :
    (started sub).ncard ≤
      (started (sub.setState h st)).ncard :=
  Set.ncard_le_ncard (started_subset_update hst) (started_finite _)

/-- A node task that starts is one more. -/
theorem ncard_started_succ (hnode : IsNode sub.tasks h) (hidle : sub.states h = .idle)
    (hst : ¬st = .idle) :
    (started sub).ncard + 1 ≤
      (started (sub.setState h st)).ncard := by
  have hnew : h ∉ started sub := fun hmem => hmem.2 hidle
  rw [← Set.ncard_insert_of_notMem hnew (started_finite _)]
  apply Set.ncard_le_ncard ?_ (started_finite _)
  apply Set.insert_subset ?_ (started_subset_update hst)
  refine ⟨hnode, ?_⟩
  rwa [Submission.states_setState_self]

/-- A tree counts at most all blocks but one. -/
theorem ncard_started_le {fuel : ℕ} (htraced : Traced sub.trace)
    (h : manageProof fuel sub.trace = some (sub.tasks, sub.root)) :
    2 * (started sub).ncard + 1 ≤ sub.trace.blocks.length := by
  obtain ⟨m, hm⟩ := htraced.length
  have hsubset : started sub ⊆
      ↑(Finset.Ico ((sub.trace.blocks.length + 1) / 2) sub.trace.blocks.length) :=
    fun handle hmem => isNode_of_manageProof htraced h hmem.1
  have hle := Set.ncard_le_ncard hsubset (Finset.finite_toSet _)
  rw [Set.ncard_coe_finset, Nat.card_Ico] at hle
  have hpos := Nat.two_pow_pos m
  rw [pow_add] at hm
  omega

/-- **The entry of a submission**: two nodes for each node task that has started, no proof. -/
structure Entry (proofs : String → Option Proof) (sub : Submission n b G1 G2 P) : Prop where
  entry : ∃ p, proofs sub.hash = some p ∧ p.totalNodes.toNat + 1 = sub.trace.blocks.length ∧
    p.completeNodes.toNat ≤ 2 * (started sub).ncard ∧ p.proof = none

theorem Entry.setState {proofs : String → Option Proof} (hentry : Entry proofs sub)
    (hst : ¬st = .idle) : Entry proofs (sub.setState h st) := by
  obtain ⟨p, hp, htotal, hcomplete, hproof⟩ := hentry.entry
  have hmono : (started sub).ncard ≤ (started (sub.setState h st)).ncard :=
    ncard_started_mono hst
  exact ⟨p, hp, htotal, by omega, hproof⟩

end Tasks

/-! ## One submission and the database -/

section Invariant

variable {n b : ℕ} {G1 G2 PP1 PP2 P : Type} [Fact n.Prime] [Fact b.Prime] [AddCommGroup G1]
  [Module (ZMod n) G1] [AddCommGroup G2] [Module (ZMod b) G2] {c : Setting n b G1 G2 PP1 PP2}
  {B : Build} {prover : BlockProver c P}
  {verifyAndEncode : PCDNode n b G1 G2 → Option (List UInt8)} {sub sub' : Submission n b G1 G2 P}

variable (prover) in
/-- **The tasks of a submission**: leaves have what the workers prove of them, and no node of the
right edge makes a request. -/
structure TreeInv (sub : Submission n b G1 G2 P) : Prop where
  spawned : ∃ fuel, manageProof fuel sub.trace = some (sub.tasks, sub.root)
  traced : Traced sub.trace
  short : sub.trace.blocks.length < 2 ^ 32
  asked : ∀ {h : ℕ} {t : Trace P} {req : PcdMsg n b G1 G2 P},
    sub.tasks[h]? = some (leafTask t) → sub.states h = .asked req → req = .leafReq t
  done : ∀ {h : ℕ} {t : Trace P} {v : PCDNode n b G1 G2},
    sub.tasks[h]? = some (leafTask t) → sub.states h = .done v → proveLeaf prover t = .ok v
  right : ∀ {h : ℕ}, RightNode sub.trace sub.tasks h →
    sub.states h = .idle ∨ sub.states h = .panicked
  final : sub.final = .waiting ∨ sub.final = .panicked

variable {st : TaskState n b G1 G2 P}

/-- A new state of a task that is not the node of a leaf, or a request and an answer as they should
be, keeps the invariant. -/
theorem TreeInv.update (hinv : TreeInv prover sub) {h : ℕ}
    (hasked : ∀ {t req}, sub.tasks[h]? = some (leafTask t) → st = .asked req → req = .leafReq t)
    (hdone : ∀ {t v}, sub.tasks[h]? = some (leafTask t) → st = .done v → proveLeaf prover t = .ok v)
    (hright : RightNode sub.trace sub.tasks h → st = .idle ∨ st = .panicked) :
    TreeInv prover (sub.setState h st) where
  spawned := hinv.spawned
  traced := hinv.traced
  short := hinv.short
  asked {k t req} htask hk := by
    by_cases heq : k = h
    · subst heq
      exact hasked htask (by rwa [Submission.states_setState_self] at hk)
    · exact hinv.asked htask (by rwa [Submission.states_setState_ne _ heq] at hk)
  done {k t v} htask hk := by
    by_cases heq : k = h
    · subst heq
      exact hdone htask (by rwa [Submission.states_setState_self] at hk)
    · exact hinv.done htask (by rwa [Submission.states_setState_ne _ heq] at hk)
  right {k} hk := by
    by_cases heq : k = h
    · subst heq
      rw [Submission.states_setState_self]
      exact hright hk
    · rw [Submission.states_setState_ne _ heq]
      exact hinv.right hk
  final := hinv.final

/-- A node of the right edge has no request to make: its right child ends with the last block. -/
theorem TreeInv.request_eq_none (hinv : TreeInv prover sub) {h : ℕ}
    {task : Task (PcdMsg n b G1 G2 P) (PCDNode n b G1 G2)} {results : List (PCDNode n b G1 G2)}
    (htask : sub.tasks[h]? = some task) (hneeds : task.needs.map sub.states = results.map .done)
    (hright : RightNode sub.trace sub.tasks h) : task.request results = none := by
  obtain ⟨l, r, hnode, hedge⟩ := hright
  rw [htask, Option.some.injEq] at hnode
  subst hnode
  have hlen : results.length = 2 := by
    have hmap := congrArg List.length hneeds
    rw [List.length_map, List.length_map] at hmap
    exact hmap.symm
  obtain ⟨vl, vr, rfl⟩ := List.length_eq_two.mp hlen
  have hr : sub.states r = .done vr := by
    simp only [nodeTask, List.map_cons, List.map_nil, List.cons.injEq] at hneeds
    exact hneeds.2.1
  cases hedge with
  | @leaf _ t hleaf hlast =>
      have hget : sub.trace.get vr.j.toNat = none := by
        have hshort := hinv.short
        have hcast : (UInt64.ofNat t.start).toNat = t.start :=
          UInt64.toNat_ofNat_of_lt (show t.start < 2 ^ 64 by omega)
        have hj : vr.j.toNat = sub.trace.blocks.length := by
          rw [(proveLeaf_ok (hinv.done hleaf hr)).2.1, UInt64.toNat_add, hcast, UInt64.toNat_one,
            hlast, Nat.mod_eq_of_lt (by omega)]
        rw [Trace.get, Trace.block_of_start hinv.traced.start, hj,
          List.getElem?_eq_none (le_refl _)]
        rfl
      have hrequest :
        (nodeTask sub.trace l r : Task (PcdMsg n b G1 G2 P) (PCDNode n b G1 G2)).request
          [vl, vr] = ((sub.trace.get vl.j.toNat).bind fun ltr =>
            (sub.trace.get vr.j.toNat).bind fun rtr => some (.nodeReq [(vl, ltr), (vr, rtr)])) :=
        rfl
      rw [hrequest, hget]
      cases sub.trace.get vl.j.toNat <;> rfl
  | @node _ l' r' hchild hedge' =>
      rcases hinv.right ⟨l', r', hchild, hedge'⟩ with hstate | hstate
      · rw [hstate] at hr
        cases hr
      · rw [hstate] at hr
        cases hr

variable {node : PCDNode n b G1 G2}

/-- The root is on the right edge, so no proof is ever counted. -/
theorem TreeInv.root_ne_done (hinv : TreeInv prover sub) :
    ¬sub.states sub.root = .done node := by
  intro hroot
  obtain ⟨fuel, hspawn⟩ := hinv.spawned
  obtain ⟨m, hm⟩ := hinv.traced.length
  rcases hinv.right (rightNode_manageProof hspawn hm) with h | h
  · rw [h] at hroot
    cases hroot
  · rw [h] at hroot
    cases hroot

theorem TreeInv.final_ne_counted (hinv : TreeInv prover sub) :
    ¬sub.final = .counted node := by
  intro hfinal
  rcases hinv.final with h | h
  · rw [h] at hfinal
    cases hfinal
  · rw [h] at hfinal
    cases hfinal

variable {proofs : String → Option Proof}

theorem updateComplete_eq {hash : String} {p : Proof} {k : U32} (h : proofs hash = some p)
    (hfit : p.completeNodes.toNat + k.toNat < 2 ^ 32) :
    DB.updateComplete B (some proofs) hash k =
      some (Function.update proofs hash
        (some { p with completeNodes := p.completeNodes + k })) := by
  have hadd : B.add p.completeNodes k = .ok (p.completeNodes + k) := by
    rw [Build.add, if_neg]
    intro hover
    rw [Bool.and_eq_true, decide_eq_true_eq] at hover
    exact absurd hfit (not_lt.mpr hover.2)
  simp only [DB.updateComplete, Option.bind_some, h, hadd]

/-- A node task that starts has room for two more nodes. -/
theorem Entry.count (hentry : Entry proofs sub) (hinv : TreeInv prover sub) {h : ℕ}
    (hnode : IsNode sub.tasks h) (hidle : sub.states h = .idle) (hst : ¬st = .idle) :
    ∃ p, DB.updateComplete B (some proofs) sub.hash 2 =
        some (Function.update proofs sub.hash (some p)) ∧
      Entry (Function.update proofs sub.hash (some p)) (sub.setState h st) := by
  obtain ⟨p, hp, htotal, hcomplete, hproof⟩ := hentry.entry
  obtain ⟨fuel, hspawn⟩ := hinv.spawned
  have hsucc := ncard_started_succ hnode hidle hst
  have hle : 2 * (started (sub.setState h st)).ncard + 1 ≤ sub.trace.blocks.length :=
    ncard_started_le hinv.traced hspawn
  have hshort := hinv.short
  have hfit : p.completeNodes.toNat + (2 : U32).toNat < 2 ^ 32 := by
    show p.completeNodes.toNat + 2 < 2 ^ 32
    omega
  refine ⟨_, updateComplete_eq hp hfit, ⟨_, Function.update_self .., htotal, ?_, hproof⟩⟩
  dsimp only
  rw [BitVec.toNat_add, Nat.mod_eq_of_lt hfit]
  show p.completeNodes.toNat + 2 ≤ _
  omega

/-- **A step of a submission** keeps its invariants and changes its own entry only. -/
theorem SubStep.inv {db' : DB} (hstep : SubStep B prover verifyAndEncode (some proofs) sub db' sub')
    (hinv : TreeInv prover sub) (hentry : Entry proofs sub) :
    TreeInv prover sub' ∧ sub'.hash = sub.hash ∧ ∃ proofs', db' = some proofs' ∧
      Entry proofs' sub' ∧ ∀ hash, hash ≠ sub.hash → proofs' hash = proofs hash := by
  cases hstep with
  | @leaf h task req htask hstate hneeds hreq =>
      refine ⟨hinv.update ?_ ?_ ?_, rfl, proofs, rfl, hentry.setState (by simp), fun _ _ => rfl⟩
      · intro t req' hleaf heq
        cases heq
        rw [htask, Option.some.injEq] at hleaf
        subst hleaf
        exact (Option.some.inj hreq).symm
      · exact fun _ h => by cases h
      · rintro ⟨l, r, hnode, -⟩
        rw [htask, Option.some.injEq] at hnode
        subst hnode
        cases hneeds
  | @node h task results htask hstate hne hneeds =>
      have hleaf : ∀ {t : Trace P}, ¬sub.tasks[h]? = some (leafTask t) := by
        intro t hleaf
        rw [htask, Option.some.injEq] at hleaf
        subst hleaf
        exact hne rfl
      have hturn : ∀ st : TaskState n b G1 G2 P, ¬st = .idle →
          (RightNode sub.trace sub.tasks h → st = .panicked) →
          let db' := DB.updateComplete B (some proofs) sub.hash 2
          let sub' := sub.setState h (db'.andThen st .panicked)
          TreeInv prover sub' ∧ sub'.hash = sub.hash ∧ ∃ proofs', db' = some proofs' ∧
            Entry proofs' sub' ∧ ∀ hash, hash ≠ sub.hash → proofs' hash = proofs hash := by
        intro st hst hright
        obtain ⟨p, hdb, hentry'⟩ := hentry.count (B := B) hinv ⟨task, htask, hne⟩ hstate hst
        dsimp only
        rw [hdb]
        exact ⟨hinv.update (fun h => absurd h hleaf) (fun h => absurd h hleaf)
          fun hr => .inr (hright hr), rfl, _, rfl, hentry',
          fun hash hother => Function.update_of_ne hother ..⟩
      refine hturn _ ?_ fun hright => ?_
      · cases task.request results <;> simp
      · rw [hinv.request_eq_none htask hneeds hright]
  | @childPanicked h l task htask hstate hl hchild =>
      exact ⟨hinv.update (fun _ h => by cases h) (fun _ h => by cases h) fun _ => .inr rfl, rfl,
        proofs, rfl, hentry.setState (by simp), fun _ _ => rfl⟩
  | @answer h req node hstate hnode =>
      refine ⟨hinv.update (fun _ h => by cases h) ?_ ?_, rfl, proofs, rfl, hentry.setState (by simp),
        fun _ _ => rfl⟩
      · intro t v htask heq
        cases heq
        rw [hinv.asked htask hstate] at hnode
        exact hnode
      · intro hright
        rcases hinv.right hright with h | h
        · rw [h] at hstate
          cases hstate
        · rw [h] at hstate
          cases hstate
  | @fail h req hstate =>
      exact ⟨hinv.update (fun _ h => by cases h) (fun _ h => by cases h) fun _ => .inr rfl, rfl,
        proofs, rfl, hentry.setState (by simp), fun _ _ => rfl⟩
  | count hfinal hroot => exact absurd hroot hinv.root_ne_done
  | rootPanicked hfinal hroot =>
      exact ⟨{ hinv with final := .inr rfl }, rfl, proofs, rfl, ⟨hentry.entry⟩, fun _ _ => rfl⟩
  | store hfinal hbytes => exact absurd hfinal hinv.final_ne_counted
  | reject hfinal hbytes => exact absurd hfinal hinv.final_ne_counted

/-! ## All submissions and a program submitted twice -/

variable (prover) in
/-- **The node**: each entry of the database belongs to one submission. -/
def NodeInv (s : NodeState n b G1 G2 P) : Prop :=
  ∃ proofs, s.db = some proofs ∧ (s.submissions.map (·.hash)).Nodup ∧
    (∀ sub ∈ s.submissions, TreeInv prover sub ∧ Entry proofs sub) ∧
      ∀ hash p, proofs hash = some p → ∃ sub ∈ s.submissions, sub.hash = hash

theorem nodeInv_initial : NodeInv prover (.initial : NodeState n b G1 G2 P) :=
  ⟨fun _ => none, rfl, List.nodup_nil, fun _ h => absurd h List.not_mem_nil, nofun⟩

variable {s : NodeState n b G1 G2 P}

/-- A submission with a new hash. -/
theorem NodeInv.submit {hash : String} {tr : Trace P} {total : U32} {fuel root : ℕ}
    {tasks : List (Task (PcdMsg n b G1 G2 P) (PCDNode n b G1 G2))} (hinv : NodeInv prover s)
    (hdb : s.db = some proofs) (htraced : Traced tr)
    (htotal : B.sub (BitVec.ofNat 32 tr.blocks.length) 1 = .ok total)
    (hspawn : manageProof fuel tr = some (tasks, root)) (hnew : proofs hash = none)
    (hshort : tr.blocks.length < 2 ^ 32) :
    NodeInv prover ⟨some (DB.newProof proofs hash total),
      s.submissions ++ [⟨hash, tr, tasks, root, fun _ => .idle, .waiting⟩]⟩ := by
  obtain ⟨proofs₁, hdb₁, hnodup, hsubs, hall⟩ := hinv
  rw [hdb, Option.some.injEq] at hdb₁
  subst hdb₁
  have hother : ∀ sub ∈ s.submissions, sub.hash ≠ hash := by
    intro sub hsub heq
    obtain ⟨p, hp, -⟩ := (hsubs sub hsub).2.entry
    rw [heq, hnew] at hp
    cases hp
  have hentry : DB.newProof proofs hash total hash = some ⟨hash, total, 0, none⟩ := by
    rw [DB.newProof, Function.update_self, hnew]
    rfl
  refine ⟨_, rfl, ?_, ?_, ?_⟩
  · rw [List.map_append, List.nodup_append]
    refine ⟨hnodup, List.nodup_singleton _, ?_⟩
    intro a ha b hb
    obtain ⟨sub, hsub, rfl⟩ := List.mem_map.mp ha
    rw [List.mem_singleton.mp hb]
    exact hother sub hsub
  · intro sub hsub
    rcases List.mem_append.mp hsub with hsub | hsub
    · refine ⟨(hsubs sub hsub).1, ⟨?_⟩⟩
      rw [DB.newProof, Function.update_of_ne (hother sub hsub)]
      exact (hsubs sub hsub).2.entry
    · cases List.mem_singleton.mp hsub
      have hpos : 0 < tr.blocks.length := List.length_pos_iff.mpr htraced.blocks
      have hlen : (BitVec.ofNat 32 tr.blocks.length).toNat = tr.blocks.length := by
        rw [BitVec.toNat_ofNat, Nat.mod_eq_of_lt hshort]
      have hsum : total.toNat + 1 = tr.blocks.length := by
        rw [Build.sub, if_neg, Except.ok.injEq] at htotal
        · rw [← htotal, BitVec.toNat_sub, hlen]
          show (2 ^ 32 - 1 + tr.blocks.length) % 2 ^ 32 + 1 = _
          omega
        · intro hunder
          rw [Bool.and_eq_true, decide_eq_true_eq, hlen] at hunder
          exact absurd hpos (not_lt.mpr (Nat.lt_one_iff.mp hunder.2).le)
      exact ⟨⟨⟨fuel, hspawn⟩, htraced, hshort, nofun, nofun, fun _ => .inl rfl, .inl rfl⟩,
        ⟨_, hentry, hsum, Nat.zero_le _, rfl⟩⟩
  · intro hash' p hp
    by_cases heq : hash' = hash
    · exact ⟨_, List.mem_append_right _ List.mem_cons_self, heq.symm⟩
    · rw [DB.newProof, Function.update_of_ne heq] at hp
      obtain ⟨sub, hsub, hhash⟩ := hall hash' p hp
      exact ⟨sub, List.mem_append_left _ hsub, hhash⟩

/-- A task of one of the submissions. -/
theorem NodeInv.task {i : ℕ} {db' : DB} (hinv : NodeInv prover s)
    (hsub : s.submissions[i]? = some sub)
    (hstep : SubStep B prover verifyAndEncode s.db sub db' sub') :
    NodeInv prover ⟨db', s.submissions.set i sub'⟩ := by
  obtain ⟨proofs, hdb, hnodup, hsubs, hall⟩ := hinv
  rw [hdb] at hstep
  obtain ⟨htree, hentry⟩ := hsubs sub (List.mem_of_getElem? hsub)
  obtain ⟨htree', hhash, proofs', rfl, hentry', hframe⟩ := hstep.inv htree hentry
  obtain ⟨hi, hsub'⟩ := List.getElem?_eq_some_iff.mp hsub
  have hmap : (s.submissions.set i sub').map (·.hash) = s.submissions.map (·.hash) := by
    have hi' : i < (s.submissions.map (·.hash)).length := by rwa [List.length_map]
    have hget : sub.hash = (s.submissions.map (·.hash))[i] := by
      rw [List.getElem_map, hsub']
    rw [List.map_set, hhash, hget, List.set_getElem_self]
  have hmem : sub' ∈ s.submissions.set i sub' := List.mem_set hi _
  refine ⟨proofs', rfl, by rwa [hmap], ?_, ?_⟩
  · intro other hother
    by_cases heq : other.hash = sub.hash
    · have hsame : other = sub' := by
        apply List.inj_on_of_nodup_map (by rwa [hmap]) hother hmem
        rw [heq, hhash]
      subst hsame
      exact ⟨htree', hentry'⟩
    · rcases List.mem_or_eq_of_mem_set hother with hold | rfl
      · refine ⟨(hsubs other hold).1, ⟨?_⟩⟩
        rw [hframe _ heq]
        exact (hsubs other hold).2.entry
      · exact absurd hhash heq
  · intro hash p hp
    have hin : hash ∈ s.submissions.map (·.hash) := by
      by_cases heq : hash = sub.hash
      · rw [heq]
        exact List.mem_map_of_mem (List.mem_of_getElem? hsub)
      · rw [hframe hash heq] at hp
        obtain ⟨other, hother, rfl⟩ := hall hash p hp
        exact List.mem_map_of_mem hother
    rw [← hmap] at hin
    exact List.mem_map.mp hin

/-- What the invariant says of the database. -/
theorem NodeInv.accounted (hinv : NodeInv prover s) : Accounted s := by
  obtain ⟨proofs, hdb, -, hsubs, hall⟩ := hinv
  refine ⟨proofs, hdb, fun hash p hp => ?_⟩
  obtain ⟨sub, hsub, rfl⟩ := hall hash p hp
  obtain ⟨htree, hentry⟩ := hsubs sub hsub
  obtain ⟨p', hp', htotal, hcomplete, hproof⟩ := hentry.entry
  rw [hp, Option.some.injEq] at hp'
  subst hp'
  obtain ⟨fuel, hspawn⟩ := htree.spawned
  have hle := ncard_started_le htree.traced hspawn
  refine ⟨by omega, fun hsome => ?_⟩
  rw [hproof] at hsome
  cases hsome

/-- **Progress is accounted for**, in every state of a run in which every program is submitted
once. -/
theorem progress_accounted
    (hrun : Relation.ReflTransGen (FirstTimeStep B prover verifyAndEncode) .initial s) :
    Accounted s := by
  suffices hinv : NodeInv prover s from hinv.accounted
  induction hrun with
  | refl => exact nodeInv_initial
  | tail _ hstep ih =>
      obtain ⟨event, hfirst, hstep⟩ := hstep
      cases hstep with
      | submit hdb htraced htotal hspawn =>
          obtain ⟨hnew, hshort⟩ := hfirst _ _ rfl
          exact ih.submit hdb htraced htotal hspawn (hnew _ hdb) hshort
      | task hsub hstep => exact ih.task hsub hstep

end Invariant

section Resubmitted

open Bn254

variable {n b : ℕ} {G1 G2 PP1 PP2 P : Type} [Fact n.Prime] [Fact b.Prime] [AddCommGroup G1]
  [Module (ZMod n) G1] [AddCommGroup G2] [Module (ZMod b) G2] {c : Setting n b G1 G2 PP1 PP2}
  {B : Build} {prover : BlockProver c P}
  {verifyAndEncode : PCDNode n b G1 G2 → Option (List UInt8)}

variable (B prover verifyAndEncode) in
/-- Any number of steps of a submission. -/
abbrev SubSteps : DB × Submission n b G1 G2 P → DB × Submission n b G1 G2 P → Prop :=
  Relation.ReflTransGen fun x y => SubStep B prover verifyAndEncode x.1 x.2 y.1 y.2

variable {out : DB × Submission n b G1 G2 P}

theorem SubSteps.head {db db' : DB} {sub sub' : Submission n b G1 G2 P}
    (hstep : SubStep B prover verifyAndEncode db sub db' sub')
    (hrest : SubSteps B prover verifyAndEncode (db', sub') out) :
    SubSteps B prover verifyAndEncode (db, sub) out :=
  Relation.ReflTransGen.head hstep hrest

/-- They are steps of the node. -/
theorem steps_of_subSteps {s : NodeState n b G1 G2 P} {i : ℕ} {sub : Submission n b G1 G2 P}
    (hsub : s.submissions[i]? = some sub)
    (hsteps : SubSteps B prover verifyAndEncode (s.db, sub) out) :
    Relation.ReflTransGen (FirstTimeStep B prover verifyAndEncode) s
      ⟨out.1, s.submissions.set i out.2⟩ := by
  obtain ⟨hi, hget⟩ := List.getElem?_eq_some_iff.mp hsub
  induction hsteps with
  | refl =>
      dsimp only
      rw [← hget, List.set_getElem_self]
  | @tail x y _ hstep ih =>
      refine ih.tail ⟨none, nofun, ?_⟩
      have hset : s.submissions.set i y.2 = (s.submissions.set i x.2).set i y.2 := by
        rw [List.set_set]
      rw [hset]
      exact .task (s := ⟨x.1, s.submissions.set i x.2⟩) (List.getElem?_set_self hi) hstep

/-- The trace of a program that stops within three steps. -/
theorem traced_unimp : Traced unimpTrace :=
  have ⟨_, htrace⟩ := trace_unimp
  traced_of_trace htrace

/-- Workers can prove the leaves. -/
theorem exists_proveLeaf {t : Trace (UncheckedMemory 7)} (ht : t ∈ unimpTrace.splitBy 2) :
    ∃ v, proveLeaf sumProver t = .ok v := by
  obtain ⟨hlt, hblock⟩ := Trace.block_of_splitBy Nat.two_pos rfl ht
  have hfr : 2 ^ 64 ≤ fr := by norm_num [fr]
  have hlen : unimpTrace.blocks.length = 3 := rfl
  obtain ⟨block, hget⟩ := Trace.exists_block rfl hlt
  have hsteps : block.steps ≠ [] := by
    obtain ⟨index, -, rfl⟩ := List.mem_map.mp ht
    obtain ⟨_, htrace⟩ := trace_unimp
    rw [Trace.block_of_start rfl, Nat.mul_comm] at hget
    exact (provable_trace Nat.one_pos htrace).steps index block hget
  obtain ⟨v, hv, -⟩ := (proveParLeafStep_iff sumProver hfr
    (show isPowerOfTwo (unimpTrace.blocks.length + 1) = true from rfl) (i := t.start)
    (by omega)).mpr ⟨block, hget, hsteps⟩
  exact ⟨v, (proveLeaf_eq hfr rfl (by omega) hblock).trans hv⟩

/-- Its tasks: two leaves and their parent. -/
theorem manageProof_unimp : ∃ t₀ ∈ unimpTrace.splitBy 2, ∃ t₁ ∈ unimpTrace.splitBy 2,
    manageProof 2 unimpTrace =
      some ([leafTask t₀, leafTask t₁, (nodeTask unimpTrace 0 1 :
        Task (PcdMsg fr fq Unit Unit (UncheckedMemory 7)) (PCDNode fr fq Unit Unit))], 2) :=
  ⟨_, List.mem_cons_self, _, List.mem_cons_of_mem _ List.mem_cons_self, rfl⟩

/-- **A submission of the program counts two nodes**, whatever its entry says. -/
theorem exists_counted {s : NodeState fr fq Unit Unit (UncheckedMemory 7)} {B : Build}
    (verifyAndEncode : PCDNode fr fq Unit Unit → Option (List UInt8))
    {proofs : String → Option Proof} (hdb : s.db = some proofs) (hash : String)
    (hfit : ((proofs hash).getD .default).completeNodes.toNat + 2 < 2 ^ 32) :
    ∃ s₁ s₂ proofs₂, NodeStep B sumProver verifyAndEncode s (some (hash, unimpTrace)) s₁ ∧
      Relation.ReflTransGen (FirstTimeStep B sumProver verifyAndEncode) s₁ s₂ ∧
      s₂.db = some proofs₂ ∧
      proofs₂ hash = some ⟨hash, 2, ((proofs hash).getD .default).completeNodes + 2,
        ((proofs hash).getD .default).proof⟩ := by
  obtain ⟨t₀, ht₀, t₁, ht₁, hspawn⟩ := manageProof_unimp
  obtain ⟨v₀, hv₀⟩ := exists_proveLeaf ht₀
  obtain ⟨v₁, hv₁⟩ := exists_proveLeaf ht₁
  have htotal : B.sub (BitVec.ofNat 32 unimpTrace.blocks.length) 1 = .ok 2 := by
    rcases B with ⟨_ | _⟩ <;> rfl
  have hentry : DB.newProof proofs hash 2 hash =
      some { (proofs hash).getD .default with hash := hash, totalNodes := 2 } :=
    Function.update_self ..
  have hsub : ∃ sub, SubSteps B sumProver verifyAndEncode
      (some (DB.newProof proofs hash 2), ⟨hash, unimpTrace,
        [leafTask t₀, leafTask t₁, nodeTask unimpTrace 0 1], 2, fun _ => .idle, .waiting⟩)
      (DB.updateComplete B (some (DB.newProof proofs hash 2)) hash 2, sub) := by
    -- both leaves ask and are answered, then their parent counts
    constructor
    refine .head (.leaf (h := 0) rfl rfl rfl rfl) ?_
    refine .head (.leaf (h := 1) rfl rfl rfl rfl) ?_
    refine .head (.answer (h := 0) rfl hv₀) ?_
    refine .head (.answer (h := 1) rfl hv₁) ?_
    exact .head (.node (h := 2) rfl rfl (List.cons_ne_nil _ _)
      (show _ = [v₀, v₁].map TaskState.done from rfl)) .refl
  obtain ⟨sub, hsteps⟩ := hsub
  have hrun := steps_of_subSteps (s := ⟨some (DB.newProof proofs hash 2), s.submissions ++ [_]⟩)
    (i := s.submissions.length) List.getElem?_concat_length hsteps
  exact ⟨_, _, _, .submit hdb traced_unimp htotal hspawn, hrun,
    updateComplete_eq hentry hfit, Function.update_self ..⟩

/-- One submission: two nodes are complete, and there are two. -/
theorem progress_accounted_unimp : ∃ (s : NodeState fr fq Unit Unit (UncheckedMemory 7))
    (proofs : String → Option Proof), s.db = some proofs ∧
      proofs "" = some ⟨"", 2, 2, none⟩ ∧ Accounted s := by
  obtain ⟨s₁, s, proofs, hsubmit, hsteps, hdb, hentry⟩ := exists_counted (s := .initial)
    (B := ⟨true⟩) (fun _ => none) rfl "" (by decide)
  have hfirst : FirstTimeStep ⟨true⟩ sumProver (fun _ => none) .initial s₁ := by
    refine ⟨_, fun hash tr heq => ?_, hsubmit⟩
    cases heq
    constructor
    · intro proofs' hproofs
      cases hproofs
      rfl
    · show 3 < 2 ^ 32
      norm_num
  exact ⟨s, proofs, hdb, hentry, progress_accounted (.head hfirst hsteps)⟩

/-- **The same program again**: four nodes are complete, and there are two. -/
theorem accounting_fails : ∃ s : NodeState fr fq Unit Unit (UncheckedMemory 7),
    Relation.ReflTransGen
      (fun s s' => ∃ event, NodeStep ⟨true⟩ sumProver (fun _ => none) s event s') .initial s ∧
      ¬Accounted s := by
  obtain ⟨s₁, s₂, proofs, hsubmit, hsteps, hdb, hentry⟩ := exists_counted (s := .initial)
    (B := ⟨true⟩) (fun _ => none) rfl "" (by decide)
  obtain ⟨s₃, s₄, proofs', hsubmit', hsteps', hdb', hentry'⟩ := exists_counted (B := ⟨true⟩)
    (fun _ => none) hdb "" (by rw [hentry]; decide)
  have hany : ∀ {s s' : NodeState fr fq Unit Unit (UncheckedMemory 7)},
      Relation.ReflTransGen (FirstTimeStep ⟨true⟩ sumProver fun _ => none) s s' →
      Relation.ReflTransGen
        (fun s s' => ∃ event, NodeStep ⟨true⟩ sumProver (fun _ => none) s event s') s s' :=
    Relation.ReflTransGen.mono (fun _ _ ⟨event, _, hstep⟩ => ⟨event, hstep⟩) _ _
  refine ⟨s₄, .head ⟨_, hsubmit⟩ ((hany hsteps).trans (.head ⟨_, hsubmit'⟩ (hany hsteps'))), ?_⟩
  rintro ⟨proofs'', hdb'', haccounted⟩
  rw [hdb', Option.some.injEq] at hdb''
  subst hdb''
  have hle := (haccounted "" _ hentry').1
  rw [hentry] at hle
  exact absurd hle (by decide)

end Resubmitted

end NexusVm.Network
