import NexusVm.Nova.ParallelStuck

/-!
# Failing reducers

Workers only log what the reducer returns.  A task whose call fails never becomes ready,
so the root has no value, nobody sets the stop flag, and `run` waits for it forever.
-/

namespace NexusVm.Nova.ParallelTree

open Concurrent

section Failing

variable {L P Proof E : Type}

/-- The reducer fails on the leaf of a task or on the accumulators of its children. -/
inductive TaskFails (R : FoldReducer L P Proof E) (leaves : List L) : ℕ → Prop
  | leaf {i : ℕ} {l : L} {e : E} (hi : leaves.length - 1 ≤ i)
      (hl : leaves[i - (leaves.length - 1)]? = some l) (he : R.strictToAcc l = .error e) :
      TaskFails R leaves i
  | node {i : ℕ} {a b : P} {e : E} (hi : i < leaves.length - 1)
      (ha : Folded R leaves (2 * i + 1) a) (hb : Folded R leaves (2 * i + 2) b)
      (he : R.foldAccAcc a b = .error e) : TaskFails R leaves i

/-- If the reducer fails for a task then `run` ends with an error, however far the threads
have come, and no task refers to a buffer in the free list. -/
def ParallelTreeFolder.ReportsFailures (F : ParallelTreeFolder L P Proof E) (leaves : List L) :
    Prop :=
  (∃ i, TaskFails F.reducer leaves i) → ∀ c, F.Reachable leaves c →
    (∃ c' e, Steps (F.code leaves) c c' ∧ c'.state.stop = true ∧
      c'.threads .caller = .ret (.returned (.error e))) ∧
    ∀ i b, (c.state.tasks i).bufferId = some b → b ∉ c.state.free

variable {R : FoldReducer L P Proof E} {leaves : List L}

theorem TaskFails.lt {i : ℕ} (h : TaskFails R leaves i) : i < 2 * leaves.length - 1 := by
  cases h with
  | leaf hi hl _ =>
      obtain ⟨hlt, -⟩ := List.getElem?_eq_some_iff.mp hl
      omega
  | node hi _ _ _ => omega

theorem TaskFails.not_folded {i : ℕ} (h : TaskFails R leaves i) (v : P) :
    ¬Folded R leaves i v := by
  intro hv
  cases h with
  | leaf hi hl he =>
      cases hv with
      | leaf _ hl' hok =>
          obtain rfl := Option.some.inj (hl.symm.trans hl')
          rw [he] at hok
          cases hok
      | node hi' _ _ _ => omega
  | node hi ha hb he =>
      cases hv with
      | leaf hi' _ _ => omega
      | node _ ha' hb' hok =>
          rw [ha.unique ha', hb.unique hb', hok] at he
          cases he

/-- A failing task leaves the root without a value. -/
theorem TaskFails.root_not_folded {i : ℕ} (h : TaskFails R leaves i) (v : P) :
    ¬Folded R leaves 0 v := by
  intro hroot
  obtain ⟨w, hw⟩ := hroot.exists_of_root i h.lt
  exact h.not_folded w hw

variable {F : ParallelTreeFolder L P Proof E}

/-- An update that leaves a set stop flag set. -/
def KeepsStop (update : State L P → State L P) : Prop := ∀ s, s.stop = true → (update s).stop = true

theorem callerUpdates_keepsStop : CallerUpdates (KeepsStop (L := L) (P := P)) :=
  ⟨fun _ h => h, fun _ _ _ h => h, fun _ _ h => h, fun _ _ => rfl⟩

/-- Once the stop flag is set the root has a value: the caller, which runs alone, comes to a
round with the root deposited or returns its value. -/
theorem ParallelTreeFolder.Reachable.folded_of_stop (hn : 2 ≤ leaves.length)
    {c : Config (State L P) Thread (Label L P)} (h : F.Reachable leaves c)
    (hstop : c.state.stop = true) : ∃ v, Folded F.reducer leaves 0 v := by
  obtain ⟨-, rs, hI, hsafe⟩ := h.sound hn
  have hkeeps : ∀ update : State L P → State L P, KeepsStop update →
      ∀ s, s.stop = true → (update s).stop = true := fun _ hupdate => hupdate
  obtain ⟨l, s, rs', hpost, ⟨g, hg⟩, hstop'⟩ :=
    (hsafe .caller).exists_post hI (h.caller_all callerUpdates_keepsStop) hkeeps hstop
  cases l with
  | wait =>
      rcases hg.flags.stop hstop' with htoken | ⟨b, v, hroot⟩
      · rw [hpost.2] at htoken
        cases htoken
      · obtain ⟨-, -, -, hfolded⟩ := hg.tree.deposited 0 b v hroot
        exact ⟨v, hfolded⟩
  | returned result =>
      cases result with
      | ok v => exact ⟨v, hpost.1⟩
      | error e => exact hpost.elim
  | _ => exact hpost.elim

/-! ## A single leaf and failures are not reported -/

/-- The tree is a leaf: no node becomes ready and nobody sets the stop flag. -/
def Idle (s : State L P) (_ : Thread → Unit) : Prop := s.stop = false ∧ ∀ w, s.readyQ w = []

/-- A worker only makes leaves, and the caller waits. -/
def SinglePost (leaves : List L) : Thread → Label L P → Unit → Prop
  | .worker _, .alloc _ i, _ => (heapOf leaves).get i = some .leaf
  | .caller, l, _ => l = .wait
  | _, _, _ => True

variable {r : Unit} {t : Thread}

/-- An action that leaves the queues of nodes and the stop flag as they are. -/
theorem safe_idle {α : Type} {f : State L P → α × State L P}
    (hf : ∀ s, (f s).2.stop = s.stop ∧ (f s).2.readyQ = s.readyQ) :
    Safe Idle t (fun _ _ => True) (.atomic f) r := by
  apply safe_action
  intro s rs hI _
  obtain ⟨hstop, hready⟩ := hf s
  refine ⟨(), ⟨?_, fun w => ?_⟩, trivial⟩
  · rw [hstop]
    exact hI.1
  · rw [hready]
    exact hI.2 w

theorem safe_idle_loadStop :
    Safe Idle t (fun stop _ => stop = false) (loadStop : Act L P Bool) r := by
  apply safe_action
  intro s rs hI _
  exact ⟨(), hI, hI.1⟩

theorem safe_idle_popReady (w : ℕ) :
    Safe Idle t (fun o _ => o = none) (popReady w : Act L P (Option ℕ)) r := by
  apply safe_action
  intro s rs hI _
  simp only [hI.2 w]
  exact ⟨(), hI, trivial⟩

theorem heapOf_get_single (hlen : leaves.length = 1) {i : ℕ}
    (hi : (heapOf leaves).get i = some .leaf) : i = 0 := by
  have hpow : leaves.length = 2 ^ Nat.log2 leaves.length := by
    rw [hlen]
    rfl
  by_contra h0
  rw [heapOf_eq hpow, hlen, TaskHeap.get, if_neg (by show ¬i < 2 * 1 - 1; omega)] at hi
  cases hi

theorem safe_idle_release (b : ℕ) :
    Safe Idle t (fun _ _ => True) (release b : Act L P Unit) r :=
  safe_bind (safe_idle fun _ => ⟨rfl, rfl⟩) fun _ _ _ => safe_idle fun _ => ⟨rfl, rfl⟩

theorem safe_idle_claimAndRelease (numBlocks b : ℕ) :
    Safe Idle t (fun _ _ => True) (claimAndRelease numBlocks b : Act L P Unit) r := by
  unfold claimAndRelease
  split
  · exact safe_idle_release _
  · exact safe_ret trivial

theorem safe_idle_compareExchange (i old new : ℕ) :
    Safe Idle t (fun _ _ => True) (compareExchange i old new : Act L P Bool) r := by
  apply safe_idle
  intro s
  split
  · exact ⟨rfl, rfl⟩
  · exact ⟨rfl, rfl⟩

/-- The leaf has no parent that it could make ready. -/
theorem safe_idle_finishLeaf (w b : ℕ) (acc : P) :
    Safe Idle t (fun _ _ => True)
      (finishLeaf (heapOf leaves) F.numBlocks w 0 b acc :
        Act L P (Run (WorkerError E) Unit)) r := by
  unfold finishLeaf
  split
  · exact safe_ret trivial
  · refine safe_bind (safe_idle fun _ => ⟨rfl, rfl⟩) fun _ _ _ => ?_
    refine safe_bind (safe_idle_compareExchange _ _ _) fun ok _ _ => ?_
    cases ok with
    | true => exact safe_ret trivial
    | false => exact safe_bind (safe_idle_claimAndRelease _ _) fun _ _ _ => safe_ret trivial

theorem safe_idle_processLeafInput (w : ℕ) (leaf : L) (b : ℕ) :
    Safe Idle t (fun _ _ => True)
      (processLeafInput (heapOf leaves) F.numBlocks F.reducer w leaf 0 b) r := by
  unfold processLeafInput LeafTask.tryStartProcessing
  simp only [Prog.bind_assoc]
  refine safe_bind (safe_idle fun _ => ⟨rfl, rfl⟩) fun _ _ _ => ?_
  refine safe_bind (safe_idle_compareExchange _ _ _) fun ok _ _ => ?_
  cases ok with
  | true =>
      simp only [if_true, Prog.pure_eq, Prog.ret_bind]
      split
      · refine safe_bind (safe_idle fun _ => ⟨rfl, rfl⟩) fun _ _ _ => ?_
        refine safe_bind (safe_idle fun _ => ⟨rfl, rfl⟩) fun _ _ _ => ?_
        exact safe_bind (safe_idle_claimAndRelease _ _) fun _ _ _ => safe_ret trivial
      · exact safe_idle_finishLeaf w b _
  | false =>
      simp only [Bool.false_eq_true, if_false, Prog.bind_assoc, Prog.pure_eq, Prog.ret_bind]
      refine safe_bind (safe_idle fun _ => ⟨rfl, rfl⟩) fun _ _ _ => ?_
      exact safe_bind (safe_idle_claimAndRelease _ _) fun _ _ _ => safe_ret trivial

theorem safe_idle_popLeaf (w : ℕ) :
    Safe Idle t (fun _ _ => True) (popLeaf w : Act L P (Option (L × ℕ))) r := by
  apply safe_idle
  intro s
  split
  · exact ⟨rfl, rfl⟩
  · exact ⟨rfl, rfl⟩

theorem safe_idle_workerRound (w : ℕ) :
    Safe Idle (.worker w) (SinglePost leaves (.worker w))
      (workerRound (heapOf leaves) F.numBlocks F.reducer w) r := by
  unfold workerRound
  refine safe_bind safe_idle_loadStop ?_
  rintro stop _ rfl
  refine safe_bind (safe_idle_popReady w) ?_
  rintro o _ rfl
  refine safe_bind (safe_idle_popLeaf w) fun o _ _ => ?_
  rcases o with - | ⟨leaf, i⟩
  · exact safe_ret trivial
  · simp only
    split
    · next hget => exact safe_ret hget
    · exact safe_ret trivial

theorem safe_idle_allocRound (hlen : leaves.length = 1) (w : ℕ) (leaf : L) {i : ℕ}
    (hi : (heapOf leaves).get i = some .leaf) :
    Safe Idle (.worker w) (SinglePost leaves (.worker w))
      (allocRound (heapOf leaves) F.numBlocks F.reducer w leaf i) r := by
  obtain rfl := heapOf_get_single hlen hi
  have halloc : Safe Idle (.worker w) (fun _ _ => True) (alloc : Act L P (Option ℕ)) r := by
    apply safe_idle
    intro s
    split
    · exact ⟨rfl, rfl⟩
    · exact ⟨rfl, rfl⟩
  unfold allocRound
  refine safe_bind halloc fun o _ _ => ?_
  cases o with
  | none => exact safe_bind (safe_idle fun _ => ⟨rfl, rfl⟩) fun _ _ _ => safe_ret hi
  | some b =>
      refine safe_bind (safe_idle_processLeafInput w leaf b) fun result _ _ => ?_
      rcases result with (_ | e) | ⟨⟩
      · exact safe_ret trivial
      · exact safe_ret trivial
      · exact safe_ret trivial

theorem safe_idle_producerRound (rest : List L) (i : ℕ) :
    Safe Idle .producer (SinglePost leaves .producer)
      (producerRound (heapOf leaves) F.numCores rest i : Act L P (Label L P)) r := by
  cases rest with
  | nil => exact safe_ret trivial
  | cons leaf rest =>
      have hpush : ∀ x : L × ℕ, ∀ w, Safe Idle .producer (fun _ _ => True)
          (pushLeaf w x : Act L P Bool) r := by
        intro x w
        apply safe_idle
        intro s
        split
        · exact ⟨rfl, rfl⟩
        · exact ⟨rfl, rfl⟩
      simp only [producerRound]
      split_ifs
      · exact safe_ret trivial
      · refine safe_bind (hpush _ _) fun ok _ _ => ?_
        cases ok with
        | true => exact safe_ret trivial
        | false =>
            refine safe_bind safe_idle_loadStop ?_
            rintro stop _ rfl
            exact safe_ret trivial

theorem safe_idle_callerRound :
    Safe Idle .caller (SinglePost leaves .caller)
      (callerRound (heapOf leaves) F.numBlocks : Act L P (Label L P)) r := by
  unfold callerRound
  refine safe_bind safe_idle_loadStop ?_
  rintro stop _ rfl
  exact safe_ret rfl

theorem safe_idle_code (hlen : leaves.length = 1) (t : Thread) (l : Label L P)
    (p : Act L P (Label L P)) (r : Unit) (hcode : F.code leaves t l = some p)
    (hpost : SinglePost leaves t l r) : Safe Idle t (SinglePost leaves t) p r := by
  unfold ParallelTreeFolder.code at hcode
  split at hcode
  · obtain rfl := Option.some.inj hcode
    exact safe_idle_workerRound _
  · obtain rfl := Option.some.inj hcode
    exact safe_idle_allocRound hlen _ _ hpost
  · obtain rfl := Option.some.inj hcode
    exact safe_idle_producerRound _ _
  · obtain rfl := Option.some.inj hcode
    exact safe_idle_callerRound
  · cases hcode

/-- With a single leaf the stop flag is never set, and the caller waits. -/
theorem ParallelTreeFolder.Reachable.single (hlen : leaves.length = 1)
    {c : Config (State L P) Thread (Label L P)} (h : F.Reachable leaves c) :
    c.state.stop = false ∧ ∀ result, c.threads .caller ≠ .ret (.returned result) := by
  obtain ⟨c₀, hrun, hsteps⟩ := h
  obtain ⟨-, rfl⟩ := run_eq_ok hrun
  have hinitial : Sound Idle (SinglePost leaves) (F.initial leaves) := by
    refine ⟨fun _ => (), ⟨rfl, fun _ => rfl⟩, fun t => ?_⟩
    cases t with
    | worker w =>
        apply safe_ret
        split
        · exact trivial
        · exact trivial
    | producer => exact safe_ret trivial
    | caller => exact safe_ret rfl
  obtain ⟨rs, hI, hsafe⟩ := hinitial.steps (safe_idle_code hlen) hsteps
  refine ⟨hI.1, fun result hret => ?_⟩
  have hcaller := hsafe .caller
  rw [hret] at hcaller
  cases hcaller

/-- **A failing reducer.**  The stop flag is never set and `run` never returns. -/
theorem ParallelTreeFolder.Reachable.waits {c : Config (State L P) Thread (Label L P)}
    (h : F.Reachable leaves c) {i : ℕ} (hfails : TaskFails F.reducer leaves i) :
    c.state.stop = false ∧ ∀ result, c.threads .caller ≠ .ret (.returned result) := by
  have hlt := hfails.lt
  by_cases hlen : leaves.length = 1
  · exact h.single hlen
  · have hn : 2 ≤ leaves.length := by omega
    constructor
    · cases hstop : c.state.stop with
      | false => rfl
      | true =>
          obtain ⟨v, hv⟩ := h.folded_of_stop hn hstop
          exact absurd hv (hfails.root_not_folded v)
    · intro result hret
      obtain ⟨-, rs, -, hsafe⟩ := h.sound hn
      have hcaller := hsafe .caller
      rw [hret] at hcaller
      cases result with
      | ok v => exact hfails.root_not_folded v hcaller.1
      | error e => exact hcaller

theorem ParallelTreeFolder.not_reportsFailures
    (hlen : leaves.length = 2 ^ Nat.log2 leaves.length)
    (hfails : ∃ i, TaskFails F.reducer leaves i) :
    ¬F.ReportsFailures leaves := by
  intro h
  have hstart : F.run leaves = .ok (F.initial leaves) := by
    unfold ParallelTreeFolder.run
    rw [if_neg, if_neg (not_not.mpr hlen)]
    intro h0
    rw [h0] at hlen
    exact absurd hlen (Nat.two_pow_pos _).ne
  have hreach : F.Reachable leaves (F.initial leaves) := ⟨_, hstart, Steps.refl _⟩
  obtain ⟨⟨c', e, hsteps, hstop, -⟩, -⟩ := h hfails _ hreach
  obtain ⟨i, hi⟩ := hfails
  have hreach' : F.Reachable leaves c' := ⟨_, hstart, hsteps⟩
  rw [(hreach'.waits hi).1] at hstop
  cases hstop

/-- **Reducer failures are reported only where there are none.**  Otherwise the stop flag
stays unset and `run` does not return, whatever the order of the threads' steps. -/
theorem reportsFailures_iff (hlen : leaves.length = 2 ^ Nat.log2 leaves.length) :
    (F.ReportsFailures leaves ↔ ¬∃ i, TaskFails F.reducer leaves i) ∧
      ∀ i, TaskFails F.reducer leaves i → ∀ c, F.Reachable leaves c →
        c.state.stop = false ∧ ∀ result, c.threads .caller ≠ .ret (.returned result) := by
  constructor
  · constructor
    · exact fun h hfails => F.not_reportsFailures hlen hfails h
    · exact fun hnone hfails => absurd hfails hnone
  · exact fun i hi c hc => hc.waits hi

/-- A reducer that adds numbers and fails from ten on. -/
def small : FoldReducer ℕ ℕ Unit ℕ where
  strictToAcc l := .ok l
  foldAccAcc a b := if a + b < 10 then .ok (a + b, ()) else .error (a + b)

/-- One worker. -/
def smallWorker : ParallelTreeFolder ℕ ℕ Unit ℕ := ⟨small, 1⟩

theorem reportsFailures_iff_two :
    (smallWorker.ReportsFailures [6, 7] ↔ ¬∃ i, TaskFails smallWorker.reducer [6, 7] i) ∧
      ∀ i, TaskFails smallWorker.reducer [6, 7] i → ∀ c, smallWorker.Reachable [6, 7] c →
        c.state.stop = false ∧ ∀ result, c.threads .caller ≠ .ret (.returned result) :=
  reportsFailures_iff (by decide)

/-- The producer pushes six and seven and the worker fails to fold them; the buffers are
released. -/
def foldFailed : Config (State ℕ ℕ) Thread (Label ℕ ℕ) :=
  (smallWorker.initial [6, 7]).exec (smallWorker.code [6, 7])
    (List.replicate 4 .producer ++ List.replicate 42 (.worker 0))

/-- Nobody hears of the failure, and the left child still names its buffer, which is free. -/
theorem failure_not_reported :
    ¬smallWorker.ReportsFailures [6, 7] ∧
      ∃ c b, smallWorker.Reachable [6, 7] c ∧ (c.state.tasks 1).bufferId = some b ∧
        b ∈ c.state.free := by
  constructor
  · apply ParallelTreeFolder.not_reportsFailures (by decide)
    have hsix : Folded small [6, 7] 1 6 := .leaf (by decide) rfl rfl
    have hseven : Folded small [6, 7] 2 7 := .leaf (by decide) rfl rfl
    exact ⟨0, .node (by decide) hsix hseven rfl⟩
  · exact ⟨foldFailed, 7, ⟨_, rfl, steps_exec _ _⟩, by decide, by decide⟩

end Failing

end NexusVm.Nova.ParallelTree
