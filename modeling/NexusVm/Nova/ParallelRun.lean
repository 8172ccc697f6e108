import NexusVm.Nova.ParallelSafe
import NexusVm.Nova.ParallelValue

/-!
# Runs of the parallel fold

The rounds of the threads keep the invariant, so it holds in every state of a run.

A state of a run is reached by any interleaving of the atomic actions of the workers, the producer
and the caller; there is no fairness and no bound on the number of steps.  The invariant says who
owns which task and which buffer, and what is folded in them.  From it follow the results on what
the root holds when the caller takes it; that it is ever taken needs more and is not claimed here.
-/

namespace NexusVm.Nova.ParallelTree

open Concurrent

section Labels

variable {L P Proof E : Type} (F : ParallelTreeFolder L P Proof E) (leaves : List L)

/-- A thread has nothing. -/
structure Nothing (r : Res P) : Prop where
  tasks : ∀ i, r.tasks i = none
  bufs : ∀ b, r.bufs b = none
  sawRoot : r.sawRoot = false

/-- A worker that waits for a buffer for its leaf. -/
structure Allocating (R : FoldReducer L P Proof E) (r : Res P) (leaf : L) (i : ℕ) : Prop where
  clean : Clean R r (some i) []
  ready : r.ready = []
  task : r.tasks i = some (.making, ⟨none, LeafState.notStarted⟩)
  isLeaf : leaves.length - 1 ≤ i
  inHeap : i < 2 * leaves.length - 1
  payload : leaves[i - (leaves.length - 1)]? = some leaf

/-- Between two tasks a worker has the buffers of its ready node's children only. -/
def HoldsReady (r : Res P) : Prop :=
  ∀ b, r.bufs b ≠ none → ∃ c, 0 < c ∧ up c ∈ r.ready ∧ r.Refers c b

/-- What a thread has at a label. -/
def Post : Thread → Label L P → Res P → Prop
  | .worker _, .top, r => Resting F.reducer leaves F.numBlocks r
  | .worker _, .alloc leaf i, r => Allocating leaves F.reducer r leaf i
  | .worker w, .halted, r => HoldsReady r ∧
      (r.sawStop = true ∨ F.numCores ≤ w ∧ r.ready = [] ∧ Clean F.reducer r none [])
  | .producer, .next rest i, r =>
      Nothing r ∧ r.cursor = i ∧ rest = leaves.drop (i - (leaves.length - 1)) ∧
        leaves.length - 1 ≤ i
  | .producer, .halted, r =>
      Nothing r ∧ (r.sawStop = true ∨ 2 * leaves.length - 1 ≤ r.cursor)
  | .caller, .wait, r => Nothing r ∧ r.token = true
  | .caller, .returned (.ok v), r =>
      Folded F.reducer leaves 0 v ∧ r.sawStop = true ∧ ∀ b, r.bufs b = none
  | _, _, _ => False

end Labels

section Rounds

variable {L P Proof E : Type} {F : ParallelTreeFolder L P Proof E} {leaves : List L} {r : Res P}

/-- The invariant of the folder. -/
abbrev ParallelTreeFolder.Inv (F : ParallelTreeFolder L P Proof E) (leaves : List L) :
    State L P → (Thread → Res P) → Prop :=
  ParallelTree.Inv F.reducer leaves F.numBlocks F.numCores

/-- The invariant of the folder, with some threads tidy. -/
abbrev ParallelTreeFolder.OwnInv (F : ParallelTreeFolder L P Proof E) (leaves : List L)
    (K : Thread → Prop) : State L P → (Thread → Res P) → Prop :=
  ParallelTree.OwnInv F.reducer leaves F.numBlocks F.numCores K

variable {K : Thread → Prop}

theorem Clean.holdsReady {R : FoldReducer L P Proof E} {i : Option ℕ} (h : Clean R r i []) :
    HoldsReady r := fun b hb => absurd (h.bufs b List.not_mem_nil) hb

theorem Resting.holdsReady (h : Resting F.reducer leaves F.numBlocks r) : HoldsReady r := by
  cases h with
  | idle hready hclean => exact hclean.holdsReady
  | @ready i left right _ _ hready hnode =>
      intro b hb
      by_cases hleft : b = left
      · refine ⟨2 * i + 1, Nat.succ_pos _, ?_, (refers_iff hnode.taskLeft).mpr (by rw [hleft])⟩
        rw [hready, show up (2 * i + 1) = i from up_left i]
        exact List.mem_singleton_self i
      · by_cases hright : b = right
        · refine ⟨2 * i + 2, Nat.succ_pos _, ?_, (refers_iff hnode.taskRight).mpr (by rw [hright])⟩
          rw [hready, show up (2 * i + 2) = i from up_right i]
          exact List.mem_singleton_self i
        · exact absurd (hnode.clean.bufs b (by simp [hleft, hright])) hb

theorem Done.afterTask {w i : ℕ} {result : Run (WorkerError E) Unit}
    (h : Done F.reducer leaves F.numBlocks i result r) (hi : result = .ok () → i ≠ 0) :
    Post F leaves (.worker w) (afterTask result) r := by
  rcases result with (_ | e) | ⟨⟩
  · exact absurd rfl h.noPanic
  · exact h.resting (by nofun)
  · exact h.resting fun h0 => hi rfl h0.2

theorem safe_workerRound (hlen : leaves.length = 2 ^ Nat.log2 leaves.length) {w : ℕ}
    (h : Resting F.reducer leaves F.numBlocks r)
    (hK : K (.worker w) → F.reducer.FoldsNodes leaves) :
    Safe (F.OwnInv leaves K) (.worker w) (Post F leaves (.worker w))
      (workerRound (heapOf leaves) F.numBlocks F.reducer w) r := by
  unfold workerRound
  refine safe_bind safe_loadStop ?_
  rintro stop r' rfl
  cases stop with
  | true => exact safe_ret ⟨h.holdsReady, Or.inl rfl⟩
  | false =>
      simp only [Bool.false_eq_true, if_false]
      refine safe_seq safe_popReady ?_
      cases h with
      | @ready i _ _ _ _ hready hnode =>
          rw [hready]
          simp only [List.head?_cons, List.tail_cons]
          refine safe_bind (safe_processReadyInnerNode hlen rfl (hnode.setReady []) hK) ?_
          rintro result r' hdone
          rcases result with failure | ⟨⟩
          · exact safe_ret (hdone.afterTask (by simp))
          · by_cases h0 : i = 0
            · simp only [checkAndSignalCompletion, h0, if_true, Prog.bind_assoc]
              obtain ⟨hsaw, hbufs⟩ := hdone.root rfl h0
              refine safe_seq (safe_storeStop (Or.inl hsaw)) ?_
              exact safe_ret ⟨fun b hb => absurd (hbufs b) hb, Or.inl rfl⟩
            · simp only [checkAndSignalCompletion, h0, if_false]
              exact safe_ret (hdone.resting fun h => h0 h.2)
      | idle hready hclean =>
          have hsame : { r with ready := r.ready.tail } = r := by
            rw [hready, List.tail_nil, ← hready]
          rw [hsame, hready]
          simp only [List.head?_nil]
          refine safe_bind (safe_popLeaf fun i task hi =>
            (hclean.making i task hi).resolve_left (by simp)) ?_
          rintro o r' (⟨rfl, rfl⟩ | ⟨leaf, i, rfl, hle, hlt, hl, -, rfl⟩)
          · exact safe_ret (Resting.idle hready hclean)
          · simp only [heapOf_get_leaf hlen hle hlt]
            exact safe_ret ⟨hclean.addTask _, hready, Res.setTask_self _ _ _, hle, hlt, hl⟩

theorem safe_allocRound (hlen : leaves.length = 2 ^ Nat.log2 leaves.length)
    (hn : 2 ≤ leaves.length) {w : ℕ} {leaf : L} {i : ℕ}
    (h : Allocating leaves F.reducer r leaf i) :
    Safe (F.OwnInv leaves K) (.worker w) (Post F leaves (.worker w))
      (allocRound (heapOf leaves) F.numBlocks F.reducer w leaf i) r := by
  unfold allocRound
  refine safe_bind safe_alloc ?_
  rintro o r' (⟨rfl, rfl⟩ | ⟨b, x, rfl, hltb, -, hfree, rfl⟩)
  · refine safe_bind safe_freeCount ?_
    rintro _ r' rfl
    exact safe_ret h
  · refine safe_bind (safe_processLeafInput hlen hn h.isLeaf h.inHeap h.payload hltb h.task
      (Res.setBuf_self _ _ _) hfree (h.clean.addBuf _) h.ready) ?_
    have hi : i ≠ 0 := by
      have := h.isLeaf
      omega
    exact fun result r' hdone => safe_ret (hdone.afterTask fun _ => hi)

theorem workerIdx_eq_chunk (hlen : leaves.length = 2 ^ Nat.log2 leaves.length)
    (numWorkers i : ℕ) : workerIdx (heapOf leaves) numWorkers i = chunk leaves numWorkers i := by
  unfold workerIdx
  rw [heapOf_leafStart hlen, heapOf_eq hlen]
  rfl

theorem safe_producerRound (hlen : leaves.length = 2 ^ Nat.log2 leaves.length)
    (hn : 2 ≤ leaves.length) {rest : List L} {i : ℕ} (hr : Nothing r) (hcursor : r.cursor = i)
    (hrest : rest = leaves.drop (i - (leaves.length - 1))) (hle : leaves.length - 1 ≤ i) :
    Safe (F.OwnInv leaves K) .producer (Post F leaves .producer)
      (producerRound (heapOf leaves) F.numCores rest i) r := by
  cases rest with
  | nil =>
      have hend := List.drop_eq_nil_iff.mp hrest.symm
      exact safe_ret ⟨hr, Or.inr (by omega)⟩
  | cons leaf rest =>
      have hleaf : leaves[i - (leaves.length - 1)]? = some leaf := by
        rw [← List.head?_drop, ← hrest]
        rfl
      have hnext : rest = leaves.drop (i + 1 - (leaves.length - 1)) := by
        rw [show i + 1 - (leaves.length - 1) = i - (leaves.length - 1) + 1 by omega,
          ← List.tail_drop, ← hrest]
        rfl
      have hlt : i < 2 * leaves.length - 1 := by
        obtain ⟨h, -⟩ := List.getElem?_eq_some_iff.mp hleaf
        omega
      have hbound : ¬(heapOf leaves).leafStart + (heapOf leaves).numLeaves ≤ i := by
        rw [heapOf_leafStart hlen, heapOf_eq hlen]
        show ¬leaves.length - 1 + leaves.length ≤ i
        omega
      unfold producerRound
      simp only [hbound, if_false]
      refine safe_bind (safe_pushLeaf (workerIdx_eq_chunk hlen _ _).symm hcursor hlt hleaf) ?_
      rintro ok r' rfl
      cases ok with
      | true => exact safe_ret ⟨⟨hr.tasks, hr.bufs, hr.sawRoot⟩, rfl, hnext, by omega⟩
      | false =>
          simp only [Bool.false_eq_true, if_false]
          refine safe_bind safe_loadStop ?_
          rintro stop r' rfl
          cases stop with
          | true => exact safe_ret ⟨⟨hr.tasks, hr.bufs, hr.sawRoot⟩, Or.inl rfl⟩
          | false => exact safe_ret ⟨hr, hcursor, hrest, hle⟩

/-- The caller sees the stop flag and takes the root with it. -/
theorem safe_callerLoadStop (hn : 2 ≤ leaves.length) (hr : Nothing r) (htoken : r.token = true) :
    Safe (F.OwnInv leaves K) .caller
      (fun stop r' => (stop = false ∧ r' = r) ∨ (stop = true ∧ ∃ b v, b < F.numBlocks ∧
        Folded F.reducer leaves 0 v ∧ r'.sawStop = true ∧ r'.bufs b = some (some v) ∧
        (∀ d, d ≠ b → r'.bufs d = none) ∧
        r'.tasks 0 = some (.taken, ⟨some b, NodeState.processedWaitingForConsumption⟩)))
      loadStop r := by
  apply safe_action
  rintro s rs hI rfl
  cases hstop : s.stop with
  | false =>
      refine ⟨rs .caller, ?_, Or.inl ⟨rfl, rfl⟩⟩
      rw [Function.update_eq_self]
      exact hI
  | true =>
      obtain ⟨b, v, hb, hv, hI'⟩ := hI.inv.takeRoot hstop htoken (by omega)
      have hempty : Tidy ((rs .caller).setBuf b (some (some v))) :=
        (tidy_of_none hr.tasks).setBuf b (some v)
      have hbuf : ((rs .caller).setBuf b (some (some v))).bufs b ≠ none := by
        rw [Res.setBuf_self]
        exact Option.some_ne_none _
      have htidy : Tidy (((rs .caller).setBuf b (some (some v))).setTask 0
          (some (.taken, ⟨some b, NodeState.processedWaitingForConsumption⟩))) :=
        hempty.setId rfl hbuf fun j _ => not_refers_of_none (hr.tasks j)
      exact ⟨_, hI.update hI' fun _ _ => htidy.congr rfl rfl,
        Or.inr ⟨rfl, b, v, hb, hv, rfl, Function.update_self _ _ _,
          fun d hd => (Function.update_of_ne hd _ _).trans (hr.bufs d),
          Function.update_self 0 _ (rs .caller).tasks⟩⟩

/-- A caller that is to be tidy leaves the free list as it is: it does not give the root's
buffer back. -/
def KeepsFree (K : Thread → Prop) (t : Thread) (s s' : State L P) : Prop :=
  t = .caller → K .caller → s'.free = s.free

/-- Where the caller gives a buffer back it need not be tidy. -/
theorem safeIf_release {b : ℕ} {x : Option P} (hb : r.bufs b = some x) :
    SafeIf (F.OwnInv leaves K) .caller (KeepsFree K .caller) (Returns () (r.setBuf b none))
      (release b) r := by
  refine safeIf_seq (safe_clear hb) ?_
  intro s rs hI hr hkeeps
  have hnot : ¬K .caller := by
    intro hK
    have hlen := congrArg List.length (hkeeps rfl hK)
    simp at hlen
  have hb' : (rs .caller).bufs b = some none := by
    rw [hr]
    exact Function.update_self _ _ _
  have hI' := hI.update (hI.inv.free hb') fun hK => absurd hK hnot
  rw [hr, Res.setBuf_setBuf] at hI'
  exact ⟨_, hI', rfl, rfl⟩

theorem safeIf_getRootResult (hlen : leaves.length = 2 ^ Nat.log2 leaves.length)
    (hn : 2 ≤ leaves.length) {b : ℕ} {v : P} (hb : b < F.numBlocks)
    (hbuf : r.bufs b = some (some v))
    (htask : r.tasks 0 = some (.taken, ⟨some b, NodeState.processedWaitingForConsumption⟩)) :
    SafeIf (F.OwnInv leaves K) .caller (KeepsFree K .caller)
      (Returns (.ok (some v)) (r.setBuf b none)) (getRootResult (heapOf leaves) F.numBlocks) r := by
  unfold getRootResult
  rw [heapOf_get_node hlen (by omega)]
  simp only [NodeTask.getBufIdIfReady, Prog.bind_assoc]
  refine safeIf_seq (safe_loadState htask) ?_
  simp only [if_true]
  refine safeIf_seq (safe_loadBufferId htask) ?_
  simp only [claim, hb, if_true]
  refine safeIf_seq (safe_read hbuf) ?_
  simp only
  refine safeIf_bind (safeIf_release (Res.setBuf_self _ _ _)) ?_
  rintro _ _ ⟨rfl, rfl⟩
  rw [Res.setBuf_setBuf]
  exact ⟨rfl, rfl⟩

theorem safeIf_callerRound (hlen : leaves.length = 2 ^ Nat.log2 leaves.length)
    (hn : 2 ≤ leaves.length) (hr : Nothing r) (htoken : r.token = true) :
    SafeIf (F.OwnInv leaves K) .caller (KeepsFree K .caller) (Post F leaves .caller)
      (callerRound (heapOf leaves) F.numBlocks) r := by
  unfold callerRound
  refine safeIf_bind (safe_callerLoadStop hn hr htoken).safeIf ?_
  rintro stop r' (⟨rfl, rfl⟩ | ⟨rfl, b, v, hb, hv, hstop, hbuf, hothers, htask⟩)
  · exact ⟨hr, htoken⟩
  · simp only [if_true]
    refine safeIf_bind (safeIf_getRootResult hlen hn hb hbuf htask) ?_
    rintro _ _ ⟨rfl, rfl⟩
    refine safeIf_seq (safe_storeStop (Or.inr hstop)) ?_
    refine ⟨hv, rfl, fun d => ?_⟩
    by_cases hd : d = b
    · rw [hd]
      exact Res.setBuf_self r' b none
    · exact (Res.setBuf_of_ne r' hd none).trans (hothers d hd)

/-- All rounds of all threads are safe as long as the caller keeps the root. -/
theorem safeIf_code (hlen : leaves.length = 2 ^ Nat.log2 leaves.length) (hn : 2 ≤ leaves.length)
    (hK : ∀ w, K (.worker w) → F.reducer.FoldsNodes leaves)
    (t : Thread) (l : Label L P) (p : Act L P (Label L P)) (r : Res P)
    (hcode : F.code leaves t l = some p) (hpost : Post F leaves t l r) :
    SafeIf (F.OwnInv leaves K) t (KeepsFree K t) (Post F leaves t) p r := by
  unfold ParallelTreeFolder.code at hcode
  split at hcode
  · obtain rfl := Option.some.inj hcode
    exact (safe_workerRound hlen hpost (hK _)).safeIf
  · obtain rfl := Option.some.inj hcode
    exact (safe_allocRound hlen hn hpost).safeIf
  · obtain rfl := Option.some.inj hcode
    obtain ⟨hr, hcursor, hrest, hle⟩ := hpost
    exact (safe_producerRound hlen hn hr hcursor hrest hle).safeIf
  · obtain rfl := Option.some.inj hcode
    exact safeIf_callerRound hlen hn hpost.1 hpost.2
  · cases hcode

/-- All rounds of all threads are safe. -/
theorem safe_code (hlen : leaves.length = 2 ^ Nat.log2 leaves.length) (hn : 2 ≤ leaves.length)
    (t : Thread) (l : Label L P) (p : Act L P (Label L P)) (r : Res P)
    (hcode : F.code leaves t l = some p) (hpost : Post F leaves t l r) :
    Safe (F.Inv leaves) t (Post F leaves t) p r := by
  have hsafe : Safe (F.OwnInv leaves fun _ => False) t (Post F leaves t) p r :=
    (safeIf_code hlen hn (fun _ hK => hK.elim) t l p r hcode hpost).safe
      fun _ _ _ hK => hK.elim
  unfold ParallelTreeFolder.OwnInv at hsafe
  rwa [ownInv_none] at hsafe

/-! ## Runs -/

/-- What the threads have in the beginning. -/
def ParallelTreeFolder.initialRes (leaves : List L) : Res P where
  tasks _ := none
  bufs _ := none
  ready := []
  cursor := leaves.length - 1
  token := true
  sawRoot := false
  sawStop := false

theorem inv_initial (hn : 2 ≤ leaves.length) :
    F.Inv leaves F.initialState fun _ => ParallelTreeFolder.initialRes leaves := by
  let status : ℕ → Status P := fun i =>
    if 2 * leaves.length - 1 ≤ i then .outside
    else if i < leaves.length - 1 then .waiting else .fresh
  have houtside : ∀ i, status i = .outside ↔ 2 * leaves.length - 1 ≤ i := by
    intro i
    simp only [status]
    split_ifs with h₁ h₂ <;> simp [h₁]
  have hwaiting : ∀ i, status i = .waiting ↔ i < leaves.length - 1 := by
    intro i
    simp only [status]
    split_ifs with h₁ h₂
    · simp
      omega
    · simp [h₂]
    · simp [h₂]
  have hfresh : ∀ i, status i = .fresh ↔ leaves.length - 1 ≤ i ∧ i < 2 * leaves.length - 1 := by
    intro i
    simp only [status]
    split_ifs with h₁ h₂
    · simp
      omega
    · simp
      omega
    · simp
      omega
  have howned : ∀ i t m, status i ≠ .owned t m := by
    intro i t m
    simp only [status]
    split_ifs <;> nofun
  have hdeposited : ∀ i b v, status i ≠ .deposited b v := by
    intro i b v
    simp only [status]
    split_ifs <;> nofun
  have hview : ∀ i t task, (status i).view t task = none := by
    intro i t task
    simp only [status]
    split_ifs <;> rfl
  have hpending : ∀ i, (status i).Pending ↔ i < 2 * leaves.length - 1 := by
    intro i
    simp only [status]
    split_ifs with h₁ h₂
    · simp [Status.Pending, h₁]
    · simp only [Status.Pending, true_iff]
      omega
    · simp only [Status.Pending, true_iff]
      omega
  have hdeps : ∀ i, (⟨status, fun _ => .free, leaves.length - 1⟩ : Ghost P).deposits i = 0 := by
    have hnot : ∀ i, (status i).Deposited = false := by
      intro i
      simp only [status]
      split_ifs <;> rfl
    intro i
    simp only [Ghost.deposits, hnot]
    rfl
  refine ⟨⟨status, fun _ => .free, leaves.length - 1⟩, ?_, ?_, ?_, ?_, ?_⟩
  · exact ⟨fun t i => (hview i t _).symm, fun _ _ => rfl, fun _ => rfl, rfl⟩
  · constructor
    · exact houtside
    · exact fun i hi => ⟨((hfresh i).mp hi).1, rfl⟩
    · intro i hi
      rw [hdeps i]
      exact ⟨(hwaiting i).mp hi, rfl, Nat.zero_le 1⟩
    · exact fun i b v hi => absurd hi (hdeposited i b v)
    · intro i hi hp
      show status (up i) = _
      have hlt := (hpending i).mp hp
      rw [hwaiting]
      unfold up
      omega
    · intro i hi hw
      have hlt := (hwaiting (up i)).mp hw
      show (status i).Pending
      rw [hpending]
      unfold up at hlt
      omega
    · exact fun t ht => absurd ht (howned 0 t _)
  · constructor
    · exact fun b i hb => by cases hb
    · exact fun b hb => absurd rfl hb
    · exact List.nodup_reverse.mpr List.nodup_range
    · intro b
      show b ∈ (List.range F.numBlocks).reverse ↔ _
      simp
  · constructor
    · exact fun _ => List.Pairwise.nil
    · intro w x hx
      cases hx
    · intro w i
      constructor
      · intro hi
        cases hi
      · rintro ⟨hi, hlt, -⟩
        have hlt' : i < leaves.length - 1 := hlt
        exact absurd ((hfresh i).mp hi).1 (by omega)
    · exact fun i hi hlt => (hfresh i).mpr ⟨hi, hlt⟩
    · show leaves.length - 1 ≤ leaves.length - 1 ∧ leaves.length - 1 ≤ 2 * leaves.length - 1
      omega
    · intro i j hi hij hj _
      have hle := ((hfresh i).mp hi).1
      exact (hfresh j).mpr ⟨by omega, hj⟩
    · exact fun t i _ ht => absurd ht (howned i t _)
  · constructor
    · exact fun _ hsaw => by cases hsaw
    · exact fun hstop => by cases hstop
    · exact fun _ hsaw => by cases hsaw
    · exact fun htoken => by cases htoken
    · exact fun t ht => absurd ht (howned 0 t _)
    · exact fun b v ht => absurd ht (hdeposited 0 b v)

theorem post_initial (hlen : leaves.length = 2 ^ Nat.log2 leaves.length) (t : Thread)
    {I : State L P → (Thread → Res P) → Prop} :
    Safe I t (Post F leaves t) ((F.initial leaves).threads t)
      (ParallelTreeFolder.initialRes leaves) := by
  have hclean : Clean F.reducer (ParallelTreeFolder.initialRes leaves : Res P) none [] :=
    ⟨fun _ _ h => (Option.some_ne_none _ h.symm).elim, fun _ _ => rfl, rfl⟩
  have hnothing : Nothing (ParallelTreeFolder.initialRes leaves : Res P) :=
    ⟨fun _ => rfl, fun _ => rfl, rfl⟩
  cases t with
  | worker w =>
      apply safe_ret
      by_cases hw : w < F.numCores
      · rw [if_pos hw]
        exact .idle rfl hclean
      · rw [if_neg hw]
        exact ⟨hclean.holdsReady, Or.inr ⟨not_lt.mp hw, rfl, hclean⟩⟩
  | producer =>
      apply safe_ret
      rw [heapOf_leafStart hlen]
      refine ⟨hnothing, rfl, ?_, le_refl _⟩
      rw [Nat.sub_self, List.drop_zero]
  | caller => exact safe_ret ⟨hnothing, rfl⟩

theorem sound_initial (hlen : leaves.length = 2 ^ Nat.log2 leaves.length)
    (hn : 2 ≤ leaves.length) :
    Sound (F.Inv leaves) (Post F leaves) (F.initial leaves) :=
  ⟨fun _ => ParallelTreeFolder.initialRes leaves, inv_initial hn, fun t => post_initial hlen t⟩

/-- In the beginning all threads are tidy. -/
theorem soundIf_initial (hlen : leaves.length = 2 ^ Nat.log2 leaves.length)
    (hn : 2 ≤ leaves.length) {K : Thread → Prop} :
    SoundIf (KeepsFree K) (F.OwnInv leaves K) (Post F leaves) (F.initial leaves) := by
  refine ⟨fun _ => ParallelTreeFolder.initialRes leaves, ⟨inv_initial hn, fun _ _ => ?_⟩,
    fun t => (post_initial hlen t).safeIf⟩
  exact tidy_of_none fun _ => rfl

variable {c : Config (State L P) Thread (Label L P)}

/-- The length of the leaves that `run` accepts. -/
theorem ParallelTreeFolder.run_eq_ok (h : F.run leaves = .ok c) :
    leaves.length = 2 ^ Nat.log2 leaves.length ∧ c = F.initial leaves := by
  unfold run at h
  split_ifs at h with h₁ h₂
  exact ⟨not_not.mp h₂, (Except.ok.inj h).symm⟩

/-- **The invariant holds in every state of a run.** -/
theorem ParallelTreeFolder.Reachable.sound (h : F.Reachable leaves c) (hn : 2 ≤ leaves.length) :
    leaves.length = 2 ^ Nat.log2 leaves.length ∧ Sound (F.Inv leaves) (Post F leaves) c := by
  obtain ⟨c₀, hrun, hsteps⟩ := h
  obtain ⟨hlen, rfl⟩ := run_eq_ok hrun
  exact ⟨hlen, (sound_initial hlen hn).steps (safe_code hlen hn) hsteps⟩

/-! ## The root and a run with two leaves -/

/-- The caller only reads, empties a slot, gives a buffer back and sets the stop flag. -/
structure CallerUpdates (Q : (State L P → State L P) → Prop) : Prop where
  load : Q fun s => s
  block : ∀ b x, Q fun s => s.setBlock b x
  free : ∀ b, Q fun s => { s with free := s.free ++ [b] }
  stop : Q fun s => { s with stop := true }

section Caller

variable {Q : (State L P → State L P) → Prop}

theorem all_release (hQ : CallerUpdates Q) (b : ℕ) : (release b : Act L P Unit).All Q :=
  Prog.all_bind (Prog.all_atomic (hQ.block b none)) fun _ => Prog.all_atomic (hQ.free b)

theorem all_getRootResult (hQ : CallerUpdates Q) (heap : TaskHeap) (numBlocks : ℕ) :
    (getRootResult heap numBlocks : Act L P _).All Q := by
  unfold getRootResult
  split
  · refine Prog.all_bind ?_ ?_
    · refine Prog.all_bind (Prog.all_atomic hQ.load) fun state => ?_
      split
      · exact Prog.all_atomic hQ.load
      · trivial
    · intro o
      cases o with
      | none => trivial
      | some b =>
          simp only
          split
          · trivial
          · refine Prog.all_bind (Prog.all_atomic (hQ.block _ none)) fun value => ?_
            cases value with
            | none => trivial
            | some value => exact Prog.all_bind (all_release hQ _) fun _ => trivial
  · trivial

theorem all_callerRound (hQ : CallerUpdates Q) (heap : TaskHeap) (numBlocks : ℕ) :
    (callerRound heap numBlocks : Act L P (Label L P)).All Q := by
  unfold callerRound
  refine Prog.all_bind (Prog.all_atomic hQ.load) fun stop => ?_
  split
  · refine Prog.all_bind (all_getRootResult hQ heap numBlocks) fun result => ?_
    rcases result with failure | (_ | value)
    · trivial
    · trivial
    · exact Prog.all_bind (Prog.all_atomic hQ.stop) fun _ => trivial
  · trivial

/-- What all updates of the caller have in common. -/
theorem ParallelTreeFolder.Reachable.caller_all {c : Config (State L P) Thread (Label L P)}
    (h : F.Reachable leaves c) (hQ : CallerUpdates Q) : (c.threads .caller).All Q := by
  obtain ⟨c₀, hrun, hsteps⟩ := h
  obtain ⟨-, rfl⟩ := run_eq_ok hrun
  have hinitial : ((F.initial leaves).threads .caller).All Q := trivial
  refine Steps.all ?_ hinitial hsteps
  intro l p hl
  unfold code at hl
  split at hl
  · next heq => cases heq
  · next heq => cases heq
  · next heq => cases heq
  · obtain rfl := Option.some.inj hl
    exact all_callerRound hQ _ _
  · cases hl

end Caller

/-- The caller only reads the tasks. -/
def KeepsTasks (update : State L P → State L P) : Prop := ∀ s, (update s).tasks = s.tasks

theorem callerUpdates_keepsTasks : CallerUpdates (KeepsTasks (L := L) (P := P)) :=
  ⟨fun _ => rfl, fun _ _ _ => rfl, fun _ _ => rfl, fun _ => rfl⟩

/-- **The root's value.**  When the root becomes ready, in whatever order the threads went,
its buffer holds what the sequential fold returns. -/
theorem root_ready_foldRoot (hn : 2 ≤ leaves.length)
    {c c' : Config (State L P) Thread (Label L P)} {t : Thread} (h : F.Reachable leaves c)
    (hstep : Step (F.code leaves) t c c')
    (hbefore : (c.state.tasks 0).state ≠ NodeState.processedWaitingForConsumption)
    (hafter : (c'.state.tasks 0).state = NodeState.processedWaitingForConsumption) :
    ∃ b v, (c'.state.tasks 0).bufferId = some b ∧ c'.state.blocks b = some v ∧
      foldRoot F.reducer leaves = .ok v := by
  obtain ⟨hlen, hsound⟩ := h.sound hn
  have hroot : readyState leaves 0 = NodeState.processedWaitingForConsumption :=
    if_pos (by omega)
  obtain ⟨rs, r', hI, hI'⟩ := hsound.exists_update hstep
  obtain ⟨g, hg⟩ := hI
  obtain ⟨g', hg'⟩ := hI'
  cases hstatus : g'.status 0 with
  | outside =>
      have := (hg'.tree.outside 0).mp hstatus
      omega
  | fresh =>
      have := (hg'.tree.fresh 0 hstatus).1
      omega
  | waiting =>
      obtain ⟨-, htask, hle⟩ := hg'.tree.waiting 0 hstatus
      rw [htask] at hafter
      have hdeps : g'.deposits 0 = 4 := hafter
      omega
  | deposited b v =>
      obtain ⟨htask, -, hblock, hfolded⟩ := hg'.tree.deposited 0 b v hstatus
      exact ⟨b, v, by rw [htask], hblock, hfolded.foldRoot hlen⟩
  | owned u m =>
      cases m with
      | making => exact absurd hafter (hg'.tree.root u hstatus)
      | taken =>
          -- the caller has taken the root, in this step or before; it was ready then
          have htoken := hg'.flags.taken u hstatus
          by_cases ht : t = .caller
          · subst ht
            rcases hstep.update (h.caller_all callerUpdates_keepsTasks) with
              heq | ⟨update, hkeeps, heq⟩
            · rw [heq] at hafter
              exact absurd hafter hbefore
            · rw [heq, hkeeps] at hafter
              exact absurd hafter hbefore
          · rw [Function.update_of_ne (Ne.symm ht)] at htoken
            have hstate := (hg.flags.token htoken).2.2
            rw [hroot] at hstate
            exact absurd hstate hbefore

/-- A reducer that writes digits after another. -/
def digits : FoldReducer ℕ ℕ Unit Empty where
  strictToAcc l := .ok l
  foldAccAcc a b := .ok (10 * a + b, ())

/-- One worker. -/
def oneWorker : ParallelTreeFolder ℕ ℕ Unit Empty := ⟨digits, 1⟩

/-- The producer pushes both leaves, then the worker goes on for a number of steps. -/
def twoLeavesAfter (k : ℕ) : Config (State ℕ ℕ) Thread (Label ℕ ℕ) :=
  (oneWorker.initial [3, 5]).exec (oneWorker.code [3, 5])
    (List.replicate 4 .producer ++ List.replicate k (.worker 0))

theorem root_ready_foldRoot_two :
    ∃ b v, ((((twoLeavesAfter 45).next (oneWorker.code [3, 5])
        (.worker 0)).state).tasks 0).bufferId = some b ∧
      (((twoLeavesAfter 45).next (oneWorker.code [3, 5]) (.worker 0)).state).blocks b = some v ∧
      foldRoot oneWorker.reducer [3, 5] = .ok v :=
  root_ready_foldRoot (by decide) ⟨_, rfl, steps_exec _ _⟩ (step_next rfl) (by decide) rfl

end Rounds

end NexusVm.Nova.ParallelTree
