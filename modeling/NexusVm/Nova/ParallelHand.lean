import NexusVm.Nova.ParallelOwn

/-!
# Handing tasks over in the parallel fold

Tasks and buffers change their owners in four places: the first child that is ready is
deposited with the parent, the worker of the second one takes over both and the parent,
the root is left for the caller, and the caller takes it after the stop flag is set.
-/

namespace NexusVm.Nova.ParallelTree

section Transfer

variable {L P Proof E : Type} {R : FoldReducer L P Proof E} {leaves : List L}
  {numBlocks numWorkers : ℕ} {s : State L P} {rs : Thread → Res P} {t : Thread}

/-- The other child of the same parent. -/
def sibling (c : ℕ) : ℕ := if c % 2 = 1 then c + 1 else c - 1

theorem child_cases {c : ℕ} (hc : 0 < c) :
    c = 2 * up c + 1 ∧ sibling c = 2 * up c + 2 ∨ c = 2 * up c + 2 ∧ sibling c = 2 * up c + 1 := by
  unfold up sibling
  split_ifs with h
  · omega
  · omega

/-- Only the statuses of the children count for what a node waits for. -/
theorem deposits_congr {g g' : Ghost P} {j : ℕ}
    (h : ∀ c, 0 < c → up c = j → (g'.status c).Deposited = (g.status c).Deposited) :
    g'.deposits j = g.deposits j := by
  have hleft := h (2 * j + 1) (by omega) (by unfold up; omega)
  have hright := h (2 * j + 2) (by omega) (by unfold up; omega)
  simp only [Ghost.deposits, hleft, hright]

/-- The deposits of a parent, by child. -/
theorem deposits_up (g : Ghost P) {c : ℕ} (hc : 0 < c) :
    g.deposits (up c) = (if (g.status c).Deposited then 1 else 0) +
      if (g.status (sibling c)).Deposited then 1 else 0 := by
  unfold Ghost.deposits
  rcases child_cases hc with ⟨h₁, h₂⟩ | ⟨h₁, h₂⟩
  · rw [h₂, ← h₁]
  · rw [h₂, ← h₁, Nat.add_comm]

/-- **The first child** that is ready is deposited with its buffer. -/
theorem Inv.deposit (h : Inv R leaves numBlocks numWorkers s rs) {c b : ℕ} {v : P} (hc : 0 < c)
    (hr : (rs t).tasks c = some (.making, ⟨some b, readyState leaves c⟩))
    (hb : (rs t).bufs b = some (some v)) (hv : Folded R leaves c v)
    (hstate : (s.tasks (up c)).state = NodeState.notStarted) :
    Inv R leaves numBlocks numWorkers
      (s.setTask (up c) { s.tasks (up c) with state := NodeState.waitingOneChild })
      (Function.update rs t (((rs t).setTask c none).setBuf b none)) := by
  obtain ⟨g, hview, ht, hp, hq, hf⟩ := h
  obtain ⟨hown, htask⟩ := hview.owned hr
  obtain ⟨hbuf, hblock⟩ := hview.buf hb
  have hwait : g.status (up c) = .waiting := ht.pending c hc (by rw [hown]; trivial)
  obtain ⟨hlt, hparent, -⟩ := ht.waiting _ hwait
  have hup : up c < c := by
    unfold up
    omega
  have hdeps : g.deposits (up c) = 0 := by
    rw [hparent] at hstate
    exact hstate
  let g' : Ghost P :=
    { g with status := Function.update g.status c (.deposited b v)
             buf := Function.update g.buf b (.held c) }
  have hself : g'.status c = .deposited b v := Function.update_self _ _ _
  have hother : ∀ j, j ≠ c → g'.status j = g.status j := fun j hj => Function.update_of_ne hj _ _
  have hselfb : g'.buf b = .held c := Function.update_self _ _ _
  have hotherb : ∀ d, d ≠ b → g'.buf d = g.buf d := fun d hd => Function.update_of_ne hd _ _
  have hdeps' : g'.deposits (up c) = 1 := by
    have hsib : sibling c ≠ c := by
      rcases child_cases hc with ⟨h₁, h₂⟩ | ⟨h₁, h₂⟩ <;> omega
    rw [deposits_up g hc] at hdeps
    rw [deposits_up g' hc, hself, hother _ hsib]
    simp only [hown, Status.Deposited] at hdeps ⊢
    simp only [Bool.false_eq_true, if_false, if_true] at hdeps ⊢
    omega
  refine ⟨g', ?_, ?_, ?_, ?_, ?_⟩
  · refine hview.move (hview.setStatus c (.deposited b v) (Function.update s.tasks (up c) _)
      (fun _ hu => Status.view_of_ne hown hu _) (fun _ _ => rfl) ?_) (hview.setHolder b (.held c)
        s.blocks (fun _ hu => Holder.view_of_ne hbuf hu _) (fun _ _ => rfl) fun _ _ => rfl)
      rfl rfl rfl rfl
    intro j hj u
    by_cases hju : j = up c
    · rw [hju, hwait]
      rfl
    · rw [Function.update_of_ne hju]
  · show TreeInv R leaves (Function.update s.tasks (up c) _) s.blocks g'
    have htasks : ∀ j, j ≠ up c → Function.update s.tasks (up c)
        { s.tasks (up c) with state := NodeState.waitingOneChild } j = s.tasks j :=
      fun j hj => Function.update_of_ne hj _ _
    constructor
    · intro j
      rw [← ht.outside]
      by_cases hj : j = c
      · rw [hj, hself, hown]
        constructor <;> intro hout <;> cases hout
      · rw [hother j hj]
    · intro j hj
      have hjc : j ≠ c := by
        rintro rfl
        rw [hself] at hj
        cases hj
      rw [hother j hjc] at hj
      rw [htasks j (by rintro rfl; rw [hwait] at hj; cases hj)]
      exact ht.fresh j hj
    · intro j hj
      have hjc : j ≠ c := by
        rintro rfl
        rw [hself] at hj
        cases hj
      rw [hother j hjc] at hj
      by_cases hju : j = up c
      · rw [hju, Function.update_self, hdeps', hparent]
        exact ⟨hlt, rfl, le_refl 1⟩
      · have hsame : g'.deposits j = g.deposits j := by
          apply deposits_congr
          intro d _ hd
          rw [hother d (by rintro rfl; exact hju hd.symm)]
        rw [htasks j hju, hsame]
        exact ht.waiting j hj
    · intro j d w hj
      by_cases hjc : j = c
      · rw [hjc, hself] at hj
        obtain ⟨rfl, rfl⟩ := Status.deposited.inj hj
        rw [hjc, htasks c hup.ne', htask, hselfb]
        exact ⟨rfl, rfl, hblock, hv⟩
      · rw [hother j hjc] at hj
        obtain ⟨htask', hheld, hblock', hfolded⟩ := ht.deposited j d w hj
        rw [htasks j (by rintro rfl; rw [hwait] at hj; cases hj),
          hotherb d (by rintro rfl; rw [hbuf] at hheld; cases hheld)]
        exact ⟨htask', hheld, hblock', hfolded⟩
    · intro i hi hpend
      have hne : up i ≠ c ∨ i = c := by
        by_cases hic : i = c
        · exact Or.inr hic
        · left
          rw [hother i hic] at hpend
          intro heq
          have := ht.pending i hi hpend
          rw [heq, hown] at this
          cases this
      rcases hne with hne | rfl
      · rw [hother _ hne]
        by_cases hic : i = c
        · rw [hic]
          exact hwait
        · rw [hother i hic] at hpend
          exact ht.pending i hi hpend
      · rw [hother _ hup.ne]
        exact hwait
    · intro i hi hw
      have hne : up i ≠ c := by
        intro heq
        rw [heq, hself] at hw
        cases hw
      rw [hother _ hne] at hw
      by_cases hic : i = c
      · rw [hic, hself]
        trivial
      · rw [hother i hic]
        exact ht.consumed i hi hw
    · intro u hu
      rw [hother 0 hc.ne] at hu
      rw [htasks 0 (by intro heq; rw [heq, hwait] at hu; cases hu)]
      exact ht.root u hu
  · refine hp.pass (by rw [hbuf]; rintro ⟨⟩) Holder.noConfusion rfl ?_ ?_
    · rintro _ ⟨⟩
      exact ⟨v, hself⟩
    · intro i d w _ hi
      rw [hother i (by rintro rfl; rw [hown] at hi; cases hi)]
      exact hi
  · refine hq.congr rfl ?_ ?_
    · intro i
      by_cases hic : i = c
      · rw [hic, hself, hown]
        constructor <;> intro hi <;> cases hi
      · rw [hother i hic]
    · intro u i hu
      by_cases hic : i = c
      · rw [hic, hself] at hu
        cases hu
      · rw [hother i hic] at hu
        exact Or.inl hu
  · refine hf.congr rfl rfl rfl rfl ?_ ?_ ?_
    · intro d w
      rw [hother 0 hc.ne]
    · intro u hu
      rwa [hother 0 hc.ne] at hu
    · intro hcall
      rw [hother 0 hc.ne]
      refine ⟨hcall, ?_⟩
      show (Function.update s.tasks (up c) _ 0).state = _
      rw [Function.update_of_ne]
      intro heq
      rw [heq, hwait] at hcall
      cases hcall

theorem up_sibling {c : ℕ} (hc : 0 < c) : up (sibling c) = up c := by
  rcases child_cases hc with ⟨-, h⟩ | ⟨-, h⟩
  · rw [h]
    unfold up
    omega
  · rw [h]
    unfold up
    omega

theorem sibling_pos {c : ℕ} (hc : 0 < c) : 0 < sibling c := by
  rcases child_cases hc with ⟨-, h⟩ | ⟨-, h⟩ <;> omega

/-- A child of the parent is the task or its sibling. -/
theorem eq_or_eq_sibling {c i : ℕ} (hc : 0 < c) (hi : 0 < i) (h : up i = up c) :
    i = c ∨ i = sibling c := by
  rcases child_cases hc with ⟨h₁, h₂⟩ | ⟨h₁, h₂⟩
  · rcases child_cases hi with ⟨h₃, -⟩ | ⟨h₃, -⟩ <;> omega
  · rcases child_cases hi with ⟨h₃, -⟩ | ⟨h₃, -⟩ <;> omega

/-- **The second child** that is ready finds the first one deposited, and its worker takes
over both children and the parent. -/
theorem Inv.acquire (h : Inv R leaves numBlocks numWorkers s rs) {c b : ℕ} {v : P} (hc : 0 < c)
    (hr : (rs t).tasks c = some (.making, ⟨some b, readyState leaves c⟩))
    (hb : (rs t).bufs b = some (some v))
    (hstate : (s.tasks (up c)).state ≠ NodeState.notStarted) :
    up c < leaves.length - 1 ∧ b < numBlocks ∧ ∃ d w, d < numBlocks ∧ d ≠ b ∧
      Folded R leaves (sibling c) w ∧ (rs t).tasks (up c) = none ∧ (rs t).bufs d = none ∧
      Inv R leaves numBlocks numWorkers s (Function.update rs t
        { rs t with
          tasks := Function.update (Function.update (Function.update (rs t).tasks
            (up c) (some (.making, ⟨none, NodeState.waitingOneChild⟩)))
            c (some (.taken, ⟨some b, readyState leaves c⟩)))
            (sibling c) (some (.taken, ⟨some d, readyState leaves (sibling c)⟩))
          bufs := Function.update (rs t).bufs d (some (some w)) }) := by
  obtain ⟨g, hview, ht, hp, hq, hf⟩ := h
  obtain ⟨hown, htask⟩ := hview.owned hr
  obtain ⟨hbuf, hblock⟩ := hview.buf hb
  have hwait : g.status (up c) = .waiting := ht.pending c hc (by rw [hown]; trivial)
  obtain ⟨hlt, hparent, hle⟩ := ht.waiting _ hwait
  have hupc : up c < c := by
    unfold up
    omega
  have hsib : sibling c ≠ c := by
    rcases child_cases hc with ⟨h₁, h₂⟩ | ⟨h₁, h₂⟩ <;> omega
  have hsibup : up c ≠ sibling c := by
    rcases child_cases hc with ⟨h₁, h₂⟩ | ⟨h₁, h₂⟩ <;> omega
  have hdeps : g.deposits (up c) = 1 := by
    rw [hparent] at hstate
    have hne : g.deposits (up c) ≠ 0 := hstate
    omega
  -- the one deposit is the sibling's
  obtain ⟨d, w, hdep⟩ : ∃ d w, g.status (sibling c) = .deposited d w := by
    rw [deposits_up g hc, hown] at hdeps
    cases hst : g.status (sibling c) with
    | deposited d w => exact ⟨d, w, rfl⟩
    | _ =>
        rw [hst] at hdeps
        cases hdeps
  obtain ⟨hsibtask, hheld, hsibblock, hfolded⟩ := ht.deposited _ d w hdep
  have hdb : d ≠ b := by
    rintro rfl
    rw [hbuf] at hheld
    cases hheld
  let mode : ℕ → Mode := fun j => if j = up c then .making else .taken
  let g' : Ghost P :=
    { g with
      status := fun j =>
        if j = up c ∨ j = c ∨ j = sibling c then .owned t (mode j) else g.status j
      buf := Function.update g.buf d (.owned t) }
  have hin : ∀ j, j = up c ∨ j = c ∨ j = sibling c → g'.status j = .owned t (mode j) :=
    fun j hj => if_pos hj
  have hout : ∀ j, ¬(j = up c ∨ j = c ∨ j = sibling c) → g'.status j = g.status j :=
    fun j hj => if_neg hj
  have hselfb : g'.buf d = .owned t := Function.update_self _ _ _
  have hotherb : ∀ e, e ≠ d → g'.buf e = g.buf e := fun e he => Function.update_of_ne he _ _
  -- what was fresh, waiting or deposited elsewhere
  have hfresh : ∀ j, g'.status j = .fresh ↔ g.status j = .fresh := by
    intro j
    by_cases hj : j = up c ∨ j = c ∨ j = sibling c
    · rw [hin j hj]
      rcases hj with rfl | rfl | rfl
      · simp [hwait]
      · simp [hown]
      · simp [hdep]
    · rw [hout j hj]
  have hwaiting : ∀ j, g'.status j = .waiting ↔ g.status j = .waiting ∧ j ≠ up c := by
    intro j
    by_cases hj : j = up c ∨ j = c ∨ j = sibling c
    · rw [hin j hj]
      rcases hj with rfl | rfl | rfl
      · simp
      · simp [hown]
      · simp [hdep]
    · rw [hout j hj]
      constructor
      · intro hjw
        exact ⟨hjw, fun heq => hj (Or.inl heq)⟩
      · exact fun hjw => hjw.1
  have hdeposited : ∀ j e x, g'.status j = .deposited e x →
      g.status j = .deposited e x ∧ j ≠ sibling c := by
    intro j e x hje
    by_cases hj : j = up c ∨ j = c ∨ j = sibling c
    · rw [hin j hj] at hje
      cases hje
    · rw [hout j hj] at hje
      exact ⟨hje, fun heq => hj (Or.inr (Or.inr heq))⟩
  have hmaking : ∀ u j, g'.status j = .owned u .making → g.status j = .owned u .making ∨
      j = up c ∧ u = t := by
    intro u j hu
    by_cases hj : j = up c ∨ j = c ∨ j = sibling c
    · rw [hin j hj] at hu
      obtain ⟨rfl, hm⟩ := Status.owned.inj hu
      refine Or.inr ⟨?_, rfl⟩
      by_contra hne
      rw [show mode j = .taken from if_neg hne] at hm
      cases hm
    · rw [hout j hj] at hu
      exact Or.inl hu
  refine ⟨hlt, hp.inRange b (by rw [hbuf]; exact Holder.noConfusion), d, w,
    hp.inRange d (by rw [hheld]; exact Holder.noConfusion), hdb, hfolded,
    by rw [hview.tasks, hwait]; rfl, by rw [hview.bufs, hheld]; rfl, g', ?_, ?_, ?_, ?_, ?_⟩
  · have hbufs := hview.setHolder d (.owned t) s.blocks (fun _ _ => by rw [hheld]; rfl)
      (fun _ hu => Holder.view_of_ne rfl hu _) fun _ _ => rfl
    rw [Holder.view, if_pos rfl, hsibblock] at hbufs
    refine hview.move ⟨fun j => ?_, fun u hu j => ?_⟩ hbufs rfl rfl rfl rfl
    · show Function.update (Function.update (Function.update (rs t).tasks (up c) _) c _)
        (sibling c) _ j = (g'.status j).view t (s.tasks j)
      by_cases hj : j = up c ∨ j = c ∨ j = sibling c
      · rw [hin j hj, Status.view, if_pos rfl]
        rcases hj with rfl | rfl | rfl
        · rw [Function.update_of_ne hsibup, Function.update_of_ne hupc.ne, Function.update_self,
            hparent, hdeps, show mode (up c) = .making from if_pos rfl]
          rfl
        · rw [Function.update_of_ne hsib.symm, Function.update_self, htask,
            show mode j = .taken from if_neg hupc.ne']
        · rw [Function.update_self, hsibtask,
            show mode (sibling c) = .taken from if_neg hsibup.symm]
      · rw [hout j hj]
        push Not at hj
        rw [Function.update_of_ne hj.2.2, Function.update_of_ne hj.2.1,
          Function.update_of_ne hj.1, hview.tasks]
    · by_cases hj : j = up c ∨ j = c ∨ j = sibling c
      · rw [Status.view_of_ne (hin j hj) hu]
        rcases hj with rfl | rfl | rfl
        · rw [hwait]
          rfl
        · rw [Status.view_of_ne hown hu]
        · rw [hdep]
          rfl
      · rw [hout j hj]
  · constructor
    · intro j
      rw [← ht.outside]
      by_cases hj : j = up c ∨ j = c ∨ j = sibling c
      · rw [hin j hj]
        rcases hj with rfl | rfl | rfl
        · simp [hwait]
        · simp [hown]
        · simp [hdep]
      · rw [hout j hj]
    · intro j hj
      exact ht.fresh j ((hfresh j).mp hj)
    · intro j hj
      obtain ⟨hjw, hjc⟩ := (hwaiting j).mp hj
      have hsame : g'.deposits j = g.deposits j := by
        apply deposits_congr
        intro i hi hij
        by_cases hic : i = up c ∨ i = c ∨ i = sibling c
        · rw [hin i hic]
          rcases hic with rfl | rfl | rfl
          · rw [hwait]
            rfl
          · exact absurd hij.symm hjc
          · exact absurd (hij.symm.trans (up_sibling hc)) hjc
        · rw [hout i hic]
      rw [hsame]
      exact ht.waiting j hjw
    · intro j e x hj
      obtain ⟨hje, hjs⟩ := hdeposited j e x hj
      obtain ⟨htask', hheld', hblock', hfolded'⟩ := ht.deposited j e x hje
      refine ⟨htask', ?_, hblock', hfolded'⟩
      rw [hotherb e, hheld']
      rintro rfl
      rw [hheld] at hheld'
      exact hjs (Holder.held.inj hheld').symm
    · intro i hi hpend
      rw [hwaiting]
      by_cases hj : i = up c ∨ i = c ∨ i = sibling c
      · rw [hin i hj] at hpend
        rcases hj with rfl | rfl | rfl
        · refine ⟨ht.pending _ hi (by rw [hwait]; trivial), ?_⟩
          unfold up at hi ⊢
          omega
        · rw [show mode i = .taken from if_neg hupc.ne'] at hpend
          exact hpend.elim
        · rw [show mode (sibling c) = .taken from if_neg hsibup.symm] at hpend
          exact hpend.elim
      · rw [hout i hj] at hpend
        refine ⟨ht.pending i hi hpend, ?_⟩
        intro heq
        rcases eq_or_eq_sibling hc hi heq with rfl | rfl
        · exact hj (Or.inr (Or.inl rfl))
        · exact hj (Or.inr (Or.inr rfl))
    · intro i hi hw
      obtain ⟨hiw, hic⟩ := (hwaiting _).mp hw
      by_cases hj : i = up c ∨ i = c ∨ i = sibling c
      · rcases hj with rfl | rfl | rfl
        · rw [hin _ (Or.inl rfl), show mode (up c) = .making from if_pos rfl]
          trivial
        · exact absurd rfl hic
        · exact absurd (up_sibling hc) hic
      · rw [hout i hj]
        exact ht.consumed i hi hiw
    · intro u hu
      rcases hmaking u 0 hu with hu | ⟨h0, rfl⟩
      · exact ht.root u hu
      · rw [h0, hparent, hdeps]
        exact Nat.ne_of_beq_eq_false rfl
  · refine hp.pass (by rw [hheld]; rintro ⟨⟩) Holder.noConfusion rfl (by rintro _ ⟨⟩) ?_
    intro i e x hed hx
    rw [hout i, hx]
    rintro (rfl | rfl | rfl)
    · rw [hwait] at hx
      cases hx
    · rw [hown] at hx
      cases hx
    · rw [hdep] at hx
      exact hed (Status.deposited.inj hx).1.symm
  · refine hq.congr rfl hfresh ?_
    intro u i hu
    rcases hmaking u i hu with hu | ⟨rfl, -⟩
    · exact Or.inl hu
    · exact Or.inr hlt
  · have hroot : g.status 0 = .owned .caller .taken → g'.status 0 = .owned .caller .taken := by
      intro hcall
      rw [hout 0, hcall]
      rintro (h0 | h0 | h0)
      · rw [h0, hwait] at hcall
        cases hcall
      · exact hc.ne h0
      · exact (sibling_pos hc).ne h0
    refine hf.congr rfl rfl rfl rfl ?_ ?_ fun hcall => ⟨hroot hcall, rfl⟩
    · intro e x
      by_cases hj : 0 = up c ∨ 0 = c ∨ 0 = sibling c
      · rw [hin 0 hj]
        rcases hj with h0 | h0 | h0
        · rw [h0, hwait]
          simp
        · exact absurd h0 hc.ne
        · exact absurd h0 (sibling_pos hc).ne
      · rw [hout 0 hj]
    · intro u hu
      by_cases hj : 0 = up c ∨ 0 = c ∨ 0 = sibling c
      · rw [hin 0 hj] at hu
        rcases hj with h0 | h0 | h0
        · rw [show mode 0 = .making from if_pos h0] at hu
          cases hu
        · exact absurd h0 hc.ne
        · exact absurd h0 (sibling_pos hc).ne
      · rwa [hout 0 hj] at hu

/-- Statuses of tasks that nobody has touched. -/
def Status.Plain : Status P → Prop
  | .outside => True
  | .fresh => True
  | .waiting => True
  | _ => False

/-- Where a task that was touched gets another status, the untouched ones stay. -/
theorem Status.plain_update {f : ℕ → Status P} {i : ℕ} {x st : Status P} (hx : ¬x.Plain)
    (hi : ¬(f i).Plain) (hst : st.Plain) (j : ℕ) :
    Function.update f i x j = st ↔ f j = st := by
  by_cases hj : j = i
  · rw [hj, Function.update_self]
    constructor
    · rintro rfl
      exact absurd hst hx
    · rintro rfl
      exact absurd hst hi
  · rw [Function.update_of_ne hj]

/-- The root may be deposited, and taken by the caller, without the other tasks. -/
theorem TreeInv.atRoot {tasks tasks' : ℕ → Task} {blocks : ℕ → Option P} {g g' : Ghost P}
    (h : TreeInv R leaves tasks blocks g) (hother : ∀ j, j ≠ 0 → g'.status j = g.status j)
    (hzero : ∀ j st, st.Plain → (g'.status j = st ↔ g.status j = st)) (hroot : ¬(g'.status 0).Plain)
    (hmaking : ∀ u, g'.status 0 ≠ .owned u .making) (htasks : ∀ j, j ≠ 0 → tasks' j = tasks j)
    (hdeposited : ∀ j b v, g'.status j = .deposited b v → tasks' j = ⟨some b, readyState leaves j⟩ ∧
      g'.buf b = .held j ∧ blocks b = some v ∧ Folded R leaves j v) :
    TreeInv R leaves tasks' blocks g' := by
  have hne : ∀ j, (g'.status j).Plain → j ≠ 0 := by
    rintro j hj rfl
    exact hroot hj
  have hdeps : ∀ j, g'.deposits j = g.deposits j := by
    intro j
    apply deposits_congr
    intro i hi _
    rw [hother i hi.ne']
  constructor
  · intro j
    rw [← h.outside, hzero j .outside trivial]
  · intro j hj
    rw [htasks j (hne j (by rw [hj]; trivial))]
    exact h.fresh j ((hzero j .fresh trivial).mp hj)
  · intro j hj
    rw [htasks j (hne j (by rw [hj]; trivial)), hdeps]
    exact h.waiting j ((hzero j .waiting trivial).mp hj)
  · exact hdeposited
  · intro i hi hpend
    rw [hother i hi.ne'] at hpend
    rw [hzero _ .waiting trivial]
    exact h.pending i hi hpend
  · intro i hi hw
    rw [hzero _ .waiting trivial] at hw
    rw [hother i hi.ne']
    exact h.consumed i hi hw
  · intro u hu
    exact absurd hu (hmaking u)

/-- **The root** that is ready keeps its buffer for the caller. -/
theorem Inv.publishRoot (h : Inv R leaves numBlocks numWorkers s rs) {b : ℕ} {v : P}
    (hr : (rs t).tasks 0 = some (.making, ⟨some b, NodeState.processing⟩))
    (hb : (rs t).bufs b = some (some v)) (hv : Folded R leaves 0 v) (hn : 0 < leaves.length - 1) :
    Inv R leaves numBlocks numWorkers
      (s.setTask 0 { s.tasks 0 with state := NodeState.processedWaitingForConsumption })
      (Function.update rs t
        { ((rs t).setTask 0 none).setBuf b none with sawRoot := true }) := by
  obtain ⟨g, hview, ht, hp, hq, hf⟩ := h
  obtain ⟨hown, htask⟩ := hview.owned hr
  obtain ⟨hbuf, hblock⟩ := hview.buf hb
  let g' : Ghost P :=
    { g with status := Function.update g.status 0 (.deposited b v)
             buf := Function.update g.buf b (.held 0) }
  have hself : g'.status 0 = .deposited b v := Function.update_self 0 _ g.status
  have hother : ∀ j, j ≠ 0 → g'.status j = g.status j := fun j hj => Function.update_of_ne hj _ _
  have hselfb : g'.buf b = .held 0 := Function.update_self _ _ _
  have hotherb : ∀ d, d ≠ b → g'.buf d = g.buf d := fun d hd => Function.update_of_ne hd _ _
  have hzero : ∀ j st, st.Plain → (g'.status j = st ↔ g.status j = st) :=
    fun j st hst => Status.plain_update id (by rw [hown]; exact id) hst j
  have htasks : ∀ j, j ≠ 0 → (s.setTask 0
      { s.tasks 0 with state := NodeState.processedWaitingForConsumption }).tasks j = s.tasks j :=
    fun j hj => s.setTask_of_ne hj _
  have hne : ∀ j, g'.status j ≠ .deposited b v → j ≠ 0 := by
    rintro j hj rfl
    exact hj hself
  refine ⟨g', ?_, ?_, ?_, ?_, ?_⟩
  · exact hview.move (hview.setStatus 0 (.deposited b v) (s.setTask 0 _).tasks
      (fun _ hu => Status.view_of_ne hown hu _) (fun _ _ => rfl) fun j hj _ => by rw [htasks j hj])
      (hview.setHolder b (.held 0) s.blocks (fun _ hu => Holder.view_of_ne hbuf hu _)
        (fun _ _ => rfl) fun _ _ => rfl) rfl rfl rfl rfl
  · refine ht.atRoot hother hzero (by rw [hself]; exact id) (by rw [hself]; rintro _ ⟨⟩) htasks ?_
    intro j d w hj
    by_cases hj0 : j = 0
    · rw [hj0, hself] at hj
      obtain ⟨rfl, rfl⟩ := Status.deposited.inj hj
      rw [hj0, State.setTask_self, htask, hselfb, readyState, if_pos hn]
      exact ⟨rfl, rfl, hblock, hv⟩
    · rw [hother j hj0] at hj
      obtain ⟨htask', hheld, hblock', hfolded⟩ := ht.deposited j d w hj
      rw [htasks j hj0, hotherb d (by rintro rfl; rw [hbuf] at hheld; cases hheld)]
      exact ⟨htask', hheld, hblock', hfolded⟩
  · refine hp.pass (by rw [hbuf]; rintro ⟨⟩) Holder.noConfusion rfl ?_ ?_
    · rintro _ ⟨⟩
      exact ⟨v, hself⟩
    · intro i d w _ hi
      rw [hother i (by rintro rfl; rw [hown] at hi; cases hi)]
      exact hi
  · refine hq.congr rfl (fun i => hzero i _ trivial) ?_
    intro u i hu
    have hi : i ≠ 0 := hne i (by rw [hu]; rintro ⟨⟩)
    rw [hother i hi] at hu
    exact Or.inl hu
  · have htok : (rs .caller).token = true := by
      by_contra htok
      obtain ⟨-, hcall, -⟩ := hf.token (by simpa using htok)
      rw [hown] at hcall
      cases hcall
    have htok' : ∀ u, (Function.update rs t
        { ((rs t).setTask 0 none).setBuf b none with sawRoot := true } u).token = (rs u).token :=
      field_update Res.token rfl
    have hstop' : ∀ u, (Function.update rs t
        { ((rs t).setTask 0 none).setBuf b none with sawRoot := true } u).sawStop =
          (rs u).sawStop :=
      field_update Res.sawStop rfl
    constructor
    · exact fun _ _ => Or.inr ⟨b, v, hself⟩
    · exact fun _ => Or.inr ⟨b, v, hself⟩
    · intro u hu
      rw [hstop'] at hu
      exact hf.sawStop u hu
    · intro hfalse
      rw [htok', htok] at hfalse
      cases hfalse
    · intro u hu
      rw [hself] at hu
      cases hu
    · exact fun _ _ _ => Or.inr ⟨t, by rw [Function.update_self]⟩

/-- A thread that has seen the root ready sets the stop flag, which may be set. -/
theorem Inv.setStop (h : Inv R leaves numBlocks numWorkers s rs)
    (hsaw : (rs t).sawRoot = true ∨ (rs t).sawStop = true ∨ s.stop = true) :
    Inv R leaves numBlocks numWorkers { s with stop := true }
      (Function.update rs t { rs t with sawStop := true }) := by
  obtain ⟨g, hview, ht, hp, hq, hf⟩ := h
  have htok : ∀ u, (Function.update rs t { rs t with sawStop := true } u).token =
      (rs u).token := field_update Res.token rfl
  have hroot : ∀ u, (Function.update rs t { rs t with sawStop := true } u).sawRoot =
      (rs u).sawRoot := field_update Res.sawRoot rfl
  refine ⟨g, ?_, ht, hp, hq, ?_⟩
  · exact hview.move ⟨hview.tasks t, fun _ _ _ => rfl⟩ ⟨hview.bufs t, fun _ _ _ => rfl⟩ rfl rfl rfl
      rfl
  · constructor
    · intro u hu
      rw [hroot] at hu
      rw [htok]
      exact hf.sawRoot u hu
    · intro _
      rw [htok]
      rcases hsaw with hsaw | hsaw | hstop
      · exact hf.sawRoot t hsaw
      · exact hf.stop (hf.sawStop t hsaw)
      · exact hf.stop hstop
    · exact fun _ _ => rfl
    · intro hfalse
      rw [htok] at hfalse
      obtain ⟨-, hcall, hstate⟩ := hf.token hfalse
      exact ⟨rfl, hcall, hstate⟩
    · rw [htok]
      exact hf.taken
    · exact fun _ _ _ => Or.inl rfl

/-- A thread finds the stop flag set. -/
theorem Inv.sawStop (h : Inv R leaves numBlocks numWorkers s rs) (hstop : s.stop = true)
    (t : Thread) :
    Inv R leaves numBlocks numWorkers s
      (Function.update rs t { rs t with sawStop := true }) := by
  have hset := h.setStop (t := t) (Or.inr (Or.inr hstop))
  have hsame : { s with stop := true } = s := by rw [← hstop]
  rwa [hsame] at hset

/-- **The caller** finds the stop flag set and takes the root. -/
theorem Inv.takeRoot (h : Inv R leaves numBlocks numWorkers s rs) (hstop : s.stop = true)
    (htok : (rs .caller).token = true) (hn : 0 < leaves.length - 1) :
    ∃ b v, b < numBlocks ∧ Folded R leaves 0 v ∧
      Inv R leaves numBlocks numWorkers s (Function.update rs .caller
        { rs .caller with
          tasks := Function.update (rs .caller).tasks 0
            (some (.taken, ⟨some b, NodeState.processedWaitingForConsumption⟩))
          bufs := Function.update (rs .caller).bufs b (some (some v))
          token := false
          sawStop := true }) := by
  obtain ⟨g, hview, ht, hp, hq, hf⟩ := h
  obtain ⟨b, v, hdep⟩ : ∃ b v, g.status 0 = .deposited b v := by
    rcases hf.stop hstop with hfalse | hdep
    · rw [htok] at hfalse
      cases hfalse
    · exact hdep
  obtain ⟨htask, hheld, hblock, hfolded⟩ := ht.deposited 0 b v hdep
  rw [readyState, if_pos hn] at htask
  let g' : Ghost P :=
    { g with status := Function.update g.status 0 (.owned .caller .taken)
             buf := Function.update g.buf b (.owned .caller) }
  have hself : g'.status 0 = .owned .caller .taken := Function.update_self 0 _ g.status
  have hother : ∀ j, j ≠ 0 → g'.status j = g.status j := fun j hj => Function.update_of_ne hj _ _
  have hselfb : g'.buf b = .owned .caller := Function.update_self _ _ _
  have hotherb : ∀ d, d ≠ b → g'.buf d = g.buf d := fun d hd => Function.update_of_ne hd _ _
  have hzero : ∀ j st, st.Plain → (g'.status j = st ↔ g.status j = st) :=
    fun j st hst => Status.plain_update id (by rw [hdep]; exact id) hst j
  refine ⟨b, v, hp.inRange b (by rw [hheld]; exact Holder.noConfusion), hfolded, g', ?_, ?_, ?_,
    ?_, ?_⟩
  · have htasks := hview.setStatus 0 (.owned .caller .taken) s.tasks
      (fun _ _ => by rw [hdep]; rfl) (fun _ hu => Status.view_of_ne rfl hu _) fun _ _ _ => rfl
    have hbufs := hview.setHolder b (.owned .caller) s.blocks
      (fun _ _ => by rw [hheld]; rfl) (fun _ hu => Holder.view_of_ne rfl hu _) fun _ _ => rfl
    rw [Status.view, if_pos rfl, htask] at htasks
    rw [Holder.view, if_pos rfl, hblock] at hbufs
    exact hview.move htasks hbufs rfl rfl rfl rfl
  · refine ht.atRoot hother hzero (by rw [hself]; exact id) (by rw [hself]; rintro _ ⟨⟩)
      (fun _ _ => rfl) ?_
    intro j d w hj
    by_cases hj0 : j = 0
    · rw [hj0, hself] at hj
      cases hj
    · rw [hother j hj0] at hj
      obtain ⟨htask', hheld', hblock', hfolded'⟩ := ht.deposited j d w hj
      refine ⟨htask', ?_, hblock', hfolded'⟩
      rw [hotherb d, hheld']
      rintro rfl
      rw [hheld] at hheld'
      exact hj0 (Holder.held.inj hheld').symm
  · refine hp.pass (by rw [hheld]; rintro ⟨⟩) Holder.noConfusion rfl (by rintro _ ⟨⟩) ?_
    intro i d w hd hi
    rw [hother i, hi]
    rintro rfl
    rw [hdep] at hi
    exact hd (Status.deposited.inj hi).1.symm
  · refine hq.congr rfl (fun i => hzero i _ trivial) ?_
    intro u i hu
    by_cases hi : i = 0
    · rw [hi, hself] at hu
      cases hu
    · rw [hother i hi] at hu
      exact Or.inl hu
  · constructor
    · exact fun _ _ => Or.inl (by rw [Function.update_self])
    · exact fun _ => Or.inl (by rw [Function.update_self])
    · exact fun _ _ => hstop
    · intro _
      refine ⟨hstop, hself, ?_⟩
      rw [htask, readyState, if_pos hn]
    · exact fun _ _ => by rw [Function.update_self]
    · exact fun _ _ _ => Or.inl hstop

end Transfer

end NexusVm.Nova.ParallelTree
