import NexusVm.Nova.ParallelHand

/-!
# Tidy threads in the parallel fold

A task names its buffer.  A thread is tidy if the tasks that it owns name buffers that it
owns, no two the same one.  Then no task names a buffer that somebody else has.
-/

namespace NexusVm.Nova.ParallelTree

section Refers

variable {P : Type} {r r' : Res P}

/-- A task that the thread owns names a buffer. -/
def Res.Refers (r : Res P) (i b : ℕ) : Prop :=
  ∃ m task, r.tasks i = some (m, task) ∧ task.bufferId = some b

/-- The tasks that a thread owns name buffers that it owns, each another one. -/
structure Tidy (r : Res P) : Prop where
  bufs : ∀ i b, r.Refers i b → r.bufs b ≠ none
  unique : ∀ i j b, r.Refers i b → r.Refers j b → i = j

variable {task : Task} {i b : ℕ}

variable {m : Mode}

theorem refers_iff (h : r.tasks i = some (m, task)) :
    r.Refers i b ↔ task.bufferId = some b := by
  constructor
  · rintro ⟨m', task', htask, hid⟩
    rw [h] at htask
    obtain ⟨-, rfl⟩ := Prod.mk.inj (Option.some.inj htask)
    exact hid
  · exact fun hid => ⟨m, task, h, hid⟩

theorem not_refers_of_none (h : r.tasks i = none) : ¬r.Refers i b := by
  rintro ⟨m, task, htask, -⟩
  rw [h] at htask
  cases htask

theorem refers_congr (htasks : r'.tasks = r.tasks) : r'.Refers i b ↔ r.Refers i b := by
  unfold Res.Refers
  rw [htasks]

theorem refers_setTask_self :
    (r.setTask i (some (m, task))).Refers i b ↔ task.bufferId = some b :=
  refers_iff (Res.setTask_self r i _)

theorem refers_setTask_of_ne {i j b : ℕ} (h : j ≠ i) (x : Option (Mode × Task)) :
    (r.setTask i x).Refers j b ↔ r.Refers j b := by
  unfold Res.Refers
  rw [Res.setTask_of_ne r h]

/-- Fewer names, and the named buffers are still there. -/
theorem Tidy.mono (h : Tidy r) (hrefs : ∀ i b, r'.Refers i b → r.Refers i b)
    (hbufs : ∀ i b, r'.Refers i b → r.bufs b ≠ none → r'.bufs b ≠ none) : Tidy r' := by
  constructor
  · exact fun i b hi => hbufs i b hi (h.bufs i b (hrefs i b hi))
  · exact fun i j b hi hj => h.unique i j b (hrefs i b hi) (hrefs j b hj)

theorem Tidy.congr (h : Tidy r) (htasks : r'.tasks = r.tasks) (hbufs : r'.bufs = r.bufs) :
    Tidy r' := by
  refine h.mono (fun i b hi => (refers_congr htasks).mp hi) fun i b _ hb => ?_
  rwa [hbufs]

/-- A thread without tasks is tidy. -/
theorem tidy_of_none (h : ∀ i, r.tasks i = none) : Tidy r :=
  ⟨fun i _ hi => absurd hi (not_refers_of_none (h i)),
    fun i _ _ hi _ => absurd hi (not_refers_of_none (h i))⟩

/-- A task that names nothing new. -/
theorem Tidy.setTask (h : Tidy r) {i : ℕ} (hid : ∀ b, task.bufferId = some b → r.Refers i b) :
    Tidy (r.setTask i (some (m, task))) := by
  refine h.mono (fun j b hj => ?_) fun _ _ _ hb => hb
  by_cases hji : j = i
  · rw [hji] at hj ⊢
    exact hid b (refers_setTask_self.mp hj)
  · exact (refers_setTask_of_ne hji _).mp hj

/-- A task gets a buffer that no task names. -/
theorem Tidy.setId (h : Tidy r) (hid : task.bufferId = some b) (hb : r.bufs b ≠ none)
    (hfree : ∀ j, j ≠ i → ¬r.Refers j b) : Tidy (r.setTask i (some (m, task))) := by
  have hself : ∀ d, (r.setTask i (some (m, task))).Refers i d → d = b := by
    intro d hd
    have hname := refers_setTask_self.mp hd
    rw [hid] at hname
    exact (Option.some.inj hname).symm
  constructor
  · intro j d hj
    by_cases hji : j = i
    · rw [hji] at hj
      rw [hself d hj]
      exact hb
    · exact h.bufs j d ((refers_setTask_of_ne hji _).mp hj)
  · intro j k d hj hk
    by_cases hji : j = i
    · rw [hji] at hj ⊢
      by_contra hki
      rw [refers_setTask_of_ne (Ne.symm hki), hself d hj] at hk
      exact hfree k (Ne.symm hki) hk
    · rw [refers_setTask_of_ne hji] at hj
      by_cases hki : k = i
      · rw [hki] at hk
        rw [hself d hk] at hj
        exact absurd hj (hfree j hji)
      · exact h.unique j k d hj ((refers_setTask_of_ne hki _).mp hk)

theorem Tidy.setBuf (h : Tidy r) (b : ℕ) (x : Option P) : Tidy (r.setBuf b (some x)) := by
  refine h.mono (fun _ _ hi => hi) fun i d _ hd => ?_
  by_cases hdb : d = b
  · rw [hdb, Res.setBuf_self]
    exact Option.some_ne_none x
  · rwa [Res.setBuf_of_ne r hdb]

/-- A buffer that no task names goes. -/
theorem Tidy.dropBuf (h : Tidy r) {b : ℕ} (hfree : ∀ i, ¬r.Refers i b) :
    Tidy (r.setBuf b none) := by
  refine h.mono (fun _ _ hi => hi) fun i d hi hd => ?_
  have hdb : d ≠ b := by
    rintro rfl
    exact hfree i hi
  rwa [Res.setBuf_of_ne r hdb]

/-- A task goes together with its buffer. -/
theorem Tidy.drop (h : Tidy r) (hi : r.Refers i b) :
    Tidy ((r.setTask i none).setBuf b none) := by
  have hnone : ∀ d, ¬(r.setTask i none).Refers i d :=
    fun d => not_refers_of_none (Res.setTask_self r i none)
  have htidy : Tidy (r.setTask i none) := by
    refine h.mono (fun j d hj => ?_) fun _ _ _ hd => hd
    by_cases hji : j = i
    · rw [hji] at hj
      exact absurd hj (hnone d)
    · exact (refers_setTask_of_ne hji _).mp hj
  apply htidy.dropBuf
  intro j hj
  by_cases hji : j = i
  · rw [hji] at hj
    exact hnone b hj
  · exact hji (h.unique j i b ((refers_setTask_of_ne hji _).mp hj) hi)

/-- The worker of the second child gets the node and the other child, with a buffer that
it did not have. -/
theorem Tidy.acquire (h : Tidy r) {i c e b d : ℕ} {w : P} {x y z : Task} {m m' m'' : Mode}
    (hc : r.Refers c b) (hx : x.bufferId = none) (hy : y.bufferId = some b)
    (hz : z.bufferId = some d) (hd : r.bufs d = none)
    (htasks : r'.tasks = Function.update (Function.update (Function.update r.tasks
      i (some (m, x))) c (some (m', y))) e (some (m'', z)))
    (hbufs : r'.bufs = Function.update r.bufs d (some (some w))) : Tidy r' := by
  have hfree : ∀ j, ¬r.Refers j d := fun j hj => h.bufs j d hj hd
  have hi : Tidy (r.setTask i (some (m, x))) := by
    apply h.setTask
    rw [hx]
    nofun
  have hnode : ∀ j a, (r.setTask i (some (m, x))).Refers j a → r.Refers j a := by
    intro j a hj
    by_cases hji : j = i
    · rw [hji, refers_setTask_self, hx] at hj
      cases hj
    · exact (refers_setTask_of_ne hji _).mp hj
  have hchild : Tidy ((r.setTask i (some (m, x))).setTask c (some (m', y))) := by
    apply hi.setId hy (h.bufs c b hc)
    intro j hj hjb
    exact hj (h.unique j c b (hnode j b hjb) hc)
  have hboth : Tidy ((((r.setTask i (some (m, x))).setTask c (some (m', y))).setBuf d
      (some (some w))).setTask e (some (m'', z))) := by
    apply (hchild.setBuf d (some w)).setId hz
    · rw [Res.setBuf_self]
      exact Option.some_ne_none _
    · intro j _ hj
      have hj' : ((r.setTask i (some (m, x))).setTask c (some (m', y))).Refers j d := hj
      by_cases hjc : j = c
      · rw [hjc, refers_setTask_self, hy] at hj'
        obtain rfl := Option.some.inj hj'
        exact h.bufs c b hc hd
      · exact hfree j (hnode j d ((refers_setTask_of_ne hjc _).mp hj'))
  exact hboth.congr htasks hbufs

end Refers

/-- No fold of two children's accumulators fails. -/
def FoldReducer.FoldsNodes {L P Proof E : Type} (R : FoldReducer L P Proof E)
    (leaves : List L) : Prop :=
  ∀ i a b e, i < leaves.length - 1 → Folded R leaves (2 * i + 1) a →
    Folded R leaves (2 * i + 2) b → R.foldAccAcc a b ≠ .error e

/-! ## The invariant with tidy threads -/

section Own

variable {L P Proof E : Type} (R : FoldReducer L P Proof E) (leaves : List L)
  (numBlocks numWorkers : ℕ) (K : Thread → Prop)

/-- The invariant, with some threads tidy. -/
structure OwnInv (s : State L P) (rs : Thread → Res P) : Prop where
  inv : Inv R leaves numBlocks numWorkers s rs
  tidy : ∀ t, K t → Tidy (rs t)

variable {R leaves numBlocks numWorkers K} {s s' : State L P} {rs : Thread → Res P} {t : Thread}
  {r' : Res P}

/-- One thread's step. -/
theorem OwnInv.update (h : OwnInv R leaves numBlocks numWorkers K s rs)
    (hI : Inv R leaves numBlocks numWorkers s' (Function.update rs t r'))
    (htidy : K t → Tidy (rs t) → Tidy r') :
    OwnInv R leaves numBlocks numWorkers K s' (Function.update rs t r') := by
  refine ⟨hI, fun u hu => ?_⟩
  by_cases hut : u = t
  · subst hut
    rw [Function.update_self]
    exact htidy hu (h.tidy u hu)
  · rw [Function.update_of_ne hut]
    exact h.tidy u hu

/-- Without tidy threads it is the invariant. -/
theorem ownInv_none : OwnInv R leaves numBlocks numWorkers (fun _ => False) =
    Inv R leaves numBlocks numWorkers := by
  funext s rs
  apply propext
  constructor
  · exact fun h => h.inv
  · exact fun h => ⟨h, nofun⟩

end Own

end NexusVm.Nova.ParallelTree
