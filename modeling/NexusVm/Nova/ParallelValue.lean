import NexusVm.Nova.ParallelOwn

/-!
# The sequential value of the parallel fold

A value for the root of the tree is what `fold_root` returns: the levels of the heap are
the lists of the sequential fold.
-/

namespace NexusVm.Nova.ParallelTree

section Values

variable {L P Proof E : Type} {R : FoldReducer L P Proof E} {leaves : List L}

/-- A task has at most one value. -/
theorem Folded.unique {i : ℕ} {v w : P} (hv : Folded R leaves i v) (hw : Folded R leaves i w) :
    v = w := by
  induction hv generalizing w with
  | leaf hi hl hacc =>
      cases hw with
      | leaf _ hl' hacc' =>
          obtain rfl := Option.some.inj (hl.symm.trans hl')
          exact Except.ok.inj (hacc.symm.trans hacc')
      | node hi' => omega
  | node hi _ _ hfold iha ihb =>
      cases hw with
      | leaf hi' => omega
      | node _ ha' hb' hfold' =>
          obtain rfl := iha ha'
          obtain rfl := ihb hb'
          exact (Prod.ext_iff.mp (Except.ok.inj (hfold.symm.trans hfold'))).1

/-- If the root has a value then every task has one. -/
theorem Folded.exists_of_root {v : P} (hroot : Folded R leaves 0 v) :
    ∀ i, i < 2 * leaves.length - 1 → ∃ w, Folded R leaves i w := by
  intro i
  induction i using Nat.strong_induction_on with
  | _ i ih =>
      intro hi
      by_cases h0 : i = 0
      · exact ⟨v, by rw [h0]; exact hroot⟩
      · have hup : up i < i := by
          unfold up
          omega
        obtain ⟨w, hw⟩ := ih (up i) hup (by omega)
        cases hw with
        | leaf hle =>
            unfold up at hle
            omega
        | @node _ a b _ _ _ ha hb _ =>
            have hchild : i = 2 * up i + 1 ∨ i = 2 * up i + 2 := by
              unfold up
              omega
            rcases hchild with hchild | hchild
            · exact ⟨a, by rw [hchild]; exact ha⟩
            · exact ⟨b, by rw [hchild]; exact hb⟩

/-- A list holds the values of a level of the tree. -/
def Level (R : FoldReducer L P Proof E) (leaves : List L) (k : ℕ) (current : List P) : Prop :=
  current.length = 2 ^ k ∧ ∀ (t : ℕ) a, current[t]? = some a → Folded R leaves (2 ^ k - 1 + t) a

/-- The leaves' accumulators are the last level. -/
theorem exists_level_leaves {k : ℕ} (hlen : leaves.length = 2 ^ k)
    (hall : ∀ i, i < 2 * leaves.length - 1 → ∃ w, Folded R leaves i w) :
    ∃ current, strictToAccLevel R leaves = .ok current ∧ Level R leaves k current := by
  have hacc : ∀ (t : ℕ) l, leaves[t]? = some l → ∃ a, R.strictToAcc l = .ok a := by
    intro t l hl
    obtain ⟨ht, -⟩ := List.getElem?_eq_some_iff.mp hl
    obtain ⟨w, hw⟩ := hall (leaves.length - 1 + t) (by omega)
    cases hw with
    | leaf _ hl' hv =>
        rw [Nat.add_sub_cancel_left, hl] at hl'
        obtain rfl := Option.some.inj hl'
        exact ⟨w, hv⟩
    | node hi => omega
  -- for the leaves from any position on
  have hmap : ∀ rest : List L, (∀ (t : ℕ) l, rest[t]? = some l → ∃ a, R.strictToAcc l = .ok a) →
      ∃ current, rest.mapM R.strictToAcc = .ok current ∧ current.length = rest.length ∧
        ∀ (t : ℕ) a, current[t]? = some a → ∃ l, rest[t]? = some l ∧ R.strictToAcc l = .ok a := by
    intro rest
    induction rest with
    | nil =>
        intro _
        exact ⟨[], rfl, rfl, fun t a ha => by simp at ha⟩
    | cons l rest ih =>
        intro hrest
        obtain ⟨a, ha⟩ := hrest 0 l rfl
        obtain ⟨current, hcurrent, hlength, hget⟩ := ih fun t l hl => hrest (t + 1) l hl
        refine ⟨a :: current, ?_, by rw [List.length_cons, hlength, List.length_cons], ?_⟩
        · rw [List.mapM_cons, ha, hcurrent]
          rfl
        · intro t b hb
          cases t with
          | zero => exact ⟨l, rfl, ha.trans (congrArg Except.ok (Option.some.inj hb))⟩
          | succ t => exact hget t b hb
  obtain ⟨current, hcurrent, hlength, hget⟩ := hmap leaves hacc
  refine ⟨current, hcurrent, hlength.trans hlen, ?_⟩
  intro t a ha
  obtain ⟨l, hl, hv⟩ := hget t a ha
  rw [← hlen]
  refine .leaf (by omega) ?_ hv
  rw [Nat.add_sub_cancel_left, hl]

/-- One level is folded to the next, pair by pair. -/
theorem exists_foldNextLevel (current : List P)
    (hfold : ∀ (t : ℕ) a b, current[2 * t]? = some a → current[2 * t + 1]? = some b →
      ∃ v proof, R.foldAccAcc a b = .ok (v, proof)) :
    ∃ next, foldNextLevel R current = .ok next ∧ ∀ (t : ℕ) v, next[t]? = some v → ∃ a b proof,
      current[2 * t]? = some a ∧ current[2 * t + 1]? = some b ∧
        R.foldAccAcc a b = .ok (v, proof) := by
  induction current using foldNextLevel.induct with
  | case1 a b current ih =>
      obtain ⟨parent, proof, hparent⟩ := hfold 0 a b rfl rfl
      obtain ⟨next, hnext, hget⟩ := ih fun t x y hx hy => hfold (t + 1) x y hx hy
      refine ⟨parent :: next, ?_, ?_⟩
      · unfold foldNextLevel
        rw [hparent, hnext]
        rfl
      · intro t v hv
        cases t with
        | zero =>
            obtain rfl := Option.some.inj hv
            exact ⟨a, b, proof, rfl, rfl, hparent⟩
        | succ t => exact hget t v hv
  | case2 current hshort =>
      refine ⟨[], ?_, fun t v hv => by simp at hv⟩
      unfold foldNextLevel
      split
      · exact absurd rfl (hshort _ _ _)
      · rfl

/-- A level above the leaves comes from the one below it. -/
theorem Level.next {k : ℕ} {current : List P} (h : Level R leaves (k + 1) current)
    (hk : 2 ^ (k + 1) ≤ leaves.length)
    (hall : ∀ i, i < 2 * leaves.length - 1 → ∃ w, Folded R leaves i w) :
    ∃ next, foldNextLevel R current = .ok next ∧ Level R leaves k next := by
  obtain ⟨hlength, hvalue⟩ := h
  have hpow : 2 ^ (k + 1) = 2 * 2 ^ k := Nat.pow_succ'
  have hpos : 0 < 2 ^ k := Nat.two_pow_pos k
  have hnode : ∀ (t : ℕ) a b, current[2 * t]? = some a → current[2 * t + 1]? = some b →
      ∃ v proof, R.foldAccAcc a b = .ok (v, proof) ∧ Folded R leaves (2 ^ k - 1 + t) v := by
    intro t a b ha hb
    obtain ⟨ht, -⟩ := List.getElem?_eq_some_iff.mp hb
    obtain ⟨v, hv⟩ := hall (2 ^ k - 1 + t) (by omega)
    cases hv with
    | leaf hle => omega
    | @node _ x y _ proof hi hx hy hfold =>
        have hleft := hvalue (2 * t) a ha
        have hright := hvalue (2 * t + 1) b hb
        rw [show 2 ^ (k + 1) - 1 + 2 * t = 2 * (2 ^ k - 1 + t) + 1 by omega] at hleft
        rw [show 2 ^ (k + 1) - 1 + (2 * t + 1) = 2 * (2 ^ k - 1 + t) + 2 by omega] at hright
        obtain rfl := hx.unique hleft
        obtain rfl := hy.unique hright
        exact ⟨v, proof, hfold, .node hi hx hy hfold⟩
  obtain ⟨next, hnext, hget⟩ := exists_foldNextLevel current fun t a b ha hb => by
    obtain ⟨v, proof, hfold, -⟩ := hnode t a b ha hb
    exact ⟨v, proof, hfold⟩
  refine ⟨next, hnext, ?_, ?_⟩
  · rw [length_foldNextLevel hnext, hlength]
    omega
  · intro t v hv
    obtain ⟨a, b, proof, ha, hb, hfold⟩ := hget t v hv
    obtain ⟨v', proof', hfold', hfolded⟩ := hnode t a b ha hb
    obtain ⟨rfl, -⟩ := Prod.ext_iff.mp (Except.ok.inj (hfold.symm.trans hfold'))
    exact hfolded

/-- The loop over the levels comes to the root's value. -/
theorem Level.foldLevels {k : ℕ} {current : List P} {v : P} (h : Level R leaves k current)
    (hk : 2 ^ k ≤ leaves.length) (hroot : Folded R leaves 0 v) :
    foldLevels R current = .ok v := by
  induction k generalizing current with
  | zero =>
      obtain ⟨hlength, hvalue⟩ := h
      obtain ⟨a, rfl⟩ := List.length_eq_one_iff.mp hlength
      have ha := hvalue 0 a rfl
      rw [ParallelTree.foldLevels, dif_neg (by simp)]
      exact congrArg Except.ok (ha.unique hroot)
  | succ k ih =>
      have hpos : 0 < 2 ^ k := Nat.two_pow_pos k
      have hpow : 2 ^ (k + 1) = 2 * 2 ^ k := Nat.pow_succ'
      obtain ⟨next, hnext, hlevel⟩ := h.next hk hroot.exists_of_root
      rw [ParallelTree.foldLevels, dif_pos (by rw [h.1]; omega)]
      split
      · next e he =>
          rw [hnext] at he
          cases he
      · next next' hnext' =>
          obtain rfl := Except.ok.inj (hnext.symm.trans hnext')
          exact ih hlevel (by omega)

theorem powerLoop_two_pow (k : ℕ) : powerLoop (2 ^ k) = true := by
  induction k with
  | zero =>
      rw [powerLoop]
      rfl
  | succ k ih =>
      have hpos : 0 < 2 ^ k := Nat.two_pow_pos k
      have hpow : 2 ^ (k + 1) = 2 * 2 ^ k := Nat.pow_succ'
      rw [powerLoop, if_pos (by omega), if_neg (by omega), hpow,
        Nat.mul_div_cancel_left _ (by decide)]
      exact ih

/-- **The root's value** is what the sequential fold returns. -/
theorem Folded.foldRoot {v : P} (hlen : leaves.length = 2 ^ Nat.log2 leaves.length)
    (hroot : Folded R leaves 0 v) : foldRoot R leaves = .ok v := by
  have hpos : leaves.length ≠ 0 := by
    rw [hlen]
    exact (Nat.two_pow_pos _).ne'
  obtain ⟨current, hcurrent, hlevel⟩ := exists_level_leaves hlen hroot.exists_of_root
  have hne : leaves ≠ [] := fun h => hpos (by rw [h]; rfl)
  have hpower : lenIsPowerOfK leaves.length = true := by
    rw [lenIsPowerOfK, if_neg hpos, hlen]
    exact powerLoop_two_pow _
  have hassert : ∀ c [Decidable c], c → (Run.assert c : Run E Unit) = .ok () := by
    intro c _ hc
    exact if_pos hc
  rw [ParallelTree.foldRoot, hassert _ hne, hassert _ hpower, hcurrent]
  exact hlevel.foldLevels hlen.ge hroot

end Values

end NexusVm.Nova.ParallelTree
