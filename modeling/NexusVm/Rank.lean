import Mathlib.Data.List.Perm.Subperm
import Mathlib.Data.List.Sort

/-!
# Ranks of a stable sort

The rank of an entry is the position that a stable sort by the keys gives it: the smaller
keys come first, and of the equal ones those that stand before it.
-/

namespace NexusVm

/-- The numbers below `n`, each once. -/
theorem perm_range_iff {n : ℕ} {indices : List ℕ} : indices.Perm (List.range n) ↔
    indices.length = n ∧ (∀ i ∈ indices, i < n) ∧ indices.Nodup := by
  constructor
  · intro h
    refine ⟨h.length_eq.trans List.length_range, fun i hi => ?_, ?_⟩
    · exact List.mem_range.mp (h.mem_iff.mp hi)
    · exact h.nodup_iff.mpr List.nodup_range
  · rintro ⟨hlen, hlt, hnodup⟩
    have hsub := List.subperm_of_subset hnodup fun i hi => List.mem_range.mpr (hlt i hi)
    exact hsub.perm_of_length_le (by rw [List.length_range, hlen])

section Rank

variable {K : Type} [LinearOrder K]

/-- The rank of the entry at position `i`, whose key is `key`. -/
def stableRank (keys : List K) (i : ℕ) (key : K) : ℕ :=
  keys.countP (· < key) + (keys.take i).count key

variable {keys : List K} {i j : ℕ} {key key' : K}

theorem count_take_succ (h : keys[i]? = some key) (key' : K) :
    (keys.take (i + 1)).count key' = (keys.take i).count key' + if key = key' then 1 else 0 := by
  rw [List.take_add_one, h, List.count_append, Option.toList_some, List.count_singleton]
  simp only [beq_iff_eq]

theorem countP_lt_add_count_le (keys : List K) (h : key < key') :
    keys.countP (· < key) + keys.count key ≤ keys.countP (· < key') := by
  induction keys with
  | nil => exact le_rfl
  | cons x keys ih =>
      simp only [List.countP_cons, List.count_cons, beq_iff_eq, decide_eq_true_eq]
      rcases lt_trichotomy x key with hx | rfl | hx
      · rw [if_pos hx, if_neg hx.ne, if_pos (hx.trans h)]
        omega
      · rw [if_neg (lt_irrefl x), if_pos rfl, if_pos h]
        omega
      · rw [if_neg hx.not_gt, if_neg hx.ne']
        omega

/-- The entry itself is not counted. -/
theorem stableRank_lt_of_key_lt (hi : keys[i]? = some key) (h : key < key') (j : ℕ) :
    stableRank keys i key < stableRank keys j key' := by
  have hcount : (keys.take (i + 1)).count key ≤ keys.count key :=
    (List.take_sublist _ _).count_le _
  rw [count_take_succ hi, if_pos rfl] at hcount
  have hle := countP_lt_add_count_le keys h
  simp only [stableRank]
  omega

theorem stableRank_lt_of_lt (hi : keys[i]? = some key) (hij : i < j) :
    stableRank keys i key < stableRank keys j key := by
  have hcount : (keys.take (i + 1)).count key ≤ (keys.take j).count key :=
    (List.take_sublist_take_left hij).count_le _
  rw [count_take_succ hi, if_pos rfl] at hcount
  simp only [stableRank]
  omega

theorem stableRank_lt_length (hi : keys[i]? = some key) : stableRank keys i key < keys.length := by
  have hcount : (keys.take (i + 1)).count key ≤ keys.count key :=
    (List.take_sublist _ _).count_le _
  rw [count_take_succ hi, if_pos rfl] at hcount
  have hlen : keys.countP (· < key) + keys.count key ≤ keys.length := by
    rw [List.length_eq_countP_add_countP (fun x => decide (x < key)), List.count]
    apply Nat.add_le_add_left
    apply List.countP_mono_left
    intro x _ hx
    rw [beq_iff_eq] at hx
    simp [hx]
  simp only [stableRank]
  omega

/-- Different positions have different ranks. -/
theorem stableRank_inj (hi : keys[i]? = some key) (hj : keys[j]? = some key')
    (h : stableRank keys i key = stableRank keys j key') : i = j := by
  rcases lt_trichotomy key key' with hlt | rfl | hlt
  · exact absurd h (stableRank_lt_of_key_lt hi hlt j).ne
  · rcases lt_trichotomy i j with hij | hij | hij
    · exact absurd h (stableRank_lt_of_lt hi hij).ne
    · exact hij
    · exact absurd h (stableRank_lt_of_lt hj hij).ne'
  · exact absurd h (stableRank_lt_of_key_lt hj hlt i).ne'

/-- A smaller rank has no larger key. -/
theorem key_le_of_stableRank_lt (hj : keys[j]? = some key')
    (h : stableRank keys i key < stableRank keys j key') : key ≤ key' := by
  by_contra hlt
  exact absurd h (stableRank_lt_of_key_lt hj (not_le.mp hlt) i).not_gt

/-- **The ranks are the positions.** -/
theorem stableRanks_perm (keys : List K) :
    (keys.mapIdx fun i key => stableRank keys i key).Perm (List.range keys.length) := by
  rw [perm_range_iff]
  refine ⟨List.length_mapIdx, ?_, ?_⟩
  · intro rank hrank
    obtain ⟨i, hi, rfl⟩ := List.mem_mapIdx.mp hrank
    exact stableRank_lt_length (List.getElem?_eq_getElem hi)
  · rw [List.nodup_iff_injective_getElem]
    intro a b hab
    simp only [List.getElem_mapIdx] at hab
    apply Fin.ext
    exact stableRank_inj (List.getElem?_eq_getElem _) (List.getElem?_eq_getElem _) hab

end Rank

variable {α : Type}

theorem keyLe_trans (key : α → ℕ) (a b c : α) (hab : decide (key a ≤ key b) = true)
    (hbc : decide (key b ≤ key c) = true) : decide (key a ≤ key c) = true :=
  decide_eq_true ((of_decide_eq_true hab).trans (of_decide_eq_true hbc))

theorem keyLe_total (key : α → ℕ) (a b : α) :
    (decide (key a ≤ key b) || decide (key b ≤ key a)) = true := by
  rw [Bool.or_eq_true, decide_eq_true_eq, decide_eq_true_eq]
  exact le_total _ _

theorem pairwise_mergeSort_key (key : α → ℕ) (l : List α) :
    (l.mergeSort fun a b => decide (key a ≤ key b)).Pairwise fun a b => key a ≤ key b :=
  (List.pairwise_mergeSort (keyLe_trans key) (keyLe_total key) l).imp fun h => of_decide_eq_true h

/-- The sort keeps the entries of one key as they stand. -/
theorem filter_mergeSort (key : α → ℕ) (l : List α) (k : ℕ) :
    (l.mergeSort fun a b => decide (key a ≤ key b)).filter (fun a => decide (key a = k)) =
      l.filter fun a => decide (key a = k) := by
  have hsorted : (l.filter fun a => decide (key a = k)).Pairwise
      fun a b => decide (key a ≤ key b) = true := by
    apply List.pairwise_filter.mpr
    apply List.pairwise_of_forall
    intro a b ha hb
    rw [decide_eq_true_eq] at ha hb ⊢
    omega
  have hsub := List.sublist_mergeSort (keyLe_trans key) (keyLe_total key) hsorted
    List.filter_sublist
  have hfilter := hsub.filter fun a => decide (key a = k)
  rw [List.filter_filter] at hfilter
  simp only [Bool.and_self] at hfilter
  have hperm := (List.mergeSort_perm l fun a b => decide (key a ≤ key b)).filter
    fun a => decide (key a = k)
  exact (hfilter.eq_of_length hperm.length_eq.symm).symm

/-- **The sort is stable**: entries of one key stay in the order that they have in the list. -/
theorem pairwise_lex_mergeSort (key : α → ℕ) {r : α → α → Prop} {l : List α} (h : l.Pairwise r) :
    (l.mergeSort fun a b => decide (key a ≤ key b)).Pairwise
      fun a b => key a < key b ∨ (key a = key b ∧ r a b) := by
  rw [List.pairwise_iff_forall_sublist]
  intro a b hab
  have hle := List.pairwise_iff_forall_sublist.mp (pairwise_mergeSort_key key l) hab
  rcases hle.lt_or_eq with hlt | heq
  · exact Or.inl hlt
  · have hpair : [a, b].filter (fun c => decide (key c = key b)) = [a, b] := by
      simp [heq]
    have hsub := hab.filter fun c => decide (key c = key b)
    rw [hpair, filter_mergeSort] at hsub
    exact Or.inr ⟨heq, List.pairwise_iff_forall_sublist.mp h (hsub.trans List.filter_sublist)⟩

/-- Sorting entries whose keys are the positions leaves them in the order of the positions. -/
theorem map_mergeSort_eq_range {l : List α} {key : α → ℕ} {n : ℕ}
    (h : (l.map key).Perm (List.range n)) :
    (l.mergeSort fun a b => decide (key a ≤ key b)).map key = List.range n := by
  have hperm := ((List.mergeSort_perm l fun a b => decide (key a ≤ key b)).map key).trans h
  have hsorted : ((l.mergeSort fun a b => decide (key a ≤ key b)).map key).Pairwise (· ≤ ·) := by
    rw [List.pairwise_map]
    exact pairwise_mergeSort_key key l
  exact hperm.eq_of_pairwise (fun _ _ _ _ => le_antisymm) hsorted
    List.pairwise_le_range

end NexusVm
