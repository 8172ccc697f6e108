import NexusVm.Shuffling.RsShuffle.Circuit
import Mathlib.Tactic.NormNum.Prime

/-!
# Completeness of the RS shuffle

The rows of `build_level` satisfy the constraints of a level: the counters of a row are the
counts of keys before it, and rows of one bucket stand together.
-/

namespace NexusVm.Shuffling.RsShuffle

open Gadget

section Counts

variable {N k : ℕ} {prev : Fin N → SortedRow}

/-- An earlier row has no later bucket. -/
theorem Table.bucket_le (h : Table k prev) {i j : Fin N} (hij : i ≤ j) :
    (prev i).bucket ≤ (prev j).bucket := by
  rcases hij.eq_or_lt with rfl | hlt
  · exact le_rfl
  · exact List.pairwise_ofFn.mp h.sorted hlt

variable {bits : Fin N → Bool}

theorem mem_take_keys {i key : ℕ} (h : key ∈ (levelKeys prev bits).take i) :
    ∃ j : Fin N, j.val < i ∧ key = keyOf (prev j, bits j) := by
  obtain ⟨j, hj, rfl⟩ := List.mem_take_iff_getElem.mp h
  obtain ⟨hji, hlt⟩ := lt_min_iff.mp hj
  rw [length_levelKeys] at hlt
  refine ⟨⟨j, hlt⟩, hji, ?_⟩
  exact Option.some.inj ((List.getElem?_eq_getElem _).symm.trans (getElem?_keys prev bits ⟨j, hlt⟩))

theorem mem_drop_keys {i key : ℕ} (h : key ∈ (levelKeys prev bits).drop i) :
    ∃ j : Fin N, i ≤ j.val ∧ key = keyOf (prev j, bits j) := by
  obtain ⟨j, hj, rfl⟩ := List.mem_drop_iff_getElem.mp h
  have hlt : i + j < N := by
    rw [length_levelKeys] at hj
    omega
  refine ⟨⟨i + j, hlt⟩, Nat.le_add_right _ _, ?_⟩
  exact Option.some.inj
    ((List.getElem?_eq_getElem _).symm.trans (getElem?_keys prev bits ⟨i + j, hlt⟩))

/-- Before row `i` stand the rows of earlier buckets and those that its counters count. -/
theorem Table.position (h : Table k prev) (bits : Fin N → Bool) (i : Fin N) :
    (levelKeys prev bits).countP (· < 2 * (prev i).bucket) +
      ((levelKeys prev bits).take i).count (2 * (prev i).bucket) +
      ((levelKeys prev bits).take i).count (2 * (prev i).bucket + 1) = i := by
  have hdrop : ((levelKeys prev bits).drop i).countP (· < 2 * (prev i).bucket) = 0 := by
    rw [List.countP_eq_zero]
    intro key hkey
    obtain ⟨j, hij, rfl⟩ := mem_drop_keys hkey
    have hle := h.bucket_le (i := i) (j := j) hij
    rw [decide_eq_true_eq, keyOf]
    dsimp only
    omega
  have hall : ∀ key ∈ (levelKeys prev bits).take i, key / 2 ≤ (prev i).bucket := by
    intro key hkey
    obtain ⟨j, hji, rfl⟩ := mem_take_keys hkey
    rw [keyOf_div]
    exact h.bucket_le (i := j) (j := i) (le_of_lt hji)
  have hlen : ((levelKeys prev bits).take i).length = i := by
    rw [List.length_take, length_levelKeys]
    omega
  rw [← List.take_append_drop i (levelKeys prev bits), List.countP_append, hdrop,
    List.take_append_drop, Nat.add_zero]
  generalize (levelKeys prev bits).take i = before at hall hlen ⊢
  rw [← hlen]
  clear hlen hdrop
  induction before with
  | nil => rfl
  | cons key before ih =>
      have hrest := ih fun key' hkey' => hall key' (List.mem_cons_of_mem _ hkey')
      have hle := hall key List.mem_cons_self
      simp only [List.countP_cons, List.count_cons, List.length_cons, beq_iff_eq,
        decide_eq_true_eq]
      split_ifs <;> omega

/-- The last row of a bucket: no later row has one of the bucket's keys. -/
theorem Table.count_last (h : Table k prev) (bits : Fin N → Bool) (i : Fin N)
    (hlast : ∀ hi : i.val + 1 < N, (prev i).bucket ≠ (prev ⟨i + 1, hi⟩).bucket) (key : ℕ)
    (hkey : key / 2 = (prev i).bucket) :
    (levelKeys prev bits).count key = ((levelKeys prev bits).take (i + 1)).count key := by
  have hdrop : ((levelKeys prev bits).drop (i + 1)).count key = 0 := by
    rw [List.count_eq_zero]
    intro hmem
    obtain ⟨j, hij, rfl⟩ := mem_drop_keys hmem
    rw [keyOf_div] at hkey
    have hnext : i.val + 1 < N := lt_of_le_of_lt hij j.isLt
    have hle := h.bucket_le (i := i) (j := ⟨i + 1, hnext⟩) (Nat.le_succ _)
    have hle' := h.bucket_le (i := ⟨i + 1, hnext⟩) (j := j) hij
    have hne := hlast hnext
    dsimp only at hkey
    omega
  rw [← List.take_append_drop (i.val + 1) (levelKeys prev bits), List.count_append, hdrop,
    List.take_append_drop, Nat.add_zero]

end Counts

/-! ## Completeness -/

/-- Different `u16` values are different field elements. -/
theorem cast_inj_u16 {p : ℕ} (hp : 2 ^ 16 ≤ p) {a b : ℕ} (ha : a < 2 ^ 16) (hb : b < 2 ^ 16)
    (h : (a : ZMod p) = b) : a = b := by
  rw [ZMod.natCast_eq_natCast_iff] at h
  exact Nat.ModEq.eq_of_lt_of_lt h (ha.trans_le hp) (hb.trans_le hp)

section Complete

variable {p : ℕ} [Fact p.Prime] {N k : ℕ} {prev : Fin N → SortedRow} {bits : Fin N → Bool}
  {uns : Fin N → UnsortedRow} {next : Fin N → SortedRow}

/-- What the counters of a row become after it. -/
theorem count_after (prev : Fin N → SortedRow) (bits : Fin N → Bool) (i : Fin N) :
    (((levelKeys prev bits).take (i + 1)).count (2 * (prev i).bucket) : ZMod p) =
      ((levelKeys prev bits).take i).count (2 * (prev i).bucket) +
        (1 - if bits i then 1 else 0) ∧
    (((levelKeys prev bits).take (i + 1)).count (2 * (prev i).bucket + 1) : ZMod p) =
      ((levelKeys prev bits).take i).count (2 * (prev i).bucket + 1) + if bits i then 1 else 0 := by
  rw [count_take_succ (getElem?_keys prev bits i), count_take_succ (getElem?_keys prev bits i),
    keyOf]
  dsimp only
  have hne : 2 * (prev i).bucket ≠ 2 * (prev i).bucket + 1 := (Nat.succ_ne_self _).symm
  cases bits i with
  | false =>
      rw [Bool.toNat_false, Nat.add_zero, if_pos rfl, if_neg hne, if_neg Bool.false_ne_true]
      constructor <;> push_cast <;> ring
  | true =>
      rw [Bool.toNat_true, if_neg hne.symm, if_pos rfl, if_pos rfl]
      constructor <;> push_cast <;> ring

/-- The destination of a row, relative to its position. -/
theorem rank_eq (htable : Table k prev) (bits : Fin N → Bool) (i : Fin N) {z o total rank : ℕ}
    (hz : ((levelKeys prev bits).take i).count (2 * (prev i).bucket) = z)
    (ho : ((levelKeys prev bits).take i).count (2 * (prev i).bucket + 1) = o)
    (htotal : (levelKeys prev bits).count (2 * (prev i).bucket) = total)
    (hrank : stableRank (levelKeys prev bits) i (keyOf (prev i, bits i)) = rank) :
    (rank : ZMod p) = (i.val : ZMod p) - (z + o) +
      (z + (if bits i then 1 else 0) * (total - z + o)) := by
  have hposition := htable.position bits i
  rw [hz, ho] at hposition
  rw [stableRank, keyOf] at hrank
  dsimp only at hrank
  have hi : (i.val : ZMod p) =
      ((levelKeys prev bits).countP (· < 2 * (prev i).bucket) : ZMod p) + z + o := by
    rw [← hposition]
    push_cast
    ring
  cases hbit : bits i with
  | false =>
      rw [hbit, Bool.toNat_false, Nat.add_zero, hz] at hrank
      rw [hi, ← hrank, if_neg Bool.false_ne_true]
      push_cast
      ring
  | true =>
      rw [hbit, Bool.toNat_true, countP_lt_succ, ho, htotal] at hrank
      rw [hi, ← hrank, if_pos rfl]
      push_cast
      ring

/-- **The rows of a level satisfy the constraints.** -/
theorem Level.rowSatisfied (hp : 2 ^ 16 ≤ p) (hk : k < 15) (htable : Table k prev)
    (h : Level prev bits uns next) (i : Fin N) :
    RowSatisfied i.val (UnsortedRowVar.new (uns i) : UnsortedRowVar (ZMod p))
      (rowAfter (fun i => UnsortedRowVar.new (uns i)) i) := by
  have hlt : ∀ i, (prev i).bucket < 2 ^ 16 := fun i =>
    (htable.bucket_lt i).trans_le (Nat.pow_le_pow_right Nat.two_pos (by omega))
  obtain ⟨hzeros, hones⟩ := count_after (p := p) prev bits i
  constructor
  · intro n hn hbucket
    rw [rowAfter, Option.dite_none_right_eq_some] at hn
    obtain ⟨hi, hn⟩ := hn
    obtain rfl := Option.some.inj hn
    simp only [UnsortedRowVar.new, h.uns_apply, levelRow, UnsortedRowVar.bitAsFp] at hbucket ⊢
    have heq := cast_inj_u16 hp (hlt i) (hlt _) hbucket
    rw [← heq]
    exact ⟨hzeros, hones, rfl, rfl⟩
  · intro hlast
    have hne : ∀ hi : i.val + 1 < N, (prev i).bucket ≠ (prev ⟨i + 1, hi⟩).bucket := by
      intro hi heq
      refine hlast _ (dif_pos hi) ?_
      simp only [UnsortedRowVar.new, h.uns_apply, levelRow, heq]
    have htotal := htable.count_last bits i hne (2 * (prev i).bucket) (by omega)
    have hrest := htable.count_last bits i hne (2 * (prev i).bucket + 1) (by omega)
    simp only [UnsortedRowVar.new, h.uns_apply, levelRow, UnsortedRowVar.bitAsFp]
    rw [htotal, hrest, Nat.cast_add, hzeros, hones]
    constructor <;> ring
  · simp only [UnsortedRowVar.new, h.uns_apply, levelRow, UnsortedRowVar.bitAsFp]
    exact rank_eq htable bits i rfl rfl rfl rfl

/-- **A level is accepted for all challenges.** -/
theorem Level.verified (hp : 2 ^ 16 ≤ p) (hk : k < 15) (htable : Table k prev)
    (h : Level prev bits uns next) (alpha beta : ZMod p) :
    verifyShuffleLevel (fun i => UnsortedRowVar.new (uns i)) (fun j => SortedRowVar.new (next j))
      alpha beta () := by
  rw [verifyShuffleLevel_iff]
  refine ⟨h.rowSatisfied hp hk htable, checkGrandProduct_of_perm ?_ _⟩
  have hpairs := h.pairs_perm.map fun pair : ℕ × ℕ =>
    (⟨pair.1, pair.2⟩ : IndexPositionPair (ZMod p))
  rwa [List.map_ofFn, List.map_ofFn] at hpairs

/-- **Completeness**: for any split bits the witness exists, each of its levels is accepted, and
so is every deck with its reordering. -/
theorem rs_shuffle_complete (hp : 2 ^ 16 ≤ p) (B : Build) {LEVELS : ℕ} (hN : N < 2 ^ 16)
    (hpos : 0 < LEVELS) (hlevels : LEVELS ≤ 15) (bitsMat : Fin LEVELS → Fin N → Bool) :
    ∃ w, prepareWitnessData B bitsMat = some w ∧
      ∀ alpha beta : ZMod p,
        (∀ level, (verifyRowConstraints ((WitnessDataVar.new w).unsLevels level :
            Fin N → UnsortedRowVar (ZMod p))).Satisfiable ∧
          verifyShuffleLevel ((WitnessDataVar.new w).unsLevels level)
            ((WitnessDataVar.new w).sortedLevels level) alpha beta ()) ∧
        ∀ deck : Fin N → ElGamalCiphertextVar (ZMod p), ∃ after,
          applyRsShufflePermutation B bitsMat deck = some (w, after) ∧
          rsShuffle (List.ofFn deck) (List.ofFn after) (WitnessDataVar.new w) alpha beta () := by
  obtain ⟨w, σ, hall, hfirst, hlast, hw, happly⟩ := exists_permutation B hN hpos hlevels bitsMat
  refine ⟨w, hw, fun alpha beta => ?_⟩
  have hverified : ∀ level, verifyShuffleLevel
      ((WitnessDataVar.new w).unsLevels level : Fin N → UnsortedRowVar (ZMod p))
      ((WitnessDataVar.new w).sortedLevels level) alpha beta () := by
    intro level
    obtain ⟨k, hk, prev, bits, htable, hlevel⟩ := hall level
    exact hlevel.verified hp hk htable alpha beta
  constructor
  · intro level
    have hrows := (verifyShuffleLevel_iff.mp (hverified level)).1
    exact ⟨⟨_, verifyRowConstraints_iff.mpr ⟨hrows, rfl⟩⟩, hverified level⟩
  · intro deck
    refine ⟨deck ∘ σ, happly _ deck, (rsShuffle_iff hpos).mpr ⟨hverified, ?_⟩⟩
    apply checkGrandProduct_of_perm
    have hinit : (fun i => ((WitnessDataVar.new w).unsLevels ⟨0, hpos⟩ i :
        UnsortedRowVar (ZMod p)).idx) = fun i : Fin N => (i.val : ZMod p) := by
      funext i
      exact congrArg Nat.cast (hfirst i)
    have hfinal : (fun j => ((WitnessDataVar.new w).sortedLevels
        ⟨LEVELS - 1, Nat.sub_one_lt_of_lt hpos⟩ j : SortedRowVar (ZMod p)).idx) =
        fun j : Fin N => ((σ j).val : ZMod p) := by
      funext j
      exact congrArg Nat.cast (hlast j)
    rw [hinit, hfinal, indexedCiphertexts_ofFn, indexedCiphertexts_ofFn]
    exact (Equiv.Perm.ofFn_comp_perm σ fun i : Fin N =>
      (⟨(i.val : ZMod p), deck i⟩ : IndexedElGamalCiphertext (ZMod p))).symm

end Complete

/-- Three cards, two levels. -/
def sampleBits : Fin 2 → Fin 3 → Bool := ![![true, false, true], ![false, true, false]]

scoped instance fact_prime_fermat : Fact (Nat.Prime 65537) := ⟨by norm_num⟩

theorem rs_shuffle_complete_sample :
    ∃ w, prepareWitnessData ⟨true⟩ sampleBits = some w ∧
      ∀ alpha beta : ZMod 65537,
        (∀ level, (verifyRowConstraints ((WitnessDataVar.new w).unsLevels level :
            Fin 3 → UnsortedRowVar (ZMod 65537))).Satisfiable ∧
          verifyShuffleLevel ((WitnessDataVar.new w).unsLevels level)
            ((WitnessDataVar.new w).sortedLevels level) alpha beta ()) ∧
        ∀ deck : Fin 3 → ElGamalCiphertextVar (ZMod 65537), ∃ after,
          applyRsShufflePermutation ⟨true⟩ sampleBits deck = some (w, after) ∧
          rsShuffle (List.ofFn deck) (List.ofFn after) (WitnessDataVar.new w) alpha beta () :=
  rs_shuffle_complete (by decide) ⟨true⟩ (by decide) (by decide) (by decide) sampleBits

end NexusVm.Shuffling.RsShuffle
