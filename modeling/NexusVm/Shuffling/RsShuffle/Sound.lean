import NexusVm.Shuffling.RsShuffle.Complete
import Mathlib.Algebra.Polynomial.Roots

/-!
# What the constraints of the RS shuffle leave free

Nothing ties the indices and the buckets of a level to the sorted table of the level before,
or those of the first level to the positions.  With all indices zero and every row in a bucket
of its own, the constraints only say that the two decks have the same cards.

So any permutation passes, whatever the split bits are, and the order that the radix sort gives is
not enforced.  With at most one card there is no other order, and only then is the shuffle sound.
-/

namespace NexusVm.Shuffling.RsShuffle

open Gadget

section Free

variable {F : Type} [Field F] [DecidableEq F] {N LEVELS : ℕ}

/-- A row that is alone in its bucket, with the index zero. -/
def loneRow (bit : Bool) (i : ℕ) : UnsortedRowVar F where
  bit := bit
  numZeros := 0
  numOnes := 0
  totalZerosInBucket := if bit then 0 else 1
  bucketLength := 1
  idx := 0
  nextPos := i
  bucketId := if i % 2 = 0 then 0 else 1

/-- The table that does not sort, for any split bits. -/
def loneTable (bits : Fin LEVELS → Fin N → Bool) : WitnessDataVar F N LEVELS where
  bitsMat := bits
  unsLevels level i := loneRow (bits level i) i
  sortedLevels _ _ := ⟨0, 1, 0⟩

omit [DecidableEq F] in
theorem loneRow_satisfied (bits : Fin N → Bool) (i : Fin N) :
    RowSatisfied i.val (loneRow (bits i) i : UnsortedRowVar F)
      (rowAfter (fun i => loneRow (bits i) i) i) := by
  constructor
  · intro n hn hbucket
    rw [rowAfter, Option.dite_none_right_eq_some] at hn
    obtain ⟨hi, hn⟩ := hn
    obtain rfl := Option.some.inj hn
    simp only [loneRow] at hbucket
    rcases Nat.mod_two_eq_zero_or_one i.val with heven | hodd
    · rw [if_pos heven, if_neg (by omega)] at hbucket
      exact absurd hbucket zero_ne_one
    · rw [if_neg (by omega), if_pos (by omega)] at hbucket
      exact absurd hbucket one_ne_zero
  · intro _
    simp only [loneRow, UnsortedRowVar.bitAsFp]
    cases bits i with
    | false => simp
    | true => simp
  · simp only [loneRow, UnsortedRowVar.bitAsFp]
    cases bits i with
    | false => simp
    | true => simp

/-- **The table is accepted with every reordering of the deck.** -/
theorem loneTable_accepted (hpos : 0 < LEVELS) (bits : Fin LEVELS → Fin N → Bool)
    (deck : Fin N → ElGamalCiphertextVar F) (σ : Equiv.Perm (Fin N)) (alpha beta : F) :
    rsShuffle (List.ofFn deck) (List.ofFn (deck ∘ σ)) (loneTable bits) alpha beta () := by
  rw [rsShuffle_iff hpos]
  constructor
  · intro level
    rw [verifyShuffleLevel_iff]
    exact ⟨fun i => loneRow_satisfied (bits level) i,
      checkGrandProduct_of_perm (List.Perm.refl _) _⟩
  · apply checkGrandProduct_of_perm
    simp only [loneTable, loneRow, indexedCiphertexts_ofFn]
    exact (Equiv.Perm.ofFn_comp_perm σ fun i => (⟨0, deck i⟩ : IndexedElGamalCiphertext F)).symm

end Free

section One

variable {p : ℕ} [Fact p.Prime]

/-- A polynomial of degree at most six that vanishes everywhere. -/
theorem coefficients_eq_zero (hp : 6 < p) (d : ℕ → ZMod p)
    (h : ∀ beta : ZMod p, ∑ k ∈ Finset.range 6, d k * beta ^ (k + 1) = 0) :
    ∀ k < 6, d k = 0 := by
  let P : Polynomial (ZMod p) := ∑ k ∈ Finset.range 6, Polynomial.monomial (k + 1) (d k)
  have heval : ∀ beta : ZMod p, P.eval beta = 0 := by
    intro beta
    rw [← h beta]
    simp only [P, Polynomial.eval_finsetSum, Polynomial.eval_monomial]
  have hdegree : P.natDegree ≤ 6 := by
    apply Polynomial.natDegree_sum_le_of_forall_le
    intro k hk
    exact (Polynomial.natDegree_monomial_le _).trans (Finset.mem_range.mp hk)
  have hzero : P = 0 := by
    apply Polynomial.eq_zero_of_natDegree_lt_card_of_eval_eq_zero P Function.injective_id heval
    rw [ZMod.card]
    omega
  intro k hk
  have hcoeff := congrArg (fun Q => Polynomial.coeff Q (k + 1)) hzero
  simp only [P, Polynomial.finsetSum_coeff, Polynomial.coeff_monomial, Polynomial.coeff_zero,
    Nat.add_right_cancel_iff] at hcoeff
  rwa [Finset.sum_ite_eq' (Finset.range 6) k d, if_pos (Finset.mem_range.mpr hk)] at hcoeff

/-- The coordinates of a ciphertext, in the order of their challenges. -/
def coordinate {F : Type} [Zero F] (ct : ElGamalCiphertextVar F) (k : ℕ) : F :=
  [ct.c1.x, ct.c1.y, ct.c1.z, ct.c2.x, ct.c2.y, ct.c2.z].getD k 0

theorem product_eq {F : Type} [Field F] (item : IndexedElGamalCiphertext F) (alpha beta : F) :
    PermutationProduct.product item (ciphertextChallenges alpha beta) =
      alpha * item.idx + ∑ k ∈ Finset.range 6, coordinate item.ciphertext k * beta ^ (k + 1) := by
  simp only [Finset.sum_range_succ, Finset.sum_range_zero]
  simp [PermutationProduct.product, ciphertextChallenges, coordinate]
  ring

/-- A single item is determined by its products for all challenges. -/
theorem ciphertext_eq (hp : 6 < p) {left right : IndexedElGamalCiphertext (ZMod p)}
    (h : ∀ alpha beta : ZMod p,
      checkGrandProduct [left] [right] (ciphertextChallenges alpha beta) ()) :
    left.ciphertext = right.ciphertext := by
  have hall : ∀ k < 6, coordinate left.ciphertext k - coordinate right.ciphertext k = 0 := by
    apply coefficients_eq_zero hp
    intro beta
    have hproduct := checkGrandProduct_iff.mp (h 0 beta)
    simp only [List.map_cons, List.map_nil, List.prod_cons, List.prod_nil, mul_one, product_eq,
      zero_mul, zero_add] at hproduct
    simp only [sub_mul, Finset.sum_sub_distrib, hproduct, sub_self]
  ext
  · exact sub_eq_zero.mp (hall 0 (by omega))
  · exact sub_eq_zero.mp (hall 1 (by omega))
  · exact sub_eq_zero.mp (hall 2 (by omega))
  · exact sub_eq_zero.mp (hall 3 (by omega))
  · exact sub_eq_zero.mp (hall 4 (by omega))
  · exact sub_eq_zero.mp (hall 5 (by omega))

/-! ## When the shuffle is sound and three cards -/

variable {N LEVELS : ℕ}

/-- For given split bits, and decks of ciphertexts that are `cards`, whatever satisfies the
constraints for all challenges reorders the deck by the permutation. -/
def ShuffleBound (cards : Set (ElGamalCiphertextVar (ZMod p))) (bits : Fin LEVELS → Fin N → Bool)
    (perm : Fin N → Fin N) : Prop :=
  ∀ (ctInitPub ctAfterShuffle : Fin N → ElGamalCiphertextVar (ZMod p))
    (w : WitnessDataVar (ZMod p) N LEVELS),
    (∀ i, ctInitPub i ∈ cards) → (∀ i, ctAfterShuffle i ∈ cards) →
    (∀ level i, (w.unsLevels level i).bit = bits level i) →
    (∀ alpha beta, rsShuffle (List.ofFn ctInitPub) (List.ofFn ctAfterShuffle) w alpha beta ()) →
    ctAfterShuffle = ctInitPub ∘ perm

variable {cards : Set (ElGamalCiphertextVar (ZMod p))}

/-- With two cards or more, two reorderings are accepted. -/
theorem not_bound (hcards : cards.Nontrivial) (hN : 2 ≤ N) (hpos : 0 < LEVELS)
    (bits : Fin LEVELS → Fin N → Bool) (perm : Fin N → Fin N) : ¬ShuffleBound cards bits perm := by
  intro hbound
  obtain ⟨a, ha, b, hb, hab⟩ := hcards
  let deck : Fin N → ElGamalCiphertextVar (ZMod p) := fun i => if i.val = 0 then a else b
  have hdeck : ∀ i, deck i ∈ cards := by
    intro i
    by_cases hi : i.val = 0
    · rw [show deck i = a from if_pos hi]
      exact ha
    · rw [show deck i = b from if_neg hi]
      exact hb
  have hall : ∀ σ : Equiv.Perm (Fin N), deck ∘ σ = deck ∘ perm := fun σ =>
    hbound _ _ (loneTable bits) hdeck (fun i => hdeck (σ i)) (fun _ _ => rfl)
      fun alpha beta => loneTable_accepted hpos bits deck σ alpha beta
  have hswap := (hall (Equiv.refl _)).trans
    (hall (Equiv.swap ⟨0, by omega⟩ ⟨1, by omega⟩)).symm
  have hfirst := congrFun hswap ⟨0, by omega⟩
  rw [Function.comp_apply, Function.comp_apply, Equiv.refl_apply, Equiv.swap_apply_left] at hfirst
  exact hab hfirst

/-- **The constraints bind the permutation only for decks of at most one card**: with more cards
every reordering is accepted, for any split bits. -/
theorem rs_shuffle_sound_iff (hp : 6 < p) (hcards : cards.Nontrivial) (B : Build)
    (bits : Fin LEVELS → Fin N → Bool) {data : WitnessData N LEVELS} {perm : Fin N → Fin N}
    (hperm : applyRsShufflePermutation B bits id = some (data, perm)) :
    (ShuffleBound cards bits perm ↔ N ≤ 1) ∧
      ∀ (deck : Fin N → ElGamalCiphertextVar (ZMod p)) (σ : Equiv.Perm (Fin N)),
        ∃ w : WitnessDataVar (ZMod p) N LEVELS,
          (∀ level i, (w.unsLevels level i).bit = bits level i) ∧
          ∀ alpha beta, rsShuffle (List.ofFn deck) (List.ofFn (deck ∘ σ)) w alpha beta () := by
  have hpos : 0 < LEVELS := by
    rcases Nat.eq_zero_or_pos LEVELS with rfl | hpos
    · simp [applyRsShufflePermutation] at hperm
    · exact hpos
  constructor
  · constructor
    · intro hbound
      by_contra hN
      exact not_bound hcards (not_le.mp hN) hpos bits perm hbound
    · intro hN ctInitPub ctAfterShuffle w _ _ _ hall
      funext i
      obtain rfl : N = 1 := by
        have := i.isLt
        omega
      have hsingle : ∀ f : Fin 1 → IndexedElGamalCiphertext (ZMod p), List.ofFn f = [f i] := by
        intro f
        rw [Subsingleton.elim i 0]
        rfl
      rw [Function.comp_apply, Subsingleton.elim (perm i) i]
      let left : IndexedElGamalCiphertext (ZMod p) := ⟨(w.unsLevels ⟨0, hpos⟩ i).idx, ctInitPub i⟩
      let right : IndexedElGamalCiphertext (ZMod p) :=
        ⟨(w.sortedLevels ⟨LEVELS - 1, Nat.sub_one_lt_of_lt hpos⟩ i).idx, ctAfterShuffle i⟩
      have hproducts : ∀ alpha beta : ZMod p,
          checkGrandProduct [left] [right] (ciphertextChallenges alpha beta) () := by
        intro alpha beta
        have hfinal := ((rsShuffle_iff hpos).mp (hall alpha beta)).2
        rwa [indexedCiphertexts_ofFn, indexedCiphertexts_ofFn, hsingle, hsingle] at hfinal
      exact (ciphertext_eq hp hproducts).symm
  · exact fun deck σ => ⟨loneTable bits, fun _ _ => rfl,
      fun alpha beta => loneTable_accepted hpos bits deck σ alpha beta⟩

end One

/-- The ciphertexts of the curve `y ^ 2 = x ^ 3 + 1` over the field of order 65537. -/
def sampleCards : Set (ElGamalCiphertextVar (ZMod 65537)) := fun ct =>
  ct.c1.y ^ 2 * ct.c1.z = ct.c1.x ^ 3 + ct.c1.z ^ 3 ∧
    ct.c2.y ^ 2 * ct.c2.z = ct.c2.x ^ 3 + ct.c2.z ^ 3

theorem sampleCards_nontrivial : sampleCards.Nontrivial := by
  refine ⟨⟨⟨0, 1, 0⟩, ⟨0, 1, 0⟩⟩, ⟨rfl, rfl⟩, ⟨⟨0, 1, 0⟩, ⟨0, 1, 1⟩⟩, ⟨rfl, rfl⟩, ?_⟩
  intro h
  exact zero_ne_one (congrArg (fun ct => ct.c2.z) h)

theorem rs_shuffle_sound_iff_sample :
    ∃ data perm, applyRsShufflePermutation ⟨true⟩ sampleBits id = some (data, perm) ∧
      (ShuffleBound sampleCards sampleBits perm ↔ 3 ≤ 1) ∧
      ∀ (deck : Fin 3 → ElGamalCiphertextVar (ZMod 65537)) (σ : Equiv.Perm (Fin 3)),
        ∃ w : WitnessDataVar (ZMod 65537) 3 2,
          (∀ level i, (w.unsLevels level i).bit = sampleBits level i) ∧
          ∀ alpha beta, rsShuffle (List.ofFn deck) (List.ofFn (deck ∘ σ)) w alpha beta () := by
  have hN : 3 < 2 ^ 16 := by decide
  obtain ⟨data, σ, -, -, -, -, hperm⟩ :=
    exists_permutation ⟨true⟩ hN Nat.two_pos (by decide) sampleBits
  exact ⟨data, id ∘ σ, hperm _ id,
    rs_shuffle_sound_iff (by decide) sampleCards_nontrivial ⟨true⟩ sampleBits (hperm _ id)⟩

/-- **The permutation is not bound**: with the bits of the sample, the deck of three cards is
accepted in its own order and with the first two cards exchanged. -/
theorem permutation_not_bound :
    ∃ data perm, applyRsShufflePermutation ⟨true⟩ sampleBits id = some (data, perm) ∧
      ¬ShuffleBound sampleCards sampleBits perm := by
  have hN : 3 < 2 ^ 16 := by decide
  obtain ⟨data, σ, -, -, -, -, hperm⟩ :=
    exists_permutation ⟨true⟩ hN Nat.two_pos (by decide) sampleBits
  exact ⟨data, id ∘ σ, hperm _ id, not_bound sampleCards_nontrivial (by decide)
    Nat.two_pos sampleBits (id ∘ σ)⟩

end NexusVm.Shuffling.RsShuffle
