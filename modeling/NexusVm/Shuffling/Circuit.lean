import NexusVm.Shuffling.ChaumPedersen
import NexusVm.Shuffling.Encryption

/-!
# The shuffle circuit

`nova/src/shuffling/circuit.rs`.  The calls of `product.enforce_equal` and of
`verify_sorting_order` are commented out in the source, so the circuit computes two products
and compares nothing.
-/

namespace NexusVm.Shuffling

open Gadget

/-- `ShuffleProofVar`. -/
structure ShuffleProofVar (F : Type) where
  inputDeck : List (ElGamalCiphertextVar F)
  sortedDeck : List (ElGamalCiphertextVar F × F)
  encryptionRandomizationValues : List F

/-- An assignment to the variables that `ShuffleCircuit::generate_constraints` allocates. -/
structure ShuffleAssignment (F : Type) where
  seed : F
  shufflerPublicKey : ProjectiveVar F
  proof : ShuffleProofVar F
  alpha : F
  beta : F

section Circuit

variable {p : ℕ} (S : Sponge (ZMod p)) (C : CurveVar (ZMod p))

def CurveVar.allocateCiphertext {F : Type} (C : CurveVar F) (ct : ElGamalCiphertextVar F) :
    Gadget Unit := do
  enforce (C.Allocated ct.c1)
  enforce (C.Allocated ct.c2)

/-- `ShuffleProofVar::new_variable`. -/
def CurveVar.allocateProof {F : Type} (C : CurveVar F) (proof : ShuffleProofVar F) :
    Gadget Unit := do
  proof.inputDeck.forM fun ct => C.allocateCiphertext ct
  proof.sortedDeck.forM fun card => C.allocateCiphertext card.1

/-- The squeezes of `generate_random_values_for_deck`. -/
def squeezeValues : ℕ → S.State → List (ZMod p)
  | 0, _ => []
  | n + 1, st => (S.squeeze st).1 :: squeezeValues n (S.squeeze st).2

/-- `generate_random_values_for_deck`. -/
def generateRandomValuesForDeck (seed : ZMod p) (deckSize : ℕ) : List (ZMod p) :=
  squeezeValues S deckSize (S.absorb S.new seed)

/-- `compute_deck_product`. -/
def computeDeckProduct {F : Type} [CommRing F] (deck : List (ElGamalCiphertextVar F × F))
    (alpha beta : F) : F :=
  let alpha2 := alpha * alpha
  let alpha3 := alpha2 * alpha
  let alpha4 := alpha3 * alpha
  let alpha5 := alpha4 * alpha
  deck.foldl
    (fun product card =>
      let cardRepr := card.1.c1.x + alpha * card.1.c1.y + alpha2 * card.1.c1.z +
        alpha3 * card.1.c2.x + alpha4 * card.1.c2.y + alpha5 * card.1.c2.z
      product * (cardRepr + beta * card.2))
    1

/-- `verify_equivalance_through_grand_product`: the products are computed and logged. -/
def verifyEquivalanceThroughGrandProduct {F : Type} [CommRing F]
    (deck sortedDeck : List (ElGamalCiphertextVar F × F)) (alpha beta : F) : Gadget Unit := do
  let _product := computeDeckProduct deck alpha beta
  let _sortedProduct := computeDeckProduct sortedDeck alpha beta
  return ()

/-- `ShuffleCircuit::generate_constraints`. -/
def generateConstraints (a : ShuffleAssignment (ZMod p)) : Gadget Unit := do
  enforce (C.Allocated a.shufflerPublicKey)
  C.allocateProof a.proof
  let randomValues := generateRandomValuesForDeck S a.seed a.proof.inputDeck.length
  let rerandomizedDeck ← reencryptCardsWithNewRandomization C a.proof.inputDeck
    a.proof.encryptionRandomizationValues a.shufflerPublicKey
  let deckWithRerandomizations := rerandomizedDeck.zip randomValues
  verifyEquivalanceThroughGrandProduct deckWithRerandomizations a.proof.sortedDeck a.alpha a.beta

end Circuit

section Constraints

variable {p : ℕ} {S : Sponge (ZMod p)} {C : CurveVar (ZMod p)}

theorem allocateCiphertext_iff {ct : ElGamalCiphertextVar (ZMod p)} {u : Unit} :
    C.allocateCiphertext ct u ↔ C.Allocated ct.c1 ∧ C.Allocated ct.c2 := by
  simp only [CurveVar.allocateCiphertext, bind_iff, enforce_iff, exists_const]

/-- **All that the circuit enforces**: the points are allocated points of the curve, and there
are as many randomization values as cards. -/
theorem generateConstraints_iff {a : ShuffleAssignment (ZMod p)} {u : Unit} :
    generateConstraints S C a u ↔
      C.Allocated a.shufflerPublicKey ∧
      (∀ ct ∈ a.proof.inputDeck, C.Allocated ct.c1 ∧ C.Allocated ct.c2) ∧
      (∀ card ∈ a.proof.sortedDeck, C.Allocated card.1.c1 ∧ C.Allocated card.1.c2) ∧
      a.proof.inputDeck.length = a.proof.encryptionRandomizationValues.length := by
  simp only [generateConstraints, CurveVar.allocateProof, reencryptCardsWithNewRandomization,
    verifyEquivalanceThroughGrandProduct, bind_iff, enforce_iff, forM_iff, allocateCiphertext_iff,
    pure_iff, exists_const, exists_and_left, and_assoc]
  constructor
  · rintro ⟨hpk, hinput, hsorted, hlen, -⟩
    exact ⟨hpk, hinput, hsorted, hlen⟩
  · rintro ⟨hpk, hinput, hsorted, hlen⟩
    exact ⟨hpk, hinput, hsorted, hlen, _, rfl, trivial⟩

/-! ## Soundness and a small curve -/

variable [Fact p.Prime]

/-- The re-randomised input cards with the random values at their indices. -/
def rerandomizedPairs (S : Sponge (ZMod p)) (C : CurveVar (ZMod p)) (seed : ZMod p)
    (shufflerPk : ProjectiveVar (ZMod p)) (proof : ShuffleProofVar (ZMod p)) :
    List (ElGamalCiphertextVar (ZMod p) × ZMod p) :=
  (List.zipWith (fun card r => rerandomizeCiphertext C card r shufflerPk) proof.inputDeck
      proof.encryptionRandomizationValues).zip
    (generateRandomValuesForDeck S seed proof.inputDeck.length)

/-- For decks of `inputSize` and `sortedSize` cards and `numRandomizations` values: what satisfies
the constraints for all challenges is a sorted permutation of the re-randomised cards. -/
def ShuffleSound (S : Sponge (ZMod p)) (C : CurveVar (ZMod p))
    (inputSize sortedSize numRandomizations : ℕ) : Prop :=
  ∀ (seed : ZMod p) (shufflerPk : ProjectiveVar (ZMod p)) (proof : ShuffleProofVar (ZMod p)),
    proof.inputDeck.length = inputSize → proof.sortedDeck.length = sortedSize →
    proof.encryptionRandomizationValues.length = numRandomizations →
    (∀ alpha beta, generateConstraints S C ⟨seed, shufflerPk, proof, alpha, beta⟩ ()) →
    proof.sortedDeck.Perm (rerandomizedPairs S C seed shufflerPk proof) ∧
      proof.sortedDeck.Pairwise fun a b => a.2.val ≤ b.2.val

variable {S : Sponge (ZMod p)} {C : CurveVar (ZMod p)}

omit [Fact p.Prime] in
theorem length_squeezeValues (n : ℕ) (st : S.State) : (squeezeValues S n st).length = n := by
  induction n generalizing st with
  | zero => rfl
  | succ n ih => exact congrArg Nat.succ (ih _)

/-- A sorted deck whose random values are all one more than the first value of the sponge. -/
theorem exists_forged (S : Sponge (ZMod p)) (C : CurveVar (ZMod p)) (n m : ℕ)
    (hcards : ¬(n = 0 ∧ m = 0)) : ∃ proof : ShuffleProofVar (ZMod p),
      proof.inputDeck.length = n ∧ proof.sortedDeck.length = m ∧
      proof.encryptionRandomizationValues.length = n ∧
      (∀ alpha beta, generateConstraints S C ⟨0, C.generator, proof, alpha, beta⟩ ()) ∧
      ¬proof.sortedDeck.Perm (rerandomizedPairs S C 0 C.generator proof) := by
  let card : ElGamalCiphertextVar (ZMod p) := ⟨C.generator, C.generator⟩
  have hcard : C.Allocated card.c1 ∧ C.Allocated card.c2 :=
    ⟨C.allocated_generator, C.allocated_generator⟩
  let first := (S.squeeze (S.absorb S.new 0)).1
  let proof : ShuffleProofVar (ZMod p) :=
    ⟨List.replicate n card, List.replicate m (card, first + 1), List.replicate n 0⟩
  have hn : proof.inputDeck.length = n := List.length_replicate
  have hrandom : proof.encryptionRandomizationValues.length = n := List.length_replicate
  refine ⟨proof, hn, List.length_replicate, hrandom, ?_, ?_⟩
  · intro alpha beta
    rw [generateConstraints_iff]
    refine ⟨C.allocated_generator, ?_, ?_, hn.trans hrandom.symm⟩
    · intro ct hct
      rw [List.eq_of_mem_replicate hct]
      exact hcard
    · intro pair hpair
      rw [List.eq_of_mem_replicate hpair]
      exact hcard
  · intro hperm
    -- the random values of the two lists
    have hvalues := hperm.map Prod.snd
    have hlen : (generateRandomValuesForDeck S 0 n).length = n := length_squeezeValues _ _
    rw [rerandomizedPairs, hn, List.map_snd_zip (by simp [hn, hrandom, hlen]), List.map_replicate,
      List.replicate_perm] at hvalues
    have hm : m = n := by
      rw [← hlen, ← hvalues, List.length_replicate]
    rw [hm] at hvalues hcards
    obtain ⟨n, rfl⟩ := Nat.exists_eq_succ_of_ne_zero fun h => hcards ⟨h, h⟩
    have hhead : first + 1 = first := (List.cons_eq_cons.mp hvalues).1
    exact one_ne_zero (add_eq_left.mp hhead)

/-- **The circuit is sound only without cards**, or where it cannot be synthesised because
there are more or fewer randomization values than cards. -/
theorem shuffle_sound_iff (S : Sponge (ZMod p)) (C : CurveVar (ZMod p))
    (inputSize sortedSize numRandomizations : ℕ) :
    ShuffleSound S C inputSize sortedSize numRandomizations ↔
      inputSize ≠ numRandomizations ∨ (inputSize = 0 ∧ sortedSize = 0) := by
  constructor
  · intro hsound
    by_contra hfails
    obtain ⟨hsizes, hcards⟩ := not_or.mp hfails
    rw [not_not] at hsizes
    obtain ⟨proof, hinput, hsorted, hrandom, hall, hforged⟩ :=
      exists_forged S C inputSize sortedSize hcards
    exact hforged (hsound 0 C.generator proof hinput hsorted (hrandom.trans hsizes) hall).1
  · rintro hsizes seed shufflerPk proof hinput hsorted hrandom hall
    rcases hsizes with hsizes | ⟨hnone, hempty⟩
    · obtain ⟨-, -, -, hlen⟩ := generateConstraints_iff.mp (hall 0 0)
      exact absurd (hinput.symm.trans (hlen.trans hrandom)) hsizes
    · have hdeck : proof.inputDeck = [] := List.eq_nil_of_length_eq_zero (hinput.trans hnone)
      have hlast : proof.sortedDeck = [] := List.eq_nil_of_length_eq_zero (hsorted.trans hempty)
      rw [rerandomizedPairs, hdeck, hlast]
      exact ⟨List.Perm.nil, List.Pairwise.nil⟩

end Constraints

scoped instance fact_prime_seven : Fact (Nat.Prime 7) := ⟨by norm_num⟩

/-- The complete addition formulas of the curve with the coefficients `a` and `b`. -/
def addPoints {F : Type} [CommRing F] (a b : F) (P Q : ProjectiveVar F) : ProjectiveVar F :=
  let xz := P.x * Q.z + Q.x * P.z
  let xy := P.x * Q.y + Q.x * P.y
  let yz := P.y * Q.z + Q.y * P.z
  let low := P.y * Q.y - a * xz - 3 * b * (P.z * Q.z)
  let high := P.y * Q.y + a * xz + 3 * b * (P.z * Q.z)
  let slope := 3 * (P.x * Q.x) + a * (P.z * Q.z)
  let rest := a * (P.x * Q.x) + 3 * b * xz - a * a * (P.z * Q.z)
  ⟨xy * low - yz * rest, slope * rest + high * low, yz * high + xy * slope⟩

/-- The curve `y ^ 2 = x ^ 3 + 3` over the field of order 7, of order 13. -/
def smallCurve : CurveVar (ZMod 7) where
  Allocated P := P ≠ ⟨0, 0, 0⟩ ∧ P.y ^ 2 * P.z = P.x ^ 3 + 3 * P.z ^ 3
  generator := ⟨1, 2, 1⟩
  add := addPoints 0 3
  scalarMulLe P bits := bits.foldr
    (fun bit acc => if bit then addPoints 0 3 (addPoints 0 3 acc acc) P else addPoints 0 3 acc acc)
    ⟨0, 1, 0⟩
  allocated_generator := by decide

/-- Thirteen times the generator is the point at infinity. -/
example : (smallCurve.scalarMulLe smallCurve.generator [true, false, true, true]).z = 0 := by decide

theorem shuffle_sound_iff_deck :
    ShuffleSound (Sponge.constant 0) smallCurve 52 52 52 ↔
      52 ≠ 52 ∨ (52 = 0 ∧ 52 = 0) :=
  shuffle_sound_iff (Sponge.constant 0) smallCurve 52 52 52

/-- **A forged deck is accepted**: 52 cards with the random value 1, where the sponge gives 0. -/
theorem forged_deck_accepted : ¬ShuffleSound (Sponge.constant 0) smallCurve 52 52 52 := by
  intro hsound
  have hcards : ¬(52 = 0 ∧ 52 = 0) := by decide
  obtain ⟨proof, hinput, hsorted, hrandom, hall, hforged⟩ :=
    exists_forged (Sponge.constant 0) smallCurve 52 52 hcards
  exact hforged (hsound 0 smallCurve.generator proof hinput hsorted hrandom hall).1

end NexusVm.Shuffling
