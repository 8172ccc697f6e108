import NexusVm.Nova.Run
import NexusVm.Rank
import NexusVm.Shuffling.Circuit

/-!
# Verification of a re-randomization

`verify_rerandomization` of `nova/src/shuffling/encryption.rs`.  The permutation is a vector of
indices that the caller chooses; a run gives the pairs of ciphertexts that are enforced to be
equal.
-/

namespace NexusVm.Shuffling

open Nova (Run bind_eq_ok failIf_eq_ok mapM_eq_ok_iff)

inductive SynthesisError
  | unsatisfiable
deriving DecidableEq

/-- An element of a vector; an index past the end panics. -/
def element {E α : Type} (l : List α) (i : ℕ) : Run E α :=
  match l[i]? with
  | some a => .ok a
  | none => .error .panic

section Verify

variable {p : ℕ} (C : CurveVar (ZMod p))

/-- What the loop enforces for one index. -/
def enforceCard (inputDeck outputDeck : List (ElGamalCiphertextVar (ZMod p)))
    (rerandomizations : List (ZMod p)) (shufflerPk : ProjectiveVar (ZMod p)) (permIdx i : ℕ) :
    Run SynthesisError (ElGamalCiphertextVar (ZMod p) × ElGamalCiphertextVar (ZMod p)) := do
  let card ← element inputDeck permIdx
  let r ← element rerandomizations i
  let expected := rerandomizeCiphertext C card r shufflerPk
  let output ← element outputDeck i
  .ok (expected, output)

/-- `verify_rerandomization`: the ciphertexts that are enforced to be equal. -/
def verifyRerandomization (inputDeck outputDeck : List (ElGamalCiphertextVar (ZMod p)))
    (rerandomizations : List (ZMod p)) (shufflerPk : ProjectiveVar (ZMod p))
    (permutation : List ℕ) :
    Run SynthesisError (List (ElGamalCiphertextVar (ZMod p) × ElGamalCiphertextVar (ZMod p))) := do
  Run.failIf (inputDeck.length ≠ outputDeck.length ∨ inputDeck.length ≠ rerandomizations.length)
    .unsatisfiable
  permutation.zipIdx.mapM fun (permIdx, i) =>
    enforceCard C inputDeck outputDeck rerandomizations shufflerPk permIdx i

variable (SamePoint : ProjectiveVar (ZMod p) → ProjectiveVar (ZMod p) → Prop)

/-- `enforce_equal` on both points. -/
def SameCiphertext (a b : ElGamalCiphertextVar (ZMod p)) : Prop :=
  SamePoint a.c1 b.c1 ∧ SamePoint a.c2 b.c2

/-- The output is a re-randomised permutation of the whole input deck. -/
def IsShuffle (inputDeck outputDeck : List (ElGamalCiphertextVar (ZMod p)))
    (rerandomizations : List (ZMod p)) (shufflerPk : ProjectiveVar (ZMod p)) : Prop :=
  ∃ shuffled : List (ElGamalCiphertextVar (ZMod p)), shuffled.Perm inputDeck ∧
    List.Forall₂ (SameCiphertext SamePoint)
      (List.zipWith (fun card r => rerandomizeCiphertext C card r shufflerPk) shuffled
        rerandomizations) outputDeck

/-- The right length, no index twice and none out of range. -/
structure WellFormedIndices (n : ℕ) (permutation : List ℕ) : Prop where
  length : permutation.length = n
  nodup : permutation.Nodup
  lt : ∀ i ∈ permutation, i < n

/-- What is accepted is a shuffle, and other index vectors are an error. -/
structure VerifiesShuffle (inputDeck outputDeck : List (ElGamalCiphertextVar (ZMod p)))
    (rerandomizations : List (ZMod p)) (shufflerPk : ProjectiveVar (ZMod p))
    (permutation : List ℕ) : Prop where
  sound : ∀ constraints,
    verifyRerandomization C inputDeck outputDeck rerandomizations shufflerPk permutation =
      .ok constraints →
    (∀ c ∈ constraints, SameCiphertext SamePoint c.1 c.2) →
    IsShuffle C SamePoint inputDeck outputDeck rerandomizations shufflerPk
  rejects : ¬ WellFormedIndices inputDeck.length permutation → ∃ e,
    verifyRerandomization C inputDeck outputDeck rerandomizations shufflerPk permutation =
      .error (.error e)

end Verify

theorem WellFormedIndices.perm {n : ℕ} {permutation : List ℕ}
    (h : WellFormedIndices n permutation) :
    permutation.Perm (List.range n) :=
  perm_range_iff.mpr ⟨h.length, h.lt, h.nodup⟩

/-! ## What it does and a card that no index names -/

section Runs

variable {p : ℕ} {C : CurveVar (ZMod p)} {SamePoint : ProjectiveVar (ZMod p) →
  ProjectiveVar (ZMod p) → Prop}

theorem element_eq_ok {E α : Type} {l : List α} {i : ℕ} {a : α} :
    (element l i : Run E α) = .ok a ↔ l[i]? = some a := by
  rw [element]
  cases l[i]? with
  | none => simp
  | some b => simp

/-- Nothing in the loop returns an error: what goes wrong there panics. -/
theorem element_ne_error {E α : Type} (l : List α) (i : ℕ) (e : E) :
    (element l i : Run E α) ≠ .error (.error e) := by
  rw [element]
  cases l[i]? with
  | none => simp
  | some b => simp

theorem bind_ne_error {E α β : Type} {x : Run E α} {f : α → Run E β} {e : E}
    (hx : x ≠ .error (.error e)) (hf : ∀ a, f a ≠ .error (.error e)) :
    (x >>= f) ≠ .error (.error e) := by
  cases x with
  | ok a => exact hf a
  | error failure =>
      intro h
      have hfailure : failure = .error e := Except.error.inj h
      exact hx (congrArg Except.error hfailure)

theorem mapM_ne_error {E α β : Type} {f : α → Run E β} {e : E} (l : List α)
    (hf : ∀ a, f a ≠ .error (.error e)) : l.mapM f ≠ .error (.error e) := by
  induction l with
  | nil =>
      rw [List.mapM_nil]
      intro h
      cases h
  | cons a l ih =>
      rw [List.mapM_cons]
      apply bind_ne_error (hf a)
      intro b
      apply bind_ne_error ih
      intro bs h
      cases h

variable {rerandomizations : List (ZMod p)}
  {inputDeck outputDeck : List (ElGamalCiphertextVar (ZMod p))}

/-- Decks of one size are never an error, whatever the indices are. -/
theorem verifyRerandomization_ne_error (houtput : inputDeck.length = outputDeck.length)
    (hrandom : inputDeck.length = rerandomizations.length) (shufflerPk : ProjectiveVar (ZMod p))
    (permutation : List ℕ) (e : SynthesisError) :
    verifyRerandomization C inputDeck outputDeck rerandomizations shufflerPk permutation ≠
      .error (.error e) := by
  have hguard : Run.failIf (inputDeck.length ≠ outputDeck.length ∨
      inputDeck.length ≠ rerandomizations.length) SynthesisError.unsatisfiable = .ok () := by
    rw [failIf_eq_ok, not_or, not_not, not_not]
    exact ⟨houtput, hrandom⟩
  rw [verifyRerandomization, hguard]
  apply mapM_ne_error
  rintro ⟨permIdx, i⟩
  apply bind_ne_error (element_ne_error _ _ _)
  intro card
  apply bind_ne_error (element_ne_error _ _ _)
  intro r
  apply bind_ne_error (element_ne_error _ _ _)
  intro output h
  cases h

/-- Decks of different sizes are an error. -/
theorem verifyRerandomization_eq_error
    (h : inputDeck.length ≠ outputDeck.length ∨ inputDeck.length ≠ rerandomizations.length)
    (shufflerPk : ProjectiveVar (ZMod p)) (permutation : List ℕ) :
    verifyRerandomization C inputDeck outputDeck rerandomizations shufflerPk permutation =
      .error (.error .unsatisfiable) := by
  rw [verifyRerandomization, Run.failIf, if_pos h]
  rfl

variable {shufflerPk : ProjectiveVar (ZMod p)}

theorem enforceCard_eq_ok {permIdx i : ℕ}
    {c : ElGamalCiphertextVar (ZMod p) × ElGamalCiphertextVar (ZMod p)} :
    enforceCard C inputDeck outputDeck rerandomizations shufflerPk permIdx i = .ok c ↔
      ∃ card r, inputDeck[permIdx]? = some card ∧ rerandomizations[i]? = some r ∧
        outputDeck[i]? = some c.2 ∧ c.1 = rerandomizeCiphertext C card r shufflerPk := by
  simp only [enforceCard, bind_eq_ok, element_eq_ok, Except.ok.injEq]
  constructor
  · rintro ⟨card, hcard, r, hr, output, houtput, rfl⟩
    exact ⟨card, r, hcard, hr, houtput, rfl⟩
  · rintro ⟨card, r, hcard, hr, houtput, hexpected⟩
    exact ⟨card, hcard, r, hr, c.2, houtput, Prod.ext hexpected.symm rfl⟩

theorem filterMap_range_getElem? {α : Type} (l : List α) :
    (List.range l.length).filterMap (l[·]?) = l := by
  induction l with
  | nil => rfl
  | cons a l ih =>
      rw [List.length_cons, List.range_succ_eq_map, List.filterMap_cons, List.filterMap_map]
      simp only [List.getElem?_cons_zero, List.cons_inj_right]
      exact ih

theorem drop_eq_cons {α : Type} {l : List α} {k : ℕ} {a : α} (h : l[k]? = some a) :
    l.drop k = a :: l.drop (k + 1) := by
  obtain ⟨hk, rfl⟩ := List.getElem?_eq_some_iff.mp h
  exact List.drop_eq_getElem_cons hk

variable {constraints : List (ElGamalCiphertextVar (ZMod p) × ElGamalCiphertextVar (ZMod p))}
  {permutation : List ℕ}

/-- The cards from position `k` on, by induction on the indices that are left. -/
theorem forall₂_sameCiphertext {k : ℕ}
    (hrun : List.Forall₂ (fun t c => enforceCard C inputDeck outputDeck rerandomizations shufflerPk t.1 t.2 = .ok c) (permutation.zipIdx k) constraints)
    (hsat : ∀ c ∈ constraints, SameCiphertext SamePoint c.1 c.2)
    (houtput : k + permutation.length = outputDeck.length)
    (hrandom : k + permutation.length = rerandomizations.length) :
    List.Forall₂ (SameCiphertext SamePoint)
      (List.zipWith (fun card r => rerandomizeCiphertext C card r shufflerPk)
        (permutation.filterMap (inputDeck[·]?)) (rerandomizations.drop k))
      (outputDeck.drop k) := by
  induction permutation generalizing k constraints with
  | nil =>
      have hend : outputDeck.drop k = [] := List.drop_eq_nil_of_le (by simpa using houtput.ge)
      rw [List.filterMap_nil, List.zipWith_nil_left, hend]
      exact List.Forall₂.nil
  | cons permIdx permutation ih =>
      rw [List.zipIdx_cons] at hrun
      rw [List.length_cons] at houtput hrandom
      cases hrun with
      | @cons _ c _ constraints hcard hrest =>
          obtain ⟨hfirst, hsat⟩ := List.forall_mem_cons.mp hsat
          obtain ⟨card, r, hcard, hr, hout, hexpected⟩ := enforceCard_eq_ok.mp hcard
          have htail := ih hrest hsat (by omega) (by omega)
          rw [drop_eq_cons hr, drop_eq_cons hout, List.filterMap_cons, hcard]
          rw [hexpected] at hfirst
          exact List.Forall₂.cons hfirst htail

/-- **Indices that are a permutation make an accepted output a shuffle.** -/
theorem isShuffle_of_accepted (hwell : WellFormedIndices inputDeck.length permutation)
    (hrun : verifyRerandomization C inputDeck outputDeck rerandomizations shufflerPk permutation = .ok constraints)
    (hsat : ∀ c ∈ constraints, SameCiphertext SamePoint c.1 c.2) :
    IsShuffle C SamePoint inputDeck outputDeck rerandomizations shufflerPk := by
  obtain ⟨_, hguard, hloop⟩ := bind_eq_ok.mp hrun
  rw [failIf_eq_ok, not_or, not_not, not_not] at hguard
  obtain ⟨houtput, hrandom⟩ := hguard
  have hcards := forall₂_sameCiphertext (mapM_eq_ok_iff.mp hloop) hsat
    (by rw [Nat.zero_add, hwell.length, houtput]) (by rw [Nat.zero_add, hwell.length, hrandom])
  rw [List.drop_zero, List.drop_zero] at hcards
  refine ⟨_, ?_, hcards⟩
  have hperm := hwell.perm.filterMap (inputDeck[·]?)
  rwa [filterMap_range_getElem?] at hperm

/-- **Decks of one size are verified exactly with indices that are a permutation.** -/
theorem verifies_shuffle_iff (C : CurveVar (ZMod p)) (SamePoint : ProjectiveVar (ZMod p) →
      ProjectiveVar (ZMod p) → Prop)
    (inputDeck outputDeck : List (ElGamalCiphertextVar (ZMod p))) (rerandomizations : List (ZMod p))
    (shufflerPk : ProjectiveVar (ZMod p)) (permutation : List ℕ) :
    VerifiesShuffle C SamePoint inputDeck outputDeck rerandomizations shufflerPk permutation ↔
      inputDeck.length ≠ outputDeck.length ∨ inputDeck.length ≠ rerandomizations.length ∨
        WellFormedIndices inputDeck.length permutation := by
  constructor
  · intro h
    by_contra hfails
    simp only [not_or, not_not] at hfails
    obtain ⟨houtput, hrandom, hwell⟩ := hfails
    obtain ⟨e, he⟩ := h.rejects hwell
    exact verifyRerandomization_ne_error houtput hrandom shufflerPk permutation e he
  · rw [← or_assoc]
    rintro (hsizes | hwell)
    · have herror := verifyRerandomization_eq_error (C := C) hsizes shufflerPk permutation
      constructor
      · intro constraints hrun
        rw [herror] at hrun
        cases hrun
      · exact fun _ => ⟨_, herror⟩
    · constructor
      · exact fun _ hrun hsat => isShuffle_of_accepted hwell hrun hsat
      · exact fun hbad => absurd hwell hbad

end Runs

/-- Equality of points in projective coordinates. -/
def samePoint {F : Type} [Mul F] [Zero F] (P Q : ProjectiveVar F) : Prop :=
  (P.z = 0 ∧ Q.z = 0) ∨ (P.x * Q.z = Q.x * P.z ∧ P.y * Q.z = Q.y * P.z)

/-- A ciphertext of the small curve. -/
def inputCard : ElGamalCiphertextVar (ZMod 7) := ⟨smallCurve.generator, smallCurve.generator⟩

def otherCard : ElGamalCiphertextVar (ZMod 7) := ⟨smallCurve.generator, ⟨0, 1, 0⟩⟩

/-- **No indices, no constraints**: any output deck is accepted.  An index past the deck panics,
and a repeated index takes one card twice. -/
theorem unnamed_card_accepted :
    verifyRerandomization smallCurve [inputCard] [otherCard] [0] smallCurve.generator [] = .ok [] ∧
      ¬ IsShuffle smallCurve samePoint [inputCard] [otherCard] [0] smallCurve.generator ∧
      verifyRerandomization smallCurve [inputCard] [otherCard] [0] smallCurve.generator [1] =
        .error .panic ∧
      (∃ constraints, verifyRerandomization smallCurve [inputCard, otherCard]
        [inputCard, inputCard] [0, 0] smallCurve.generator [0, 0] = .ok constraints ∧
        ∀ c ∈ constraints, SameCiphertext samePoint c.1 c.2) ∧
      ¬ VerifiesShuffle smallCurve samePoint [inputCard] [otherCard] [0] smallCurve.generator
        [] := by
  have hnot : ¬ IsShuffle smallCurve samePoint [inputCard] [otherCard] [0]
      smallCurve.generator := by
    rintro ⟨shuffled, hperm, hcards⟩
    obtain rfl := List.perm_singleton.mp hperm
    cases hcards with
    | cons hcard _ =>
        revert hcard
        unfold SameCiphertext samePoint
        decide
  refine ⟨rfl, hnot, rfl, ⟨_, rfl, ?_⟩, fun h => hnot (h.sound [] rfl fun _ hc => ?_)⟩
  · intro c hc
    unfold SameCiphertext samePoint
    revert c
    decide
  · cases hc

end NexusVm.Shuffling
