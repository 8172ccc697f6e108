import NexusVm.Rank
import NexusVm.Shuffling.ChaumPedersen

/-!
# Dealing encrypted cards

`nova/src/shuffling/player_encryption.rs`, with the ciphertexts and keys of
`data_structures.rs` and `public_key_setup.rs`.
-/

namespace NexusVm.Shuffling

/-- `ElGamalCiphertext`. -/
structure ElGamalCiphertext (C : Type) where
  c1 : C
  c2 : C
deriving DecidableEq

section Ciphertexts

variable {p : ℕ} {C : Type} [AddCommGroup C] [Module (ZMod p) C] (G : CurveGroup p C)

def ElGamalCiphertext.addEncryptionLayer (ciphertext : ElGamalCiphertext C) (randomness : ZMod p)
    (publicKey : C) : ElGamalCiphertext C :=
  ⟨ciphertext.c1 + randomness • G.generator, ciphertext.c2 + randomness • publicKey⟩

/-- `make_global_public_keys`. -/
def makeGlobalPublicKeys (shufflerKeys : List C) : C := shufflerKeys.foldl (· + ·) 0

/-- `ElGamalKeys::new`: the public key of a private one. -/
def publicKey (privateKey : ZMod p) : C := privateKey • G.generator

/-- Any number of re-encryption layers; `encrypt` is one on `(0, M)`. -/
def ElGamalCiphertext.addLayers (ciphertext : ElGamalCiphertext C) (randomness : List (ZMod p))
    (publicKey : C) : ElGamalCiphertext C :=
  randomness.foldl (fun ct r => ct.addEncryptionLayer G r publicKey) ciphertext

end Ciphertexts

/-- `ShufflerEncryptionShareForPlayer`. -/
structure ShufflerEncryptionShareForPlayer (p : ℕ) (C : Type) where
  alpha : C
  beta : C
  proof : ChaumPedersenProof p C

/-- `PlayerEncryptedCard`. -/
structure PlayerEncryptedCard (p : ℕ) (C : Type) where
  aU : C
  bU : C
  d : C
  shufflerProofs : List (ChaumPedersenProof p C)

section Shares

variable {p : ℕ} {C : Type} [AddCommGroup C] [Module (ZMod p) C] (S : Sponge (ZMod p))
  (G : CurveGroup p C)

def ShufflerEncryptionShareForPlayer.generate (secretShare : ZMod p)
    (aggregatedPublicKey playerPublicKey : C) : ShufflerEncryptionShareForPlayer p C :=
  let alpha := secretShare • G.generator
  let h := aggregatedPublicKey + playerPublicKey
  let beta := secretShare • h
  ⟨alpha, beta, ChaumPedersenProof.generate S G secretShare G.generator h alpha beta⟩

variable [DecidableEq C]

def ShufflerEncryptionShareForPlayer.verify (share : ShufflerEncryptionShareForPlayer p C)
    (aggregatedPublicKey playerPublicKey : C) : Bool :=
  share.proof.verify S G G.generator (aggregatedPublicKey + playerPublicKey) share.alpha share.beta

/-- `aggregate_player_encryptions`. -/
def aggregatePlayerEncryptions (initialCiphertext : ElGamalCiphertext C)
    (shufflerShares : List (ShufflerEncryptionShareForPlayer p C))
    (aggregatedPublicKey playerPublicKey : C) : Except String (PlayerEncryptedCard p C) :=
  if shufflerShares.all fun share => share.verify S G aggregatedPublicKey playerPublicKey then
    .ok (shufflerShares.foldl
      (fun card share =>
        ⟨card.aU + share.alpha, card.bU + share.beta, card.d + share.alpha,
          card.shufflerProofs ++ [share.proof]⟩)
      ⟨initialCiphertext.c1, initialCiphertext.c2, 0, []⟩)
  else .error "Invalid shuffler encryption share"

end Shares

/-- `CommitteeDecryptionShare`. -/
structure CommitteeDecryptionShare (C : Type) where
  share : C
  memberIndex : ℕ

section Decryption

variable {p : ℕ} {C : Type} [AddCommGroup C] [Module (ZMod p) C] (G : CurveGroup p C)

def generateCommitteeDecryptionShare (encryptedCard : PlayerEncryptedCard p C)
    (committeeSecret : ZMod p) (memberIndex : ℕ) : CommitteeDecryptionShare C :=
  ⟨committeeSecret • encryptedCard.aU, memberIndex⟩

/-- The check of the indices, with the indices that are seen. -/
def checkIndices (expectedMembers : ℕ) :
    List (CommitteeDecryptionShare C) → List Bool → Except String Unit
  | [], _ => .ok ()
  | share :: shares, seenIndices =>
      if expectedMembers ≤ share.memberIndex then .error "Invalid member index"
      else if seenIndices.getD share.memberIndex false then .error "Duplicate member index"
      else checkIndices expectedMembers shares (seenIndices.set share.memberIndex true)

variable [DecidableEq C]

/-- `aggregate_decryption_shares`. -/
def aggregateDecryptionShares (shares : List (CommitteeDecryptionShare C))
    (expectedMembers : ℕ) : Except String C :=
  if shares.length ≠ expectedMembers then
    .error "Missing committee member shares - this is an n-of-n scheme requiring all members"
  else
    match checkIndices expectedMembers shares (List.replicate expectedMembers false) with
    | .error e => .error e
    | .ok () =>
        .ok (shares.foldl (fun mu share => if mu = 0 then share.share else mu + share.share) 0)

/-- `element_to_value` of `CardValueMap`: the multiples of the generator below a number. -/
def elementToValue (values : ℕ) : C → Option ℕ :=
  (List.range values).foldl
    (fun map (i : ℕ) => Function.update map ((i : ZMod p) • G.generator) (some i)) fun _ => none

/-- `decrypt_card`. -/
def decryptCard (encryptedCard : PlayerEncryptedCard p C) (playerSecret : ZMod p)
    (committeeShares : List (CommitteeDecryptionShare C)) (expectedMembers : ℕ) :
    Except String ℕ :=
  let s := playerSecret • encryptedCard.d
  match aggregateDecryptionShares committeeShares expectedMembers with
  | .error e => .error e
  | .ok mu =>
      match elementToValue G 52 (encryptedCard.bU - mu - s) with
      | some value => .ok value
      | none => .error "Recovered element does not correspond to a valid card value"

end Decryption

section Sums

variable {p : ℕ} {C : Type} [AddCommGroup C] [Module (ZMod p) C] {S : Sponge (ZMod p)}
  {G : CurveGroup p C}

theorem makeGlobalPublicKeys_eq (secrets : List (ZMod p)) :
    makeGlobalPublicKeys (secrets.map (publicKey G)) = secrets.sum • G.generator := by
  have hfold : ∀ acc : C, (secrets.map (publicKey G)).foldl (· + ·) acc =
      acc + secrets.sum • G.generator := by
    induction secrets with
    | nil => exact fun acc => by simp
    | cons secret secrets ih =>
        intro acc
        rw [List.map_cons, List.foldl_cons, ih, List.sum_cons, add_smul, ← add_assoc]
        rfl
  rw [makeGlobalPublicKeys, hfold, zero_add]

/-- Layers add up. -/
theorem addLayers_eq (ciphertext : ElGamalCiphertext C) (randomness : List (ZMod p)) (pk : C) :
    ciphertext.addLayers G randomness pk =
      ⟨ciphertext.c1 + randomness.sum • G.generator, ciphertext.c2 + randomness.sum • pk⟩ := by
  induction randomness generalizing ciphertext with
  | nil => simp [ElGamalCiphertext.addLayers]
  | cons r randomness ih =>
      show (ciphertext.addEncryptionLayer G r pk).addLayers G randomness pk = _
      rw [ih, List.sum_cons, add_smul, add_smul, ← add_assoc, ← add_assoc]
      rfl

theorem verify_generate [DecidableEq C] (delta : ZMod p) (pk y : C) :
    (ShufflerEncryptionShareForPlayer.generate S G delta pk y).verify S G pk y = true :=
  ChaumPedersenProof.verify_generate delta G.generator (pk + y)

/-- **Generated shares are aggregated.** -/
theorem aggregatePlayerEncryptions_generate [DecidableEq C] (ciphertext : ElGamalCiphertext C)
    (deltas : List (ZMod p)) (pk y : C) :
    aggregatePlayerEncryptions S G ciphertext
      (deltas.map fun delta => ShufflerEncryptionShareForPlayer.generate S G delta pk y) pk y =
        .ok ⟨ciphertext.c1 + deltas.sum • G.generator, ciphertext.c2 + deltas.sum • (pk + y),
          deltas.sum • G.generator, deltas.map fun delta =>
            (ShufflerEncryptionShareForPlayer.generate S G delta pk y).proof⟩ := by
  have hverify : ((deltas.map fun delta =>
      ShufflerEncryptionShareForPlayer.generate S G delta pk y).all
        fun share => share.verify S G pk y) = true := by
    rw [List.all_map, List.all_eq_true]
    exact fun delta _ => verify_generate delta pk y
  have hfold : ∀ card : PlayerEncryptedCard p C,
      (deltas.map fun delta => ShufflerEncryptionShareForPlayer.generate S G delta pk y).foldl
        (fun card share => (⟨card.aU + share.alpha, card.bU + share.beta, card.d + share.alpha,
          card.shufflerProofs ++ [share.proof]⟩ : PlayerEncryptedCard p C)) card =
        ⟨card.aU + deltas.sum • G.generator, card.bU + deltas.sum • (pk + y),
          card.d + deltas.sum • G.generator, card.shufflerProofs ++ deltas.map fun delta =>
            (ShufflerEncryptionShareForPlayer.generate S G delta pk y).proof⟩ := by
    induction deltas with
    | nil => exact fun card => by simp
    | cons delta deltas ih =>
        intro card
        rw [List.all_map, List.all_cons, Bool.and_eq_true] at hverify
        rw [List.map_cons, List.foldl_cons, ih (by rw [List.all_map]; exact hverify.2)]
        simp only [ShufflerEncryptionShareForPlayer.generate, List.sum_cons, List.map_cons,
          add_smul, add_assoc, List.append_assoc, List.cons_append, List.nil_append]
  unfold aggregatePlayerEncryptions
  rw [if_pos hverify, hfold, zero_add, List.nil_append]

/-! ## Shares of the committee and dealing -/

variable {shares : List (CommitteeDecryptionShare C)}

omit [AddCommGroup C] in
/-- The check passes if the indices are in range, not seen before and not repeated. -/
theorem checkIndices_eq_ok {n : ℕ} {seen : List Bool} (hseen : seen.length = n) :
    checkIndices n shares seen = .ok () ↔
      (∀ share ∈ shares, share.memberIndex < n ∧ seen.getD share.memberIndex false = false) ∧
        (shares.map CommitteeDecryptionShare.memberIndex).Nodup := by
  induction shares generalizing seen with
  | nil => simp [checkIndices]
  | cons share shares ih =>
      unfold checkIndices
      split_ifs with hrange hdup
      · simp only [false_iff, not_and]
        intro hall
        have := (hall share List.mem_cons_self).1
        omega
      · simp only [false_iff, not_and]
        intro hall
        have := (hall share List.mem_cons_self).2
        rw [hdup] at this
        cases this
      · have hlt : share.memberIndex < seen.length := by omega
        have hget : ∀ i, (seen.set share.memberIndex true).getD i false = false ↔
            seen.getD i false = false ∧ i ≠ share.memberIndex := by
          intro i
          by_cases hi : i = share.memberIndex
          · subst hi
            simp [List.getD_eq_getElem?_getD, hlt]
          · simp [List.getD_eq_getElem?_getD, List.getElem?_set_ne (Ne.symm hi), hi]
        rw [ih (by rw [List.length_set, hseen])]
        simp only [hget, List.map_cons, List.nodup_cons, List.mem_map, List.forall_mem_cons]
        rw [Bool.not_eq_true] at hdup
        constructor
        · rintro ⟨hall, hnodup⟩
          refine ⟨⟨⟨by omega, hdup⟩, fun s hs => ⟨(hall s hs).1, (hall s hs).2.1⟩⟩, ?_, hnodup⟩
          rintro ⟨s, hs, heq⟩
          exact (hall s hs).2.2 heq
        · rintro ⟨⟨-, hall⟩, hnot, hnodup⟩
          exact ⟨fun s hs => ⟨(hall s hs).1, (hall s hs).2, fun heq => hnot ⟨s, hs, heq⟩⟩, hnodup⟩

/-- The shares of the committee, in the order of its members. -/
def committeeShares (encryptedCard : PlayerEncryptedCard p C) (secrets : List (ZMod p)) :
    List (CommitteeDecryptionShare C) :=
  secrets.zipIdx.map fun x => generateCommitteeDecryptionShare encryptedCard x.1 x.2

theorem committeeShares_index (encryptedCard : PlayerEncryptedCard p C) (secrets : List (ZMod p)) :
    (committeeShares encryptedCard secrets).map CommitteeDecryptionShare.memberIndex =
      List.range secrets.length := by
  rw [committeeShares, List.map_map, List.range_eq_range', ← List.zipIdx_map_snd]
  rfl

theorem committeeShares_sum (encryptedCard : PlayerEncryptedCard p C) (secrets : List (ZMod p)) :
    ((committeeShares encryptedCard secrets).map CommitteeDecryptionShare.share).sum =
      secrets.sum • encryptedCard.aU := by
  have hshare : (committeeShares encryptedCard secrets).map CommitteeDecryptionShare.share =
      (secrets.zipIdx.map Prod.fst).map fun secret => secret • encryptedCard.aU := by
    rw [committeeShares, List.map_map, List.map_map]
    rfl
  rw [hshare, List.zipIdx_map_fst, List.sum_smul]

variable [DecidableEq C]

/-- **Aggregation is n of n**: it succeeds just on the shares of all members in any order,
and adds them up. -/
theorem aggregateDecryptionShares_eq_ok {n : ℕ} {mu : C} :
    aggregateDecryptionShares shares n = .ok mu ↔
      (shares.map CommitteeDecryptionShare.memberIndex).Perm (List.range n) ∧
        mu = (shares.map CommitteeDecryptionShare.share).sum := by
  have hsum : ∀ acc : C,
      shares.foldl (fun mu share => if mu = 0 then share.share else mu + share.share) acc =
        acc + (shares.map CommitteeDecryptionShare.share).sum := by
    induction shares with
    | nil => exact fun acc => by simp
    | cons share shares ih =>
        intro acc
        rw [List.foldl_cons, ih, List.map_cons, List.sum_cons, ← add_assoc]
        congr 1
        split_ifs with h
        · rw [h, zero_add]
        · rfl
  have hunseen : (List.replicate n false).length = n := List.length_replicate
  have hcheck : checkIndices n shares (List.replicate n false) = .ok () ↔ _ :=
    checkIndices_eq_ok hunseen
  rw [perm_range_iff, List.length_map]
  unfold aggregateDecryptionShares
  split_ifs with hlen
  · simp [hlen]
  · rw [not_not] at hlen
    have hfresh : ∀ i, (List.replicate n false).getD i false = false := by
      intro i
      rw [List.getD_eq_getElem?_getD, List.getElem?_replicate]
      split_ifs
      · rfl
      · rfl
    simp only [hfresh, and_true] at hcheck
    rw [hsum, zero_add]
    cases hok : checkIndices n shares (List.replicate n false) with
    | error e =>
        rw [hok] at hcheck
        simp only [reduceCtorEq, false_iff] at hcheck
        simp only [reduceCtorEq, false_iff]
        rintro ⟨⟨-, hlt, hnodup⟩, -⟩
        refine hcheck ⟨fun share hshare => ?_, hnodup⟩
        exact hlt _ (List.mem_map_of_mem hshare)
    | ok u =>
        obtain ⟨hlt, hnodup⟩ := hcheck.mp hok
        simp only [Except.ok.injEq]
        constructor
        · rintro rfl
          refine ⟨⟨hlen, fun i hi => ?_, hnodup⟩, rfl⟩
          obtain ⟨share, hshare, rfl⟩ := List.mem_map.mp hi
          exact hlt share hshare
        · rintro ⟨-, rfl⟩
          rfl

/-- The table finds the cards. -/
theorem elementToValue_smul [Fact p.Prime] {values : ℕ} (hvalues : values ≤ p) {i : ℕ}
    (hi : i < values) : elementToValue G values ((i : ZMod p) • G.generator) = some i := by
  induction values with
  | zero => omega
  | succ n ih =>
      unfold elementToValue
      rw [List.range_succ, List.foldl_append, List.foldl_cons, List.foldl_nil]
      rcases Nat.lt_succ_iff_lt_or_eq.mp hi with hlt | rfl
      · rw [Function.update_of_ne]
        · exact ih (by omega) hlt
        · rw [ne_eq, smul_inj G.generator_ne_zero, ZMod.natCast_eq_natCast_iff, Nat.ModEq,
            Nat.mod_eq_of_lt (by omega), Nat.mod_eq_of_lt (by omega)]
          omega
      · exact Function.update_self _ _ _

variable [Fact p.Prime] {S : Sponge (ZMod p)} {encryptedCard : PlayerEncryptedCard p C}
  {playerSecret : ZMod p}

/-- The player recovers the card from the sum of the committee's shares. -/
theorem decryptCard_of_sum (hp : 52 < p) {n card : ℕ} (hcard : card < 52)
    (hindices : (shares.map CommitteeDecryptionShare.memberIndex).Perm (List.range n))
    (hmessage : encryptedCard.bU - (shares.map CommitteeDecryptionShare.share).sum - playerSecret • encryptedCard.d = (card : ZMod p) • G.generator) :
    decryptCard G encryptedCard playerSecret shares n = .ok card := by
  have hmu := aggregateDecryptionShares_eq_ok.mpr ⟨hindices, rfl⟩
  unfold decryptCard
  simp only [hmu, hmessage, elementToValue_smul hp.le hcard]

omit [Fact p.Prime] in
/-- Without the shares of all members, each once, there is no card. -/
theorem decryptCard_error {n : ℕ}
    (hindices : ¬(shares.map CommitteeDecryptionShare.memberIndex).Perm (List.range n)) :
    ∃ e, decryptCard G encryptedCard playerSecret shares n = .error e := by
  unfold decryptCard
  cases hmu : aggregateDecryptionShares shares n with
  | error e => exact ⟨e, rfl⟩
  | ok mu => exact absurd (aggregateDecryptionShares_eq_ok.mp hmu).1 hindices

/-- **Dealing a card.**  A card below 52 that is encrypted in any number of layers under the
committee's key and dealt to a player with any generated shares comes back from the
decryption with the shares of all members in any order; share lists that miss a member,
repeat one or have an index out of range give an error. -/
theorem deal_card (hp : 52 < p) (secrets randomness deltas : List (ZMod p))
    (playerSecret : ZMod p) {card : ℕ} (hcard : card < 52) :
    ∃ encryptedCard : PlayerEncryptedCard p C,
      aggregatePlayerEncryptions S G
        (ElGamalCiphertext.addLayers G ⟨0, (card : ZMod p) • G.generator⟩ randomness
          (makeGlobalPublicKeys (secrets.map (publicKey G))))
        (deltas.map fun delta => ShufflerEncryptionShareForPlayer.generate S G delta
          (makeGlobalPublicKeys (secrets.map (publicKey G))) (publicKey G playerSecret))
        (makeGlobalPublicKeys (secrets.map (publicKey G))) (publicKey G playerSecret) =
          .ok encryptedCard ∧
      (∀ shares : List (CommitteeDecryptionShare C),
        shares.Perm (committeeShares encryptedCard secrets) →
        decryptCard G encryptedCard playerSecret shares secrets.length = .ok card) ∧
      ∀ shares : List (CommitteeDecryptionShare C),
        ((∃ j < secrets.length, ∀ share ∈ shares, share.memberIndex ≠ j) ∨
          ¬(shares.map CommitteeDecryptionShare.memberIndex).Nodup ∨
          ∃ share ∈ shares, secrets.length ≤ share.memberIndex) →
        ∃ e, decryptCard G encryptedCard playerSecret shares secrets.length = .error e := by
  refine ⟨_, aggregatePlayerEncryptions_generate _ deltas _ _, ?_, ?_⟩
  · intro shares hperm
    apply decryptCard_of_sum hp hcard
    · have hindices := hperm.map CommitteeDecryptionShare.memberIndex
      rw [committeeShares_index] at hindices
      exact hindices
    · rw [(hperm.map _).sum_eq, committeeShares_sum, makeGlobalPublicKeys_eq, addLayers_eq]
      simp only [publicKey]
      module
  · intro shares hbad
    apply decryptCard_error
    rw [perm_range_iff]
    rintro ⟨hlen, hlt, hnodup⟩
    rcases hbad with ⟨j, hj, hmiss⟩ | hrepeat | ⟨share, hshare, hout⟩
    · have hmem := (perm_range_iff.mpr ⟨hlen, hlt, hnodup⟩).mem_iff.mpr (List.mem_range.mpr hj)
      obtain ⟨share, hshare, rfl⟩ := List.mem_map.mp hmem
      exact hmiss share hshare rfl
    · exact hrepeat hnodup
    · have := hlt _ (List.mem_map_of_mem hshare)
      omega

theorem deal_card_small :
    ∃ encryptedCard : PlayerEncryptedCard 257 (ZMod 257),
      aggregatePlayerEncryptions (Sponge.constant 3) smallGroup
        (ElGamalCiphertext.addLayers smallGroup ⟨0, ((42 : ℕ) : ZMod 257) • smallGroup.generator⟩
          [5, 6] (makeGlobalPublicKeys ([7, 8].map (publicKey smallGroup))))
        ([9, 0].map fun delta => ShufflerEncryptionShareForPlayer.generate (Sponge.constant 3)
          smallGroup delta (makeGlobalPublicKeys ([7, 8].map (publicKey smallGroup)))
          (publicKey smallGroup 11))
        (makeGlobalPublicKeys ([7, 8].map (publicKey smallGroup))) (publicKey smallGroup 11) =
          .ok encryptedCard ∧
      (∀ shares : List (CommitteeDecryptionShare (ZMod 257)),
        shares.Perm (committeeShares encryptedCard [7, 8]) →
        decryptCard smallGroup encryptedCard 11 shares 2 = .ok 42) ∧
      ∀ shares : List (CommitteeDecryptionShare (ZMod 257)),
        ((∃ j < 2, ∀ share ∈ shares, share.memberIndex ≠ j) ∨
          ¬(shares.map CommitteeDecryptionShare.memberIndex).Nodup ∨
          ∃ share ∈ shares, 2 ≤ share.memberIndex) →
        ∃ e, decryptCard smallGroup encryptedCard 11 shares 2 = .error e :=
  deal_card (by norm_num) [7, 8] [5, 6] [9, 0] 11 (by norm_num)

end Sums

end NexusVm.Shuffling
