import NexusVm.Numerals
import Mathlib.Algebra.Module.ZMod
import Mathlib.Algebra.Field.ZMod
import Mathlib.Tactic.Module
import Mathlib.Tactic.NormNum.Prime

/-!
# Chaum-Pedersen proofs

`nova/src/shuffling/chaum_pedersen.rs` and `utils.rs`.  The curve and the sponge come from
other crates: the curve is a group of prime order whose points have an encoding of fixed
length, the sponge any deterministic state machine on scalars.
-/

namespace NexusVm.Shuffling

/-- `PoseidonSponge` with the configuration of the crate; `squeeze` is
`squeeze_field_elements(1)[0]`. -/
structure Sponge (F : Type) where
  State : Type
  new : State
  absorb : State → F → State
  squeeze : State → F × State

/-- What a sponge absorbs. -/
def Sponge.recording (F : Type) [Zero F] : Sponge F where
  State := List F
  new := []
  absorb st x := st ++ [x]
  squeeze st := (0, st)

/-- A sponge that always answers the same. -/
def Sponge.constant {F : Type} (c : F) : Sponge F where
  State := Unit
  new := ()
  absorb _ _ := ()
  squeeze _ := (c, ())

/-- `CurveGroup`: a group of prime order with a generator, and `serialize_compressed`. -/
structure CurveGroup (p : ℕ) (C : Type) [AddCommGroup C] [Module (ZMod p) C] where
  generator : C
  serializeCompressed : C → List UInt8
  compressedSize : ℕ
  generator_ne_zero : generator ≠ 0
  exists_smul : ∀ x : C, ∃ a : ZMod p, x = a • generator
  serialize_injective : Function.Injective serializeCompressed
  length_serialize : ∀ x, (serializeCompressed x).length = compressedSize

section Group

variable {p : ℕ} {C : Type} [AddCommGroup C] [Module (ZMod p) C] [Fact p.Prime]

/-- Every element but zero generates the group. -/
theorem CurveGroup.exists_smul_of_ne_zero (G : CurveGroup p C) {g : C} (hg : g ≠ 0) (x : C) :
    ∃ a : ZMod p, x = a • g := by
  obtain ⟨b, hb⟩ := G.exists_smul g
  obtain ⟨a, ha⟩ := G.exists_smul x
  have hb0 : b ≠ 0 := by
    rintro rfl
    rw [zero_smul] at hb
    exact hg hb
  refine ⟨a * b⁻¹, ?_⟩
  rw [ha, hb, smul_smul, mul_assoc, inv_mul_cancel₀ hb0, mul_one]

/-- Scalars are determined by their multiples of an element that is not zero. -/
theorem smul_inj {g : C} (hg : g ≠ 0) {a b : ZMod p} : a • g = b • g ↔ a = b := by
  constructor
  · intro h
    have hsub : (a - b) • g = 0 := by rw [sub_smul, h, sub_self]
    rcases smul_eq_zero.mp hsub with hab | hg'
    · exact sub_eq_zero.mp hab
    · exact absurd hg' hg
  · rintro rfl
    rfl

end Group

section Transcript

variable {p : ℕ} (S : Sponge (ZMod p))

/-- `for byte in bytes { sponge.absorb(&F::from(*byte as u64)) }`. -/
def Sponge.absorbBytes (st : S.State) (bytes : List UInt8) : S.State :=
  bytes.foldl (fun st byte => S.absorb st (byte.toNat : ZMod p)) st

/-- The bytes of a byte string literal. -/
def byteString (s : String) : List UInt8 := s.toList.map fun c => c.toNat.toUInt8

variable {C : Type} [AddCommGroup C] [Module (ZMod p) C] (G : CurveGroup p C)

/-- The sponge of `generate_chaum_pedersen_witness` before it is squeezed. -/
def witnessSponge (g h : C) (secret : ZMod p) (alpha beta : C) (domainSeparator : List UInt8) :
    S.State :=
  let st := S.absorbBytes S.new domainSeparator
  let st := S.absorbBytes st (G.serializeCompressed g)
  let st := S.absorbBytes st (G.serializeCompressed h)
  let st := S.absorb st secret
  let st := S.absorbBytes st (G.serializeCompressed alpha)
  S.absorbBytes st (G.serializeCompressed beta)

def generateChaumPedersenWitness (g h : C) (secret : ZMod p) (alpha beta : C)
    (domainSeparator : List UInt8) : ZMod p :=
  (S.squeeze (witnessSponge S G g h secret alpha beta domainSeparator)).1

/-- The sponge of `compute_challenge` before it is squeezed. -/
def challengeSponge (tG tH : C) : S.State :=
  let st := S.absorbBytes S.new (byteString "CP-challenge-v1")
  let st := S.absorbBytes st (G.serializeCompressed tG)
  S.absorbBytes st (G.serializeCompressed tH)

def computeChallenge (tG tH : C) : ZMod p := (S.squeeze (challengeSponge S G tG tH)).1

end Transcript

/-- `ChaumPedersenProof`: the commitments and the response. -/
structure ChaumPedersenProof (p : ℕ) (C : Type) where
  tG : C
  tH : C
  z : ZMod p
deriving DecidableEq

section Proofs

variable {p : ℕ} {C : Type} [AddCommGroup C] [Module (ZMod p) C] (S : Sponge (ZMod p))
  (G : CurveGroup p C)

/-- `ChaumPedersenProof::generate`. -/
def ChaumPedersenProof.generate (secret : ZMod p) (g h alpha beta : C) : ChaumPedersenProof p C :=
  let w := generateChaumPedersenWitness S G g h secret alpha beta (byteString "CP-DLEQ-v1")
  let tG := w • g
  let tH := w • h
  let challenge := computeChallenge S G tG tH
  ⟨tG, tH, w + challenge * secret⟩

variable [DecidableEq C]

/-- `ChaumPedersenProof::verify`. -/
def ChaumPedersenProof.verify (proof : ChaumPedersenProof p C) (g h alpha beta : C) : Bool :=
  let challenge := computeChallenge S G proof.tG proof.tH
  decide (proof.z • g = proof.tG + challenge • alpha) &&
    decide (proof.z • h = proof.tH + challenge • beta)

variable {S G}

theorem ChaumPedersenProof.verify_iff {proof : ChaumPedersenProof p C} {g h alpha beta : C} :
    proof.verify S G g h alpha beta = true ↔
      proof.z • g = proof.tG + computeChallenge S G proof.tG proof.tH • alpha ∧
        proof.z • h = proof.tH + computeChallenge S G proof.tG proof.tH • beta := by
  simp only [ChaumPedersenProof.verify, Bool.and_eq_true, decide_eq_true_eq]

/-- **Completeness.**  Generated proofs verify, for all secrets and bases. -/
theorem ChaumPedersenProof.verify_generate (secret : ZMod p) (g h : C) :
    (ChaumPedersenProof.generate S G secret g h (secret • g) (secret • h)).verify S G g h
      (secret • g) (secret • h) = true := by
  rw [verify_iff]
  simp only [ChaumPedersenProof.generate]
  constructor
  · rw [add_smul, mul_smul]
  · rw [add_smul, mul_smul]

end Proofs

/-! ## What the challenge covers and a small group -/

section Binding

variable {p : ℕ} {C : Type} [AddCommGroup C] [Module (ZMod p) C] (G : CurveGroup p C)

/-- The scalars that are absorbed before the challenge is squeezed. -/
def challengeInput (tG tH : C) : List (ZMod p) :=
  challengeSponge (Sponge.recording (ZMod p)) G tG tH

/-- What a proof is about. -/
structure Statement (C : Type) where
  g : C
  h : C
  alpha : C
  beta : C
deriving DecidableEq

/-- A run of `verify` as the challenge should bind it: the statement and the commitments. -/
abbrev Session (C : Type) := Statement C × C × C

/-- Two runs of `verify` on different statements or commitments absorb different
sequences. -/
def Bound (x y : Session C) : Prop :=
  x ≠ y → challengeInput G x.2.1 x.2.2 ≠ challengeInput G y.2.1 y.2.2

/-- For no sponge can `alpha` and `beta` with different logarithms be chosen so that
`verify` accepts, once the commitments and with them the challenge are known. -/
def Unforgeable [DecidableEq C] (g h tG tH : C) : Prop :=
  ∀ (S : Sponge (ZMod p)) (a b z : ZMod p), a ≠ b →
    (⟨tG, tH, z⟩ : ChaumPedersenProof p C).verify S G g h (a • g) (b • h) = false

/-- The commitments have a common logarithm. -/
def EqualLogs (g h tG tH : C) : Prop := ∃ w : ZMod p, tG = w • g ∧ tH = w • h

variable {G}

theorem absorbBytes_recording (st : List (ZMod p)) (bytes : List UInt8) :
    (Sponge.recording (ZMod p)).absorbBytes st bytes =
      st ++ bytes.map fun byte => (byte.toNat : ZMod p) := by
  induction bytes generalizing st with
  | nil => exact (List.append_nil st).symm
  | cons byte bytes ih =>
      show (Sponge.recording (ZMod p)).absorbBytes (st ++ [(byte.toNat : ZMod p)]) bytes = _
      rw [ih, List.append_assoc]
      rfl

theorem challengeInput_eq (tG tH : C) : challengeInput G tG tH =
    (byteString "CP-challenge-v1" ++ G.serializeCompressed tG ++ G.serializeCompressed tH).map
      fun byte => (byte.toNat : ZMod p) := by
  have hdomain : (Sponge.recording (ZMod p)).absorbBytes (Sponge.recording (ZMod p)).new
      (byteString "CP-challenge-v1") = _ := absorbBytes_recording [] _
  have htG := absorbBytes_recording
    ((byteString "CP-challenge-v1").map fun byte => (byte.toNat : ZMod p))
    (G.serializeCompressed tG)
  rw [List.map_append, List.map_append, ← htG]
  unfold challengeInput challengeSponge
  simp only [hdomain, List.nil_append]
  exact absorbBytes_recording _ _

theorem byte_cast_injective (hp : 255 < p) :
    Function.Injective fun byte : UInt8 => (byte.toNat : ZMod p) := by
  intro a b hab
  have ha := a.toNat_lt
  have hb := b.toNat_lt
  have hmod := (ZMod.natCast_eq_natCast_iff a.toNat b.toNat p).mp hab
  rw [Nat.ModEq, Nat.mod_eq_of_lt (by omega), Nat.mod_eq_of_lt (by omega)] at hmod
  exact UInt8.toNat_inj.mp hmod

/-- The input is an injective encoding of the commitments. -/
theorem challengeInput_inj (hp : 255 < p) {tG tH tG' tH' : C} :
    challengeInput G tG tH = challengeInput G tG' tH' ↔ tG = tG' ∧ tH = tH' := by
  constructor
  · intro h
    rw [challengeInput_eq, challengeInput_eq] at h
    have hbytes := List.map_injective_iff.mpr (byte_cast_injective hp) h
    rw [List.append_assoc, List.append_assoc, List.append_cancel_left_eq] at hbytes
    obtain ⟨hG, hH⟩ := List.append_inj hbytes
      ((G.length_serialize tG).trans (G.length_serialize tG').symm)
    exact ⟨G.serialize_injective hG, G.serialize_injective hH⟩
  · rintro ⟨rfl, rfl⟩
    rfl

/-- Runs are bound if their commitments differ, or if they do not differ at all. -/
theorem bound_iff (hp : 255 < p) (x y : Session C) : Bound G x y ↔ x.2 ≠ y.2 ∨ x.1 = y.1 := by
  unfold Bound
  rw [ne_eq (challengeInput _ _ _), challengeInput_inj hp, ← Prod.ext_iff]
  constructor
  · intro h
    by_cases hcommitments : x.2 = y.2
    · right
      by_contra hstatement
      exact h (fun hxy => hstatement (congrArg Prod.fst hxy)) hcommitments
    · exact Or.inl hcommitments
  · rintro (hcommitments | hstatement) hne hsame
    · exact hcommitments hsame
    · exact hne (Prod.ext hstatement hsame)

/-- Once the challenge `c` is known, `verify` can be made to accept different logarithms
unless the commitments have a common logarithm exactly when `c` and the bases are not
zero. -/
theorem forgeable_iff [Fact p.Prime] [DecidableEq C] (S : Sponge (ZMod p)) (g h tG tH : C) :
    (∃ a b z : ZMod p, a ≠ b ∧
        (⟨tG, tH, z⟩ : ChaumPedersenProof p C).verify S G g h (a • g) (b • h) = true) ↔
      (EqualLogs (p := p) g h tG tH ↔ computeChallenge S G tG tH = 0 ∨ g = 0 ∨ h = 0) := by
  simp only [ChaumPedersenProof.verify_iff]
  generalize computeChallenge S G tG tH = c
  constructor
  · rintro ⟨a, b, z, hab, hG, hH⟩
    have htG : tG = (z - c * a) • g := by
      rw [sub_smul, mul_smul, hG, add_sub_cancel_right]
    have htH : tH = (z - c * b) • h := by
      rw [sub_smul, mul_smul, hH, add_sub_cancel_right]
    constructor
    · rintro ⟨w, hw, hw'⟩
      by_contra hzero
      push Not at hzero
      obtain ⟨hc, hg, hh⟩ := hzero
      have hwa := (smul_inj hg).mp (hw.symm.trans htG)
      have hwb := (smul_inj hh).mp (hw'.symm.trans htH)
      exact hab (mul_left_cancel₀ hc (sub_right_injective (hwa.symm.trans hwb)))
    · rintro (rfl | rfl | rfl)
      · exact ⟨z, by rw [htG, zero_mul, sub_zero], by rw [htH, zero_mul, sub_zero]⟩
      · exact ⟨z - c * b, by rw [htG, smul_zero, smul_zero], htH⟩
      · exact ⟨z - c * a, htG, by rw [htH, smul_zero, smul_zero]⟩
  · intro hlogs
    by_cases hzero : c = 0 ∨ g = 0 ∨ h = 0
    · obtain ⟨w, rfl, rfl⟩ := hlogs.mpr hzero
      rcases hzero with rfl | rfl | rfl
      · exact ⟨0, 1, w, zero_ne_one, by rw [zero_smul, add_zero], by rw [zero_smul, add_zero]⟩
      · exact ⟨1, 0, w, one_ne_zero, by simp only [smul_zero, add_zero],
          by rw [zero_smul, smul_zero, add_zero]⟩
      · exact ⟨0, 1, w, zero_ne_one, by rw [zero_smul, smul_zero, add_zero],
          by simp only [smul_zero, add_zero]⟩
    · have hnot : ¬EqualLogs (p := p) g h tG tH := fun hequal => hzero (hlogs.mp hequal)
      push Not at hzero
      obtain ⟨hc, hg, hh⟩ := hzero
      obtain ⟨w₁, hw₁⟩ := G.exists_smul_of_ne_zero hg tG
      obtain ⟨w₂, hw₂⟩ := G.exists_smul_of_ne_zero hh tH
      have hcancel : ∀ (w : ZMod p) (x : C),
          (0 : ZMod p) • x = w • x + c • (-(c⁻¹ * w)) • x := by
        intro w x
        rw [smul_smul, mul_neg, mul_inv_cancel_left₀ hc, ← add_smul, add_neg_cancel]
      refine ⟨-(c⁻¹ * w₁), -(c⁻¹ * w₂), 0, ?_, ?_, ?_⟩
      · intro hsame
        have hw : w₁ = w₂ := mul_left_cancel₀ (inv_ne_zero hc) (neg_injective hsame)
        exact hnot ⟨w₁, hw₁, by rw [hw, ← hw₂]⟩
      · rw [hw₁]
        exact hcancel w₁ g
      · rw [hw₂]
        exact hcancel w₂ h

/-- No sponge lets `verify` accept different logarithms only if a base is zero and the
commitments have no common logarithm. -/
theorem unforgeable_iff [Fact p.Prime] [DecidableEq C] (g h tG tH : C) :
    Unforgeable G g h tG tH ↔ (g = 0 ∨ h = 0) ∧ ¬EqualLogs (p := p) g h tG tH := by
  have hsponge : Unforgeable G g h tG tH ↔ ∀ S : Sponge (ZMod p),
      ¬(EqualLogs (p := p) g h tG tH ↔ computeChallenge S G tG tH = 0 ∨ g = 0 ∨ h = 0) := by
    simp only [← forgeable_iff, not_exists, not_and, Bool.not_eq_true]
    rfl
  rw [hsponge]
  constructor
  · intro hall
    have hzero := hall (Sponge.constant 0)
    have hone := hall (Sponge.constant 1)
    have hchallenge : ∀ c : ZMod p, computeChallenge (Sponge.constant c) G tG tH = c :=
      fun _ => rfl
    rw [hchallenge] at hzero hone
    simp only [true_or, iff_true] at hzero
    simp only [one_ne_zero, false_or, hzero, false_iff, not_not] at hone
    exact ⟨hone, hzero⟩
  · rintro ⟨hbase, hnot⟩ S hiff
    exact hnot (hiff.mpr (Or.inr hbase))

/-- **The challenge covers the commitments only.**  Two runs absorb different sequences
just when their commitments differ, and forging is impossible for bases and commitments
only where a base is zero. -/
theorem statement_binding_iff [Fact p.Prime] [DecidableEq C] (hp : 255 < p) :
    (∀ x y : Session C, Bound G x y ↔ x.2 ≠ y.2 ∨ x.1 = y.1) ∧
      ∀ g h tG tH : C, Unforgeable G g h tG tH ↔
        (g = 0 ∨ h = 0) ∧ ¬EqualLogs (p := p) g h tG tH :=
  ⟨bound_iff hp, unforgeable_iff⟩

end Binding

section Small

scoped instance fact_prime_small : Fact (Nat.Prime 257) := ⟨by norm_num⟩

/-- The scalars as a group, with two bytes for each. -/
def smallGroup : CurveGroup 257 (ZMod 257) where
  generator := 1
  serializeCompressed x := [(x.val / 256).toUInt8, (x.val % 256).toUInt8]
  compressedSize := 2
  generator_ne_zero := one_ne_zero
  exists_smul x := ⟨x, by rw [smul_eq_mul, mul_one]⟩
  serialize_injective x y h := by
    have hx := x.val_lt
    have hy := y.val_lt
    obtain ⟨hhigh, hlow⟩ := List.cons_eq_cons.mp h
    have hhigh' := congrArg UInt8.toNat hhigh
    have hlow' := congrArg UInt8.toNat (List.cons_eq_cons.mp hlow).1
    simp only [Nat.toUInt8, UInt8.toNat_ofNat'] at hhigh' hlow'
    apply ZMod.val_injective
    omega
  length_serialize _ := rfl

theorem statement_binding_iff_small :
    (∀ x y : Session (ZMod 257), Bound smallGroup x y ↔ x.2 ≠ y.2 ∨ x.1 = y.1) ∧
      ∀ g h tG tH : ZMod 257, Unforgeable smallGroup g h tG tH ↔
        (g = 0 ∨ h = 0) ∧ ¬EqualLogs (p := 257) g h tG tH :=
  statement_binding_iff (by norm_num)

/-- Two statements with one challenge; and a sponge for which the commitments to `0` and
`1` are accepted for `1` and `0`. -/
theorem weak_challenge :
    ¬Bound smallGroup (⟨1, 1, 1, 1⟩, 0, 0) (⟨1, 1, 2, 2⟩, 0, 0) ∧
      ¬Unforgeable smallGroup 1 1 0 1 := by
  constructor
  · intro h
    exact h (by decide) rfl
  · intro h
    have hreject := h (Sponge.constant 1) 1 0 1 (by decide)
    revert hreject
    decide

end Small

end NexusVm.Shuffling
