import NexusVm.Bn254
import NexusVm.Nova.Cyclefold.Complete

/-!
# The circuit refines the prover

On pairs of the right lengths the circuit accepts what the prover returns and computes the same
instances.  For two relaxed pairs this needs the square of the first challenge to fit in the other
field, since it is moved there as a number.
-/

namespace NexusVm.Nova.Cyclefold

open R1cs

namespace Setting

variable {n b : ℕ} {G1 G2 PP1 PP2 : Type} [Fact n.Prime] [Fact b.Prime] [AddCommGroup G1]
  [Module (ZMod n) G1] [AddCommGroup G2] [Module (ZMod b) G2]

/-- Allocating what the prover returned, the circuit accepts and returns the folded instances. -/
def MultifoldAgrees (c : Setting n b G1 G2 PP1 PP2) (pp : PP1) (pp_secondary : PP2) (vk : ZMod n)
    (shape : R1CSShape (ZMod n)) (U : RelaxedR1CSInstance (ZMod n) G1)
    (W : RelaxedR1CSWitness (ZMod n)) (U_secondary : RelaxedR1CSInstance (ZMod b) G2)
    (W_secondary : RelaxedR1CSWitness (ZMod b)) (u : R1CSInstance (ZMod n) G1)
    (w : R1CSWitness (ZMod n)) : Prop :=
  ∃ folded, c.prove pp pp_secondary vk shape U W U_secondary W_secondary u w = .ok folded ∧
    let gadget := c.multifold vk (relaxedMap c.cycle.affine1 U) U_secondary
      (strictMap c.cycle.affine1 u) (c.cycle.affine1 folded.proof.commitment_T)
      (allocProof folded.proof.commitment_E_proof.1, allocProof folded.proof.commitment_W_proof)
      true
    gadget.holds ∧ gadget.value = (relaxedMap c.cycle.affine1 folded.U, folded.U_secondary)

/-- The same for the fold of two relaxed pairs. -/
def RelaxedAgrees (c : Setting n b G1 G2 PP1 PP2) (pp : PP1) (pp_secondary : PP2) (vk : ZMod n)
    (shape : R1CSShape (ZMod n)) (U1 : RelaxedR1CSInstance (ZMod n) G1)
    (W1 : RelaxedR1CSWitness (ZMod n)) (U1_secondary : RelaxedR1CSInstance (ZMod b) G2)
    (W1_secondary : RelaxedR1CSWitness (ZMod b)) (U2 : RelaxedR1CSInstance (ZMod n) G1)
    (W2 : RelaxedR1CSWitness (ZMod n)) (U2_secondary : RelaxedR1CSInstance (ZMod b) G2)
    (W2_secondary : RelaxedR1CSWitness (ZMod b)) : Prop :=
  ∃ folded, c.proveWithRelaxed pp pp_secondary vk shape U1 W1 U1_secondary W1_secondary U2 W2
      U2_secondary W2_secondary = .ok folded ∧
    let gadget := c.multifoldWithRelaxed vk (relaxedMap c.cycle.affine1 U1) U1_secondary
      (relaxedMap c.cycle.affine1 U2) U2_secondary (c.cycle.affine1 folded.proof.commitment_T)
      folded.proof.proof_secondary
      ((allocProof folded.proof.commitment_E_proof.1,
        allocProof folded.proof.commitment_E_proof.2),
        allocProof folded.proof.commitment_W_proof) true
    gadget.holds ∧ gadget.value = (relaxedMap c.cycle.affine1 folded.U, folded.U_secondary)

variable (c : Setting n b G1 G2 PP1 PP2) (pp : PP1) (pp_secondary : PP2) (vk : ZMod n)
  {shape : R1CSShape (ZMod n)}

variable {c pp pp_secondary vk}

variable {U_secondary : RelaxedR1CSInstance (ZMod b) G2} {U : RelaxedR1CSInstance (ZMod n) G1}
  {u : R1CSInstance (ZMod n) G1} {folded : Folded n b G1 G2}
  {W_secondary : RelaxedR1CSWitness (ZMod b)} {w : R1CSWitness (ZMod n)}
  {W : RelaxedR1CSWitness (ZMod n)}

/-- What the circuit computes from the proof of a fold of a strict pair. -/
theorem multifold_prove (hb : 2 ^ 127 ≤ b)
    (h : c.prove pp pp_secondary vk shape U W U_secondary W_secondary u w = .ok folded)
    (should_enforce : Bool) :
    c.multifold vk (relaxedMap c.cycle.affine1 U) U_secondary (strictMap c.cycle.affine1 u)
        (c.cycle.affine1 folded.proof.commitment_T)
        (allocProof folded.proof.commitment_E_proof.1, allocProof folded.proof.commitment_W_proof)
        should_enforce = ⟨(relaxedMap c.cycle.affine1 folded.U, folded.U_secondary), True⟩ := by
  obtain ⟨cross, -, hat⟩ := bind_eq_ok.mp h
  have hT : folded.proof.commitment_T = cross.2 := by
    simp only [proveAt, bind_eq_ok] at hat
    obtain ⟨_, -, _, -, _, -, hat⟩ := hat
    cases hat
    rfl
  have hgadget := multifoldAt_proveAt hb (squeezeAfter_lt _ _) hat should_enforce
  rw [← hT] at hgadget
  exact hgadget

variable {W1_secondary W2_secondary : RelaxedR1CSWitness (ZMod b)}
  {U1_secondary U2_secondary : RelaxedR1CSInstance (ZMod b) G2}
  {U1 U2 : RelaxedR1CSInstance (ZMod n) G1} {W1 W2 : RelaxedR1CSWitness (ZMod n)}

/-- What the circuit computes from the proof of a fold of two relaxed pairs. -/
theorem multifoldWithRelaxed_proveWithRelaxed (hb : 2 ^ 127 ≤ b)
    (h : c.proveWithRelaxed pp pp_secondary vk shape U1 W1 U1_secondary W1_secondary U2 W2 U2_secondary W2_secondary = .ok folded)
    (should_enforce : Bool) :
    c.multifoldWithRelaxed vk (relaxedMap c.cycle.affine1 U1) U1_secondary
        (relaxedMap c.cycle.affine1 U2) U2_secondary (c.cycle.affine1 folded.proof.commitment_T)
        folded.proof.proof_secondary
        ((allocProof folded.proof.commitment_E_proof.1,
          allocProof folded.proof.commitment_E_proof.2),
          allocProof folded.proof.commitment_W_proof) should_enforce =
      ⟨(relaxedMap c.cycle.affine1 folded.U, folded.U_secondary), should_enforce = true →
        (((c.relaxedChallenge vk U1 U1_secondary U2 folded.proof.commitment_T).1 : ZMod n) ^
          2).val < b⟩ := by
  obtain ⟨cross, -, hat⟩ := bind_eq_ok.mp h
  have hT : folded.proof.commitment_T = cross.2 := by
    simp only [proveWithRelaxedAt, bind_eq_ok] at hat
    obtain ⟨_, -, _, -, _, -, _, -, _, -, hat⟩ := hat
    cases hat
    rfl
  have hgadget := multifoldWithRelaxedAt_proveWithRelaxedAt hb (squeezeAfter_lt _ _) hat
    should_enforce
  rw [← hT] at hgadget
  exact hgadget

variable (c pp pp_secondary vk)

theorem multifoldAgrees_of_sized (hb : 2 ^ 127 ≤ b) (hU : RelaxedSized shape U W)
    (hU_secondary : RelaxedSized c.secondary.shape U_secondary W_secondary)
    (hu : StrictSized shape u w) :
    c.MultifoldAgrees pp pp_secondary vk shape U W U_secondary W_secondary u w := by
  obtain ⟨folded, hfolded, -⟩ := exists_prove vk hb (foldable_sized c.C1 shape pp)
    (foldable_sized c.C2 c.secondary.shape pp_secondary) (fun circuit _ => synthesize_sized circuit)
    hU hU_secondary hu
  have hgadget := multifold_prove hb hfolded true
  refine ⟨folded, hfolded, ?_, ?_⟩
  · exact (congrArg Synth.holds hgadget).mpr trivial
  · exact congrArg Synth.value hgadget

/-- What the fold of two relaxed pairs needs. -/
theorem relaxedAgrees_iff (hb : 2 ^ 127 ≤ b) (hU1 : RelaxedSized shape U1 W1)
    (hU1_secondary : RelaxedSized c.secondary.shape U1_secondary W1_secondary)
    (hU2 : RelaxedSized shape U2 W2)
    (hU2_secondary : RelaxedSized c.secondary.shape U2_secondary W2_secondary) :
    ∃ cross, commit_T_with_relaxed c.C1 shape pp U1 W1 U2 W2 = .ok cross ∧
      (c.RelaxedAgrees pp pp_secondary vk shape U1 W1 U1_secondary W1_secondary U2 W2 U2_secondary
          W2_secondary ↔
        (((c.relaxedChallenge vk U1 U1_secondary U2 cross.2).1 : ZMod n) ^ 2).val < b) := by
  obtain ⟨cross, hcross, hprove⟩ := exists_proveWithRelaxed vk hb
    (foldable_sized c.C1 shape pp) (foldable_sized c.C2 c.secondary.shape pp_secondary)
    (fun circuit _ => synthesize_sized circuit) hU1 hU1_secondary hU2 hU2_secondary
  obtain ⟨folded, hfolded, -, -, hT⟩ := hprove (Or.inr fun circuit => synthesize_sized circuit)
  refine ⟨cross, hcross, ?_⟩
  have hgadget := multifoldWithRelaxed_proveWithRelaxed hb hfolded true
  rw [hT] at hgadget
  constructor
  · rintro ⟨folded', hfolded', hholds, -⟩
    rw [hfolded] at hfolded'
    obtain rfl := Except.ok.inj hfolded'
    rw [hT] at hholds
    exact (congrArg Synth.holds hgadget).mp hholds rfl
  · intro hsquare
    refine ⟨folded, hfolded, ?_, ?_⟩
    · rw [hT]
      exact (congrArg Synth.holds hgadget).mpr fun _ => hsquare
    · rw [hT]
      exact congrArg Synth.value hgadget

/-- **The circuit refines the prover.**  A fold of a strict pair always agrees.  A fold of two
relaxed pairs agrees exactly if the square of the first challenge is below the order of the other
field. -/
theorem cyclefold_agrees_iff (c : Setting n b G1 G2 PP1 PP2) (hb : 2 ^ 127 ≤ b) (pp : PP1)
    (pp_secondary : PP2) (vk : ZMod n) (shape : R1CSShape (ZMod n)) :
    (∀ U W U_secondary W_secondary u w, RelaxedSized shape U W →
      RelaxedSized c.secondary.shape U_secondary W_secondary → StrictSized shape u w →
      c.MultifoldAgrees pp pp_secondary vk shape U W U_secondary W_secondary u w) ∧
    ∀ U1 W1 U1_secondary W1_secondary U2 W2 U2_secondary W2_secondary,
      RelaxedSized shape U1 W1 → RelaxedSized c.secondary.shape U1_secondary W1_secondary →
      RelaxedSized shape U2 W2 → RelaxedSized c.secondary.shape U2_secondary W2_secondary →
      ∃ cross, commit_T_with_relaxed c.C1 shape pp U1 W1 U2 W2 = .ok cross ∧
        (c.RelaxedAgrees pp pp_secondary vk shape U1 W1 U1_secondary W1_secondary U2 W2
            U2_secondary W2_secondary ↔
          (((c.relaxedChallenge vk U1 U1_secondary U2 cross.2).1 : ZMod n) ^ 2).val < b) := by
  constructor
  · intro U W U_secondary W_secondary u w hU hU_secondary hu
    exact multifoldAgrees_of_sized c pp pp_secondary vk hb hU hU_secondary hu
  · intro U1 W1 U1_secondary W1_secondary U2 W2 U2_secondary W2_secondary hU1 hU1s hU2 hU2s
    exact relaxedAgrees_iff c pp pp_secondary vk hb hU1 hU1s hU2 hU2s

end Setting

section Numbers

/-- The sum of the entries as a commitment. -/
def sumCommitment (m : ℕ) [Fact m.Prime] : CommitmentScheme (ZMod m) (ZMod m) Unit where
  commit _ v := v.sum
  linear _ r as bs h := by
    show (comb 1 r as bs).sum = as.sum + r * bs.sum
    rw [sum_comb h, one_mul]

/-- A number as a point; the coordinates are its two digits. -/
def digits {m k : ℕ} (P : ZMod m) : AffinePoint (ZMod k) :=
  if P = 0 then ⟨0, 0, true⟩ else ⟨(P.val : ZMod k), (P.val / k : ℕ), false⟩

theorem digits_injective {m k : ℕ} [NeZero m] (hm : m ≤ k ^ 2) :
    Function.Injective (digits : ZMod m → AffinePoint (ZMod k)) := by
  intro P Q h
  have hbound : ∀ R : ZMod m, R.val < k * k := fun R =>
    lt_of_lt_of_le (ZMod.val_lt R) (hm.trans_eq (pow_two k))
  by_cases hP : P = 0
  · by_cases hQ : Q = 0
    · rw [hP, hQ]
    · simp [digits, hP, hQ] at h
  · by_cases hQ : Q = 0
    · simp [digits, hP, hQ] at h
    · simp only [digits, hP, hQ, if_false, AffinePoint.mk.injEq, ZMod.natCast_eq_natCast_iff,
        and_true] at h
      obtain ⟨hmod, hdiv⟩ := h
      have hquot : P.val / k = Q.val / k :=
        hdiv.eq_of_lt_of_lt (Nat.div_lt_of_lt_mul (hbound P)) (Nat.div_lt_of_lt_mul (hbound Q))
      apply ZMod.val_injective
      rw [← Nat.div_add_mod P.val k, ← Nat.div_add_mod Q.val k, hquot, hmod]

theorem digits_normal {m k : ℕ} (P : ZMod m) : (digits P : AffinePoint (ZMod k)).Normal := by
  intro h
  by_cases hP : P = 0
  · simp [digits, hP]
  · simp [digits, hP] at h

/-- A shape without rows. -/
def noRows (F : Type) (numIo : ℕ) (h : 0 < numIo) : R1CSShape F where
  numConstraints := 0
  numVars := 0
  numIo := numIo
  A := ⟨[], [], [0], numIo⟩
  B := ⟨[], [], [0], numIo⟩
  C := ⟨[], [], [0], numIo⟩
  numIo_pos := h
  dimsA := ⟨rfl, rfl, by simp, rfl, by simp, by simp⟩
  dimsB := ⟨rfl, rfl, by simp, rfl, by simp, by simp⟩
  dimsC := ⟨rfl, rfl, by simp, rfl, by simp, by simp⟩

variable (n b : ℕ) [Fact n.Prime] [Fact b.Prime]

/-- The cycle of the groups of numbers below the primes. -/
def numberCycle (hn : n ≤ b ^ 2) (hb : b ≤ n ^ 2) : Cycle n b (ZMod n) (ZMod b) where
  affine1 := digits
  affine2 := digits
  affine1_injective := digits_injective hn
  affine2_injective := digits_injective hb
  affine1_normal := digits_normal
  order_le := hn

/-- A sponge that answers every question by the same bits. -/
def constantOracle (bits : ℕ) (hbits : bits < 2 ^ 127) : RandomOracle n where
  State := Unit
  new := ()
  absorb _ _ := ()
  squeezeField _ := (0, ())
  squeezeBits _ := (bits, ())
  squeezeBits_lt _ := hbits

/-- The groups of numbers with a constant sponge and a secondary circuit without rows. -/
def numberSetting (hn : n ≤ b ^ 2) (hb : b ≤ n ^ 2) (bits : ℕ) (hbits : bits < 2 ^ 127) :
    Setting n b (ZMod n) (ZMod b) Unit Unit where
  cycle := numberCycle n b hn hb
  ro := constantOracle n bits hbits
  C1 := sumCommitment n
  C2 := sumCommitment b
  secondary :=
    { shape := noRows (ZMod b) secondaryNumIo secondaryNumIo_pos
      numIo := rfl
      witness := fun _ => []
      length_witness := fun _ => rfl
      rows := fun _ _ _ hi => absurd hi (Nat.not_lt_zero _) }

variable {n b}

/-- The zero pair is satisfied by every shape without rows. -/
theorem relaxedSatisfied_zero {m : ℕ} [Fact m.Prime] (numIo : ℕ) (h : 0 < numIo) :
    RelaxedSatisfied (sumCommitment m) (noRows (ZMod m) numIo h) ⟨0, 0, List.replicate numIo 0⟩
      ⟨[], []⟩ () where
  lengthW := rfl
  lengthE := rfl
  lengthX := List.length_replicate
  rows i hi := absurd hi (Nat.not_lt_zero i)
  commitW := rfl
  commitE := rfl

end Numbers

/-! ## BN254 and Grumpkin -/

section Bn254

open Bn254

/-- BN254 as the primary curve. -/
def bn254Setting : Setting fr fq (ZMod fr) (ZMod fq) Unit Unit :=
  numberSetting fr fq fr_le_fq_sq (by decide) 5 (by decide)

/-- The number whose square lies between the orders of the two fields. -/
def betweenSquare : ℕ := 147946756881789319005730692170996259610

/-- Grumpkin as the primary curve; the sponge answers by a number with its square between the
orders. -/
def grumpkinSetting : Setting fq fr (ZMod fq) (ZMod fr) Unit Unit :=
  numberSetting fq fr (by decide) (by decide) betweenSquare (by decide)

/-- A shape with one row, in which the square of the first variable is the second one. -/
def squareRow (F : Type) [One F] : R1CSShape F where
  numConstraints := 1
  numVars := 2
  numIo := 2
  A := ⟨[1], [2], [0, 1], 4⟩
  B := ⟨[1], [2], [0, 1], 4⟩
  C := ⟨[1], [3], [0, 1], 4⟩
  numIo_pos := Nat.two_pos
  dimsA := ⟨rfl, rfl, by simp, rfl, by simp, by simp⟩
  dimsB := ⟨rfl, rfl, by simp, rfl, by simp, by simp⟩
  dimsC := ⟨rfl, rfl, by simp, rfl, by simp, by simp⟩

/-- Pairs that satisfy the row on BN254: `2 * 2 = 2 * 3 + (-2)`, `3 * 3 = 9` and `2 * 2 = 4`. -/
theorem cyclefold_agrees_bn254 :
    bn254Setting.MultifoldAgrees () () 7 (squareRow _) ⟨5, -2, [2, 5]⟩ ⟨[2, 3], [-2]⟩
      ⟨0, 0, 2 :: List.replicate 10 3⟩ ⟨[], []⟩ ⟨12, [1, 7]⟩ ⟨[3, 9]⟩ ∧
    bn254Setting.RelaxedAgrees () () 7 (squareRow _) ⟨5, -2, [2, 5]⟩ ⟨[2, 3], [-2]⟩
      ⟨0, 0, 2 :: List.replicate 10 3⟩ ⟨[], []⟩ ⟨6, 0, [1, 4]⟩ ⟨[2, 4], [0]⟩
      ⟨0, 0, List.replicate 11 5⟩ ⟨[], []⟩ := by
  have hagrees := Setting.cyclefold_agrees_iff bn254Setting (by decide) () () 7 (squareRow _)
  constructor
  · exact hagrees.1 _ _ _ _ _ _ ⟨rfl, rfl, rfl⟩ ⟨rfl, rfl, rfl⟩ ⟨rfl, rfl, rfl⟩
  · obtain ⟨cross, -, hiff⟩ := hagrees.2 ⟨5, -2, [2, 5]⟩ ⟨[2, 3], [-2]⟩
      ⟨0, 0, 2 :: List.replicate 10 3⟩ ⟨[], []⟩ ⟨6, 0, [1, 4]⟩ ⟨[2, 4], [0]⟩
      ⟨0, 0, List.replicate 11 5⟩ ⟨[], []⟩ ⟨rfl, rfl, rfl⟩ ⟨rfl, rfl, rfl⟩ ⟨rfl, rfl, rfl⟩
      ⟨rfl, rfl, rfl⟩
    exact hiff.mpr ((ZMod.val_lt _).trans (by decide))

/-- Over Grumpkin the circuit rejects satisfied pairs that the prover folded. -/
theorem square_between_orders_rejected :
    RelaxedSatisfied grumpkinSetting.C1 (noRows _ 2 (by decide)) ⟨0, 0, [0, 0]⟩ ⟨[], []⟩ () ∧
    RelaxedSatisfied grumpkinSetting.C2 grumpkinSetting.secondary.shape
      ⟨0, 0, List.replicate 11 0⟩ ⟨[], []⟩ () ∧
    ¬ grumpkinSetting.RelaxedAgrees () () 7 (noRows _ 2 (by decide)) ⟨0, 0, [0, 0]⟩ ⟨[], []⟩
      ⟨0, 0, List.replicate 11 0⟩ ⟨[], []⟩ ⟨0, 0, [0, 0]⟩ ⟨[], []⟩
      ⟨0, 0, List.replicate 11 0⟩ ⟨[], []⟩ := by
  refine ⟨relaxedSatisfied_zero 2 _, relaxedSatisfied_zero 11 _, fun hagrees => ?_⟩
  have hsized := relaxedSized_of_satisfied (relaxedSatisfied_zero (m := fq) 2 (by decide))
  have hsized_secondary : RelaxedSized grumpkinSetting.secondary.shape _ _ :=
    relaxedSized_of_satisfied (relaxedSatisfied_zero (m := fr) 11 (by decide))
  obtain ⟨cross, -, hiff⟩ := Setting.relaxedAgrees_iff grumpkinSetting () () 7 (by decide) hsized
    hsized_secondary hsized hsized_secondary
  have hsquare : (((betweenSquare : ℕ) : ZMod fq) ^ 2).val < fr := hiff.mp hagrees
  rw [← Nat.cast_pow, ZMod.val_natCast] at hsquare
  exact absurd hsquare (by decide)

end Bn254

end NexusVm.Nova.Cyclefold
