import NexusVm.Nova.Cyclefold.Prove
import NexusVm.Gadget

/-!
# The fold in the circuit

`nova/src/gadgets/cyclefold/nova/mod.rs` and `secondary.rs`.  An allocated primary instance keeps
the affine coordinates of its commitments, an allocated secondary instance its points.
-/

namespace NexusVm.Nova.Cyclefold

open R1cs Synth

/-- `primary::R1CSInstanceVar`. -/
abbrev PrimaryVar (n b : ℕ) : Type := R1CSInstance (ZMod n) (AffinePoint (ZMod b))

/-- `primary::RelaxedR1CSInstanceVar`. -/
abbrev RelaxedPrimaryVar (n b : ℕ) : Type := RelaxedR1CSInstance (ZMod n) (AffinePoint (ZMod b))

/-- `secondary::R1CSInstanceVar`. -/
abbrev SecondaryVar (b : ℕ) (G2 : Type) : Type := R1CSInstance (ZMod b) G2

/-- `secondary::RelaxedR1CSInstanceVar`. -/
abbrev RelaxedSecondaryVar (b : ℕ) (G2 : Type) : Type := RelaxedR1CSInstance (ZMod b) G2

section Secondary

variable {b : ℕ} {G2 : Type}

/-- `ProofVar::new_variable`: the leading one, `g1` and `g2` are not allocated. -/
def allocProof (proof : Proof b G2) : Proof b G2 :=
  ⟨⟨proof.U.commitment_W, 1 :: proof.U.X.drop 7⟩, proof.commitment_T⟩

/-- `from_allocated_input`. -/
def fromAllocatedInput (u : SecondaryVar b G2) (g1 g2 : AffinePoint (ZMod b)) :
    SecondaryVar b G2 :=
  ⟨u.commitment_W, 1 :: (g1.intoProjective ++ g2.intoProjective ++ u.X.drop 1)⟩

/-- `parse_secondary_io`: the scalar and the sum. -/
def parseSecondaryIo (u : SecondaryVar b G2) : ZMod b × AffinePoint (ZMod b) :=
  (u.X.getD (secondaryNumIo - 1) 0,
    parseProjective (u.X.getD 7 0) (u.X.getD 8 0) (u.X.getD 9 0))

/-- An instance to fold, with the commitment to its error if it is relaxed. -/
structure FoldInput (b : ℕ) (G2 : Type) where
  U : SecondaryVar b G2
  comm_E : Option G2
  commitment_T : G2
  r : ZMod b
  r_bits : ℕ

variable [AddCommGroup G2]

/-- The body of the loop of `RelaxedR1CSInstanceVar::fold`. -/
def foldInput (acc : RelaxedSecondaryVar b G2) (input : FoldInput b G2) :
    RelaxedSecondaryVar b G2 :=
  let commitment_E := acc.commitment_E + input.r_bits • input.commitment_T
  { commitment_W := acc.commitment_W + input.r_bits • input.U.commitment_W
    commitment_E := match input.comm_E with
      | none => commitment_E
      | some comm_E => commitment_E + (input.r ^ 2).val • comm_E
    X := List.zipWith (fun x1 x2 => x1 + x2 * input.r) acc.X input.U.X }

/-- `secondary::RelaxedR1CSInstanceVar::fold`. -/
def foldVar (U : RelaxedSecondaryVar b G2) (instances : List (FoldInput b G2)) :
    RelaxedSecondaryVar b G2 :=
  instances.foldl foldInput U

end Secondary

/-- `to_bits_le` of a field element. -/
def toBitsLe {m : ℕ} (x : ZMod m) : List Bool := (List.range m.size).map x.val.testBit

namespace Setting

variable {n b : ℕ} {G1 G2 PP1 PP2 : Type} [Fact n.Prime] [Fact b.Prime] [AddCommGroup G1]
  [Module (ZMod n) G1] [AddCommGroup G2] [Module (ZMod b) G2]
  (c : Setting n b G1 G2 PP1 PP2)

/-- Absorb a secondary instance with the commitment to its cross term, and squeeze. -/
def challenge (randomOracle : c.ro.State) (u : SecondaryVar b G2) (commitment_T : G2)
    (extra : List (ZMod n)) : ℕ × c.ro.State :=
  c.squeezeAfter randomOracle
    [strictElementsSecondary (strictMap c.cycle.affine2 u),
      nativePointElements (c.cycle.affine2 commitment_T), extra]

/-- `multifold` from the first challenge on. -/
def multifoldAt (squeezed_0 : ℕ × c.ro.State) (U : RelaxedPrimaryVar n b)
    (U_secondary : RelaxedSecondaryVar b G2) (u : PrimaryVar n b)
    (commitment_T : AffinePoint (ZMod b)) (proof_secondary : Proof b G2 × Proof b G2)
    (should_enforce : Bool) : Synth (RelaxedPrimaryVar n b × RelaxedSecondaryVar b G2) := do
  let r_0 : ZMod b := squeezed_0.1
  let r_0_scalar : ZMod n := squeezed_0.1
  -- the rest of the secondary public input is reconstructed from primary instances
  let E := fromAllocatedInput proof_secondary.1.U U.commitment_E commitment_T
  let io_E := parseSecondaryIo E
  conditionalEnforceEqual io_E.1 r_0 should_enforce
  let squeezed_1 := c.challenge squeezed_0.2 E proof_secondary.1.commitment_T [r_0_scalar]
  let r_1 : ZMod b := squeezed_1.1
  let W := fromAllocatedInput proof_secondary.2.U U.commitment_W u.commitment_W
  let io_W := parseSecondaryIo W
  conditionalEnforceEqual io_W.1 r_0 should_enforce
  let squeezed_2 := c.challenge squeezed_1.2 W proof_secondary.2.commitment_T
    (castFieldElementUnique r_1)
  let r_2 : ZMod b := squeezed_2.1
  let folded_U : RelaxedPrimaryVar n b :=
    ⟨io_W.2, io_E.2, List.zipWith (fun x y => x + r_0_scalar * y) U.X u.X⟩
  let folded_U_secondary := foldVar U_secondary
    [⟨E, none, proof_secondary.1.commitment_T, r_1, squeezed_1.1⟩,
      ⟨W, none, proof_secondary.2.commitment_T, r_2, squeezed_2.1⟩]
  return (folded_U, folded_U_secondary)

/-- `multifold`. -/
def multifold (vk : ZMod n) (U : RelaxedPrimaryVar n b) (U_secondary : RelaxedSecondaryVar b G2)
    (u : PrimaryVar n b) (commitment_T : AffinePoint (ZMod b))
    (proof_secondary : Proof b G2 × Proof b G2) (should_enforce : Bool) :
    Synth (RelaxedPrimaryVar n b × RelaxedSecondaryVar b G2) :=
  let squeezed_0 := c.squeezeAfter c.ro.new
    [[vk], relaxedElements U, strictElements u,
      relaxedElementsSecondary (relaxedMap c.cycle.affine2 U_secondary),
      pointElements commitment_T]
  c.multifoldAt squeezed_0 U U_secondary u commitment_T proof_secondary should_enforce

/-- `multifold_with_relaxed` from the first challenge on. -/
def multifoldWithRelaxedAt (squeezed_0 : ℕ × c.ro.State) (U1 : RelaxedPrimaryVar n b)
    (U_secondary : RelaxedSecondaryVar b G2) (U2 : RelaxedPrimaryVar n b)
    (U2_secondary : RelaxedSecondaryVar b G2) (commitment_T : AffinePoint (ZMod b))
    (commitment_T_secondary : G2)
    (proof_secondary : (Proof b G2 × Proof b G2) × Proof b G2) (should_enforce : Bool) :
    Synth (RelaxedPrimaryVar n b × RelaxedSecondaryVar b G2) := do
  let r_0 : ZMod b := squeezed_0.1
  let r_0_scalar : ZMod n := squeezed_0.1
  let r_0_scalar_square := r_0_scalar ^ 2
  let E_0 := fromAllocatedInput proof_secondary.1.1.U U1.commitment_E commitment_T
  let io_0 := parseSecondaryIo E_0
  conditionalEnforceEqual io_0.1 r_0 should_enforce
  let squeezed_1 := c.challenge squeezed_0.2 E_0 proof_secondary.1.1.commitment_T [r_0_scalar]
  let r_1 : ZMod b := squeezed_1.1
  let E_1 := fromAllocatedInput proof_secondary.1.2.U io_0.2 U2.commitment_E
  let io_1 := parseSecondaryIo E_1
  ((toBitsLe r_0_scalar_square).zip (toBitsLe io_1.1)).forM fun bits =>
    conditionalEnforceEqual bits.1 bits.2 should_enforce
  let squeezed_2 := c.challenge squeezed_1.2 E_1 proof_secondary.1.2.commitment_T
    (castFieldElementUnique r_1)
  let r_2 : ZMod b := squeezed_2.1
  let W := fromAllocatedInput proof_secondary.2.U U1.commitment_W U2.commitment_W
  let io_W := parseSecondaryIo W
  conditionalEnforceEqual io_W.1 r_0 should_enforce
  let squeezed_3 := c.challenge squeezed_2.2 W proof_secondary.2.commitment_T
    (castFieldElementUnique r_2)
  let r_3 : ZMod b := squeezed_3.1
  let folded_U : RelaxedPrimaryVar n b :=
    ⟨io_W.2, io_1.2, List.zipWith (fun x1 x2 => x1 + r_0_scalar * x2) U1.X U2.X⟩
  let U1_secondary := foldVar U_secondary
    [⟨E_0, none, proof_secondary.1.1.commitment_T, r_1, squeezed_1.1⟩,
      ⟨E_1, none, proof_secondary.1.2.commitment_T, r_2, squeezed_2.1⟩,
      ⟨W, none, proof_secondary.2.commitment_T, r_3, squeezed_3.1⟩]
  let squeezed := c.squeezeAfter squeezed_3.2
    [castFieldElementUnique r_3,
      relaxedElementsSecondary (relaxedMap c.cycle.affine2 U1_secondary),
      relaxedElementsSecondary (relaxedMap c.cycle.affine2 U2_secondary),
      nativePointElements (c.cycle.affine2 commitment_T_secondary)]
  let r : ZMod b := squeezed.1
  let folded_U_secondary := foldVar U1_secondary
    [⟨⟨U2_secondary.commitment_W, U2_secondary.X⟩, some U2_secondary.commitment_E,
      commitment_T_secondary, r, squeezed.1⟩]
  return (folded_U, folded_U_secondary)

/-- `multifold_with_relaxed`. -/
def multifoldWithRelaxed (vk : ZMod n) (U1 : RelaxedPrimaryVar n b)
    (U_secondary : RelaxedSecondaryVar b G2) (U2 : RelaxedPrimaryVar n b)
    (U2_secondary : RelaxedSecondaryVar b G2) (commitment_T : AffinePoint (ZMod b))
    (commitment_T_secondary : G2)
    (proof_secondary : (Proof b G2 × Proof b G2) × Proof b G2) (should_enforce : Bool) :
    Synth (RelaxedPrimaryVar n b × RelaxedSecondaryVar b G2) :=
  let squeezed_0 := c.squeezeAfter c.ro.new
    [[vk], relaxedElements U1, relaxedElements U2,
      relaxedElementsSecondary (relaxedMap c.cycle.affine2 U_secondary),
      pointElements commitment_T]
  c.multifoldWithRelaxedAt squeezed_0 U1 U_secondary U2 U2_secondary commitment_T
    commitment_T_secondary proof_secondary should_enforce

/-! ## Lengths and what is enforced -/

section Lengths

variable {c} {vk : ZMod n}

/-- The public input of a trace without its first two points. -/
def ProofSized (proof : Proof b G2) : Prop := proof.U.X.length + 6 = secondaryNumIo

omit [AddCommGroup G2] [Fact b.Prime] in
theorem length_fromAllocatedInput {proof : Proof b G2} (h : ProofSized proof)
    (g1 g2 : AffinePoint (ZMod b)) :
    (fromAllocatedInput proof.U g1 g2).X.length = secondaryNumIo := by
  simp only [ProofSized, secondaryNumIo] at h
  simp only [fromAllocatedInput, secondaryNumIo, List.length_cons, List.length_append,
    List.length_drop, AffinePoint.length_intoProjective]
  omega

variable {len : ℕ}

omit [Module (ZMod b) G2] [Fact b.Prime] in
theorem length_foldInput {acc : RelaxedSecondaryVar b G2} {input : FoldInput b G2}
    (hacc : acc.X.length = len) (hinput : input.U.X.length = len) :
    (foldInput acc input).X.length = len := by
  simp only [foldInput, List.length_zipWith, hacc, hinput, min_self]

variable {commitment_T : AffinePoint (ZMod b)} {should_enforce : Bool}

theorem length_multifold {U : RelaxedPrimaryVar n b} {U_secondary : RelaxedSecondaryVar b G2}
    {u : PrimaryVar n b} {proof_secondary : Proof b G2 × Proof b G2} (hU : U.X.length = len)
    (hu : u.X.length = len) (hU_secondary : U_secondary.X.length = secondaryNumIo)
    (hE : ProofSized proof_secondary.1) (hW : ProofSized proof_secondary.2) :
    (c.multifold vk U U_secondary u commitment_T proof_secondary should_enforce).value.1.X.length =
        len ∧
      (c.multifold vk U U_secondary u commitment_T proof_secondary
        should_enforce).value.2.X.length = secondaryNumIo := by
  constructor
  · simp only [multifold, multifoldAt, value_bind, value_pure, List.length_zipWith, hU, hu,
      min_self]
  · simp only [multifold, multifoldAt, value_bind, value_pure, foldVar, List.foldl_cons,
      List.foldl_nil]
    exact length_foldInput (length_foldInput hU_secondary (length_fromAllocatedInput hE _ _))
      (length_fromAllocatedInput hW _ _)

theorem length_multifoldWithRelaxed {U1 U2 : RelaxedPrimaryVar n b}
    {U_secondary U2_secondary : RelaxedSecondaryVar b G2} {commitment_T_secondary : G2}
    {proof_secondary : (Proof b G2 × Proof b G2) × Proof b G2} (hU1 : U1.X.length = len)
    (hU2 : U2.X.length = len) (hU_secondary : U_secondary.X.length = secondaryNumIo)
    (hU2_secondary : U2_secondary.X.length = secondaryNumIo) (hE_0 : ProofSized proof_secondary.1.1)
    (hE_1 : ProofSized proof_secondary.1.2) (hW : ProofSized proof_secondary.2) :
    (c.multifoldWithRelaxed vk U1 U_secondary U2 U2_secondary commitment_T commitment_T_secondary
        proof_secondary should_enforce).value.1.X.length = len ∧
      (c.multifoldWithRelaxed vk U1 U_secondary U2 U2_secondary commitment_T
        commitment_T_secondary proof_secondary should_enforce).value.2.X.length =
          secondaryNumIo := by
  constructor
  · simp only [multifoldWithRelaxed, multifoldWithRelaxedAt, value_bind, value_pure,
      List.length_zipWith, hU1, hU2, min_self]
  · simp only [multifoldWithRelaxed, multifoldWithRelaxedAt, value_bind, value_pure, foldVar,
      List.foldl_cons, List.foldl_nil]
    apply length_foldInput _ hU2_secondary
    exact length_foldInput (length_foldInput (length_foldInput hU_secondary
      (length_fromAllocatedInput hE_0 _ _)) (length_fromAllocatedInput hE_1 _ _))
      (length_fromAllocatedInput hW _ _)

end Lengths

section Enforced

variable {c} {vk : ZMod n}

variable {commitment_T : AffinePoint (ZMod b)} {should_enforce : Bool}

/-- The public inputs of the two traces have the first challenge as their scalar. -/
theorem multifold_holds_iff {U : RelaxedPrimaryVar n b} {U_secondary : RelaxedSecondaryVar b G2}
    {u : PrimaryVar n b} {proof_secondary : Proof b G2 × Proof b G2} :
    (c.multifold vk U U_secondary u commitment_T proof_secondary should_enforce).holds ↔
      (should_enforce = true →
        let r_0 : ZMod b := (c.squeezeAfter c.ro.new
          [[vk], relaxedElements U, strictElements u,
            relaxedElementsSecondary (relaxedMap c.cycle.affine2 U_secondary),
            pointElements commitment_T]).1
        (parseSecondaryIo
          (fromAllocatedInput proof_secondary.1.U U.commitment_E commitment_T)).1 = r_0 ∧
        (parseSecondaryIo
          (fromAllocatedInput proof_secondary.2.U U.commitment_W u.commitment_W)).1 = r_0) := by
  simp only [multifold, multifoldAt, holds_bind, holds_conditionalEnforceEqual, holds_pure,
    and_true, imp_and]

/-- The same for two relaxed instances, where the trace of the second error has the square of the
challenge as its scalar, compared by bits. -/
theorem multifoldWithRelaxed_holds_iff {U1 U2 : RelaxedPrimaryVar n b}
    {U_secondary U2_secondary : RelaxedSecondaryVar b G2} {commitment_T_secondary : G2}
    {proof_secondary : (Proof b G2 × Proof b G2) × Proof b G2} :
    (c.multifoldWithRelaxed vk U1 U_secondary U2 U2_secondary commitment_T commitment_T_secondary
        proof_secondary should_enforce).holds ↔
      (should_enforce = true →
        let r_0 := (c.squeezeAfter c.ro.new
          [[vk], relaxedElements U1, relaxedElements U2,
            relaxedElementsSecondary (relaxedMap c.cycle.affine2 U_secondary),
            pointElements commitment_T]).1
        let io_0 := parseSecondaryIo
          (fromAllocatedInput proof_secondary.1.1.U U1.commitment_E commitment_T)
        io_0.1 = (r_0 : ZMod b) ∧
        (∀ bits ∈ (toBitsLe ((r_0 : ZMod n) ^ 2)).zip (toBitsLe (parseSecondaryIo
          (fromAllocatedInput proof_secondary.1.2.U io_0.2 U2.commitment_E)).1),
            bits.1 = bits.2) ∧
        (parseSecondaryIo (fromAllocatedInput proof_secondary.2.U U1.commitment_W
          U2.commitment_W)).1 = (r_0 : ZMod b)) := by
  simp only [multifoldWithRelaxed, multifoldWithRelaxedAt, holds_bind,
    holds_conditionalEnforceEqual, holds_pure, holds_forM, and_true, imp_and]
  exact Iff.and Iff.rfl (Iff.and ⟨fun h henforce bits hmem => h bits hmem henforce,
    fun h bits hmem henforce => h henforce bits hmem⟩ Iff.rfl)

end Enforced

end Setting

end NexusVm.Nova.Cyclefold
