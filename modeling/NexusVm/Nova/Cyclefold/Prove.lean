import NexusVm.Nova.Cyclefold.Curves

/-!
# The native prover of a fold

`nova/src/folding/cyclefold/secondary` and `folding/nova/cyclefold/nimfs`.  A fold of the primary
instances leaves traces of the secondary circuit, one for each sum of commitments, and these are
folded into the secondary accumulator one after the other.  The checks of `debug_assert!` are left
out, as in a release build.
-/

namespace NexusVm.Nova.Cyclefold

open R1cs

/-- The public input of the secondary circuit. -/
structure Circuit (b : ℕ) (G1 : Type) where
  g1 : G1
  g2 : G1
  gOut : G1
  r : ZMod b

/-- `SECONDARY_NUM_IO`. -/
def secondaryNumIo : ℕ := 11

theorem secondaryNumIo_pos : 0 < secondaryNumIo := by decide

section Systems

variable {n b : ℕ} {G1 G2 : Type} [AddCommGroup G1] [AddCommGroup G2]

/-- The public input of the circuit, as it is allocated. -/
def Circuit.publicInput (cycle : Cycle n b G1 G2) (circuit : Circuit b G1) : List (ZMod b) :=
  1 :: ((cycle.affine1 circuit.g1).intoProjective ++ (cycle.affine1 circuit.g2).intoProjective ++
    (cycle.affine1 circuit.gOut).intoProjective ++ [circuit.r])

/-- The constraint system of the secondary circuit: a trace of `g_out = g1 + r * g2` satisfies. -/
structure SecondarySystem [Fact b.Prime] (cycle : Cycle n b G1 G2) where
  shape : R1CSShape (ZMod b)
  numIo : shape.numIo = secondaryNumIo
  witness : Circuit b G1 → List (ZMod b)
  length_witness : ∀ circuit, (witness circuit).length = shape.numVars
  rows : ∀ circuit : Circuit b G1, circuit.gOut = circuit.g1 + circuit.r.val • circuit.g2 →
    ∀ i < shape.numConstraints,
      shape.A.entry (circuit.publicInput cycle ++ witness circuit) i *
        shape.B.entry (circuit.publicInput cycle ++ witness circuit) i =
      shape.C.entry (circuit.publicInput cycle ++ witness circuit) i

end Systems

/-- The code of other crates that a fold uses. -/
structure Setting (n b : ℕ) (G1 G2 PP1 PP2 : Type) [Fact n.Prime] [Fact b.Prime] [AddCommGroup G1]
    [Module (ZMod n) G1] [AddCommGroup G2] [Module (ZMod b) G2] where
  cycle : Cycle n b G1 G2
  ro : RandomOracle n
  C1 : CommitmentScheme (ZMod n) G1 PP1
  C2 : CommitmentScheme (ZMod b) G2 PP2
  secondary : SecondarySystem cycle

/-- `cyclefold::Error`. -/
inductive Error
  | r1cs (e : R1cs.Error)
  | synthesis
  | invalidPublicInput

/-- `secondary::Proof`. -/
structure Proof (b : ℕ) (G2 : Type) where
  U : R1CSInstance (ZMod b) G2
  commitment_T : G2

/-- `NIMFSProof`; `proof_secondary` is the commitment of the `NIFSProof`. -/
structure NIMFSProof (b : ℕ) (G1 G2 : Type) where
  commitment_T : G1
  commitment_E_proof : Proof b G2 × Proof b G2
  commitment_W_proof : Proof b G2
  proof_secondary : G2

section Defaults

variable {b : ℕ} {G1 G2 : Type} [Zero G1] [Zero G2]

/-- `secondary::Proof::default`. -/
def Proof.default : Proof b G2 := ⟨⟨0, List.replicate secondaryNumIo 0⟩, 0⟩

/-- `NIMFSProof::default`. -/
def NIMFSProof.default : NIMFSProof b G1 G2 := ⟨0, (.default, .default), .default, 0⟩

end Defaults

namespace Setting

variable {n b : ℕ} {G1 G2 PP1 PP2 : Type} [Fact n.Prime] [Fact b.Prime] [AddCommGroup G1]
  [Module (ZMod n) G1] [AddCommGroup G2] [Module (ZMod b) G2]
  (c : Setting n b G1 G2 PP1 PP2)

/-- `secondary::synthesize`. -/
def synthesize (circuit : Circuit b G1) (pp_secondary : PP2) :
    R1CSInstance (ZMod b) G2 × R1CSWitness (ZMod b) :=
  let W := c.secondary.witness circuit
  (⟨c.C2.commit pp_secondary W, circuit.publicInput c.cycle⟩, ⟨W⟩)

/-- Absorb one input after the other, and squeeze a challenge of 127 bits. -/
def squeezeAfter (randomOracle : c.ro.State) (inputs : List (List (ZMod n))) : ℕ × c.ro.State :=
  c.ro.squeezeBits (inputs.foldl c.ro.absorb randomOracle)

/-! ## Rounds and folds -/

/-- What a round leaves: the proof of a trace, the challenge and the new accumulator. -/
structure Round (c : Setting n b G1 G2 PP1 PP2) where
  proof : Proof b G2
  r : ZMod b
  randomOracle : c.ro.State
  U : RelaxedR1CSInstance (ZMod b) G2
  W : RelaxedR1CSWitness (ZMod b)

/-- Fold a trace into the secondary accumulator; `extra` is absorbed after it. -/
def foldTrace (shape_secondary : R1CSShape (ZMod b)) (pp_secondary : PP2)
    (randomOracle : c.ro.State)
    (acc : RelaxedR1CSInstance (ZMod b) G2 × RelaxedR1CSWitness (ZMod b))
    (trace : R1CSInstance (ZMod b) G2 × R1CSWitness (ZMod b)) (extra : List (ZMod n)) :
    Run Error (Round c) := do
  let cross ← (commit_T c.C2 shape_secondary pp_secondary acc.1 acc.2 trace.1
    trace.2).mapError .r1cs
  let squeezed := c.squeezeAfter randomOracle
    [strictElementsSecondary (strictMap c.cycle.affine2 trace.1),
      nativePointElements (c.cycle.affine2 cross.2), extra]
  let r : ZMod b := squeezed.1
  let W ← (acc.2.fold trace.2 cross.1 r).mapError .r1cs
  .ok ⟨⟨trace.1, cross.2⟩, r, squeezed.2, acc.1.fold trace.1 cross.2 r, W⟩

/-- What a fold returns. -/
structure Folded (n b : ℕ) (G1 G2 : Type) where
  proof : NIMFSProof b G1 G2
  U : RelaxedR1CSInstance (ZMod n) G1
  W : RelaxedR1CSWitness (ZMod n)
  U_secondary : RelaxedR1CSInstance (ZMod b) G2
  W_secondary : RelaxedR1CSWitness (ZMod b)

variable (pp : PP1) (pp_secondary : PP2) (vk : ZMod n) (shape : R1CSShape (ZMod n))

/-- `NIMFSProof::prove` from the first challenge on. -/
def proveAt (squeezed : ℕ × c.ro.State) (T : List (ZMod n)) (commitment_T : G1)
    (U : RelaxedR1CSInstance (ZMod n) G1) (W : RelaxedR1CSWitness (ZMod n))
    (U_secondary : RelaxedR1CSInstance (ZMod b) G2) (W_secondary : RelaxedR1CSWitness (ZMod b))
    (u : R1CSInstance (ZMod n) G1) (w : R1CSWitness (ZMod n)) : Run Error (Folded n b G1 G2) := do
  let r_0 : ZMod b := squeezed.1
  let r_0_scalar : ZMod n := castFieldElement r_0
  let folded_U := U.fold u commitment_T r_0_scalar
  let folded_W ← (W.fold w T r_0_scalar).mapError .r1cs
  let E_comm_trace := c.synthesize
    ⟨U.commitment_E, commitment_T, folded_U.commitment_E, r_0⟩ pp_secondary
  let W_comm_trace := c.synthesize
    ⟨U.commitment_W, u.commitment_W, folded_U.commitment_W, r_0⟩ pp_secondary
  let round_E ← c.foldTrace c.secondary.shape pp_secondary squeezed.2 (U_secondary, W_secondary)
    E_comm_trace [r_0_scalar]
  let round_W ← c.foldTrace c.secondary.shape pp_secondary round_E.randomOracle
    (round_E.U, round_E.W) W_comm_trace (castFieldElementUnique round_E.r)
  .ok ⟨⟨commitment_T, (round_E.proof, .default), round_W.proof, 0⟩, folded_U, folded_W,
    round_W.U, round_W.W⟩

/-- `NIMFSProof::prove`. -/
def prove (U : RelaxedR1CSInstance (ZMod n) G1) (W : RelaxedR1CSWitness (ZMod n))
    (U_secondary : RelaxedR1CSInstance (ZMod b) G2) (W_secondary : RelaxedR1CSWitness (ZMod b))
    (u : R1CSInstance (ZMod n) G1) (w : R1CSWitness (ZMod n)) : Run Error (Folded n b G1 G2) := do
  let cross ← (commit_T c.C1 shape pp U W u w).mapError .r1cs
  let squeezed := c.squeezeAfter c.ro.new
    [[vk], relaxedElements (relaxedMap c.cycle.affine1 U),
      strictElements (strictMap c.cycle.affine1 u),
      relaxedElementsSecondary (relaxedMap c.cycle.affine2 U_secondary),
      pointElements (c.cycle.affine1 cross.2)]
  c.proveAt pp_secondary squeezed cross.1 cross.2 U W U_secondary W_secondary u w

/-- `NIFSProof::prove_with_relaxed`, over the secondary curve; `extra` is absorbed before it. -/
def proveSecondary (randomOracle : c.ro.State) (extra : List (ZMod n))
    (U1 : RelaxedR1CSInstance (ZMod b) G2) (W1 : RelaxedR1CSWitness (ZMod b))
    (U2 : RelaxedR1CSInstance (ZMod b) G2) (W2 : RelaxedR1CSWitness (ZMod b)) :
    Run R1cs.Error (G2 × RelaxedR1CSInstance (ZMod b) G2 × RelaxedR1CSWitness (ZMod b)) := do
  let cross ← commit_T_with_relaxed c.C2 c.secondary.shape pp_secondary U1 W1 U2 W2
  let squeezed := c.squeezeAfter randomOracle
    [extra, relaxedElementsSecondary (relaxedMap c.cycle.affine2 U1),
      relaxedElementsSecondary (relaxedMap c.cycle.affine2 U2),
      nativePointElements (c.cycle.affine2 cross.2)]
  let r : ZMod b := squeezed.1
  let W ← W1.foldWithRelaxed W2 cross.1 r
  .ok (cross.2, U1.foldWithRelaxed U2 cross.2 r, W)

/-- `NIMFSProof::prove_with_relaxed` from the first challenge on. -/
def proveWithRelaxedAt (squeezed : ℕ × c.ro.State) (T : List (ZMod n)) (commitment_T : G1)
    (U1 : RelaxedR1CSInstance (ZMod n) G1) (W1 : RelaxedR1CSWitness (ZMod n))
    (U1_secondary : RelaxedR1CSInstance (ZMod b) G2) (W1_secondary : RelaxedR1CSWitness (ZMod b))
    (U2 : RelaxedR1CSInstance (ZMod n) G1) (W2 : RelaxedR1CSWitness (ZMod n))
    (U2_secondary : RelaxedR1CSInstance (ZMod b) G2) (W2_secondary : RelaxedR1CSWitness (ZMod b)) :
    Run Error (Folded n b G1 G2) := do
  let r_0 : ZMod b := squeezed.1
  let r_0_scalar : ZMod n := castFieldElement r_0
  let folded_U := U1.foldWithRelaxed U2 commitment_T r_0_scalar
  let folded_W ← (W1.foldWithRelaxed W2 T r_0_scalar).mapError .r1cs
  let g_out := U1.commitment_E + r_0_scalar • commitment_T
  let E_comm_trace_0 := c.synthesize ⟨U1.commitment_E, commitment_T, g_out, r_0⟩ pp_secondary
  let E_comm_trace_1 := c.synthesize
    ⟨g_out, U2.commitment_E, folded_U.commitment_E, castFieldElement (r_0_scalar ^ 2)⟩ pp_secondary
  let W_comm_trace := c.synthesize
    ⟨U1.commitment_W, U2.commitment_W, folded_U.commitment_W, r_0⟩ pp_secondary
  let round_0 ← c.foldTrace c.secondary.shape pp_secondary squeezed.2 (U1_secondary, W1_secondary)
    E_comm_trace_0 [r_0_scalar]
  let round_1 ← c.foldTrace c.secondary.shape pp_secondary round_0.randomOracle
    (round_0.U, round_0.W) E_comm_trace_1 (castFieldElementUnique round_0.r)
  let round_W ← c.foldTrace c.secondary.shape pp_secondary round_1.randomOracle
    (round_1.U, round_1.W) W_comm_trace (castFieldElementUnique round_1.r)
  let last ← (c.proveSecondary pp_secondary round_W.randomOracle
    (castFieldElementUnique round_W.r) round_W.U round_W.W U2_secondary W2_secondary).mapError .r1cs
  .ok ⟨⟨commitment_T, (round_0.proof, round_1.proof), round_W.proof, last.1⟩, folded_U, folded_W,
    last.2.1, last.2.2⟩

/-- `NIMFSProof::prove_with_relaxed`. -/
def proveWithRelaxed (U1 : RelaxedR1CSInstance (ZMod n) G1) (W1 : RelaxedR1CSWitness (ZMod n))
    (U1_secondary : RelaxedR1CSInstance (ZMod b) G2) (W1_secondary : RelaxedR1CSWitness (ZMod b))
    (U2 : RelaxedR1CSInstance (ZMod n) G1) (W2 : RelaxedR1CSWitness (ZMod n))
    (U2_secondary : RelaxedR1CSInstance (ZMod b) G2) (W2_secondary : RelaxedR1CSWitness (ZMod b)) :
    Run Error (Folded n b G1 G2) := do
  let cross ← (commit_T_with_relaxed c.C1 shape pp U1 W1 U2 W2).mapError .r1cs
  let squeezed := c.squeezeAfter c.ro.new
    [[vk], relaxedElements (relaxedMap c.cycle.affine1 U1),
      relaxedElements (relaxedMap c.cycle.affine1 U2),
      relaxedElementsSecondary (relaxedMap c.cycle.affine2 U1_secondary),
      pointElements (c.cycle.affine1 cross.2)]
  c.proveWithRelaxedAt pp_secondary squeezed cross.1 cross.2 U1 W1 U1_secondary W1_secondary U2 W2
    U2_secondary W2_secondary

end Setting

end NexusVm.Nova.Cyclefold
