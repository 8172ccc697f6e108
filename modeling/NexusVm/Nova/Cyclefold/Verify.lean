import NexusVm.Nova.Cyclefold.Absorb
import NexusVm.Nova.Cyclefold.SecondaryIo

/-!
# The native verifier of a fold

`NIMFSProof::verify` of `nova/src/folding/nova/cyclefold/nimfs/mod.rs`.  It recomputes the
challenges and the folded instances from the proof.
-/

namespace NexusVm.Nova.Cyclefold

open R1cs

namespace Setting

variable {n b : ℕ} {G1 G2 PP1 PP2 : Type} [Fact n.Prime] [Fact b.Prime] [AddCommGroup G1]
  [Module (ZMod n) G1] [AddCommGroup G2] [Module (ZMod b) G2]
  (c : Setting n b G1 G2 PP1 PP2)

/-- What is absorbed before the first challenge is squeezed. -/
def absorbed (vk : ZMod n) (U : RelaxedR1CSInstance (ZMod n) G1)
    (U_secondary : RelaxedR1CSInstance (ZMod b) G2) (u : R1CSInstance (ZMod n) G1)
    (commitment_T : G1) : List (List (ZMod n)) :=
  [[vk], relaxedElements (relaxedMap c.cycle.affine1 U),
    strictElements (strictMap c.cycle.affine1 u),
    relaxedElementsSecondary (relaxedMap c.cycle.affine2 U_secondary),
    pointElements (c.cycle.affine1 commitment_T)]

variable [DecidableEq G1]

/-- `NIMFSProof::verify`. -/
def verify (reader : PointReader c.cycle) (proof : NIMFSProof b G1 G2) (vk : ZMod n)
    (U : RelaxedR1CSInstance (ZMod n) G1) (U_secondary : RelaxedR1CSInstance (ZMod b) G2)
    (u : R1CSInstance (ZMod n) G1) :
    Run Error (RelaxedR1CSInstance (ZMod n) G1 × RelaxedR1CSInstance (ZMod b) G2) := do
  let squeezed_0 := c.squeezeAfter c.ro.new
    (c.absorbed vk U U_secondary u proof.commitment_T)
  let r_0 : ZMod b := squeezed_0.1
  let r_0_scalar : ZMod n := castFieldElement r_0
  let comm_E := proof.commitment_E_proof.1
  let pub_io_E ← reader.parseSecondaryIo comm_E.U
  Run.failIf (pub_io_E.r ≠ r_0 ∨ pub_io_E.g1 ≠ U.commitment_E ∨
    pub_io_E.g2 ≠ proof.commitment_T) .invalidPublicInput
  let squeezed_1 := c.challenge squeezed_0.2 comm_E.U comm_E.commitment_T [r_0_scalar]
  let r_1 : ZMod b := squeezed_1.1
  let comm_W := proof.commitment_W_proof
  let pub_io_W ← reader.parseSecondaryIo comm_W.U
  Run.failIf (pub_io_W.r ≠ r_0 ∨ pub_io_W.g1 ≠ U.commitment_W ∨
    pub_io_W.g2 ≠ u.commitment_W) .invalidPublicInput
  let squeezed_2 := c.challenge squeezed_1.2 comm_W.U comm_W.commitment_T
    (castFieldElementUnique r_1)
  let r_2 : ZMod b := squeezed_2.1
  let folded_U : RelaxedR1CSInstance (ZMod n) G1 :=
    ⟨pub_io_W.gOut, pub_io_E.gOut, List.zipWith (fun a b => a + r_0_scalar * b) U.X u.X⟩
  let U_secondary_temp := U_secondary.fold comm_E.U comm_E.commitment_T r_1
  .ok (folded_U, U_secondary_temp.fold comm_W.U comm_W.commitment_T r_2)

variable {c}

omit [Module (ZMod n) G1] [Module (ZMod b) G2] [DecidableEq G1] [Fact n.Prime] in
/-- The affine coordinates of a point are read as the point. -/
theorem readAs_affine1 {cycle : Cycle n b G1 G2} (P : G1) : ReadAs cycle (cycle.affine1 P) P := by
  rw [ReadAs, Represents]
  by_cases hinfinity : (cycle.affine1 P).infinity = true
  · rw [if_pos hinfinity, AffinePoint.intoProjective, if_pos hinfinity, if_pos hinfinity,
      if_pos hinfinity]
    exact ⟨rfl, one_ne_zero, rfl⟩
  · rw [if_neg hinfinity, AffinePoint.intoProjective, if_neg hinfinity, if_neg hinfinity,
      if_neg hinfinity]
    exact ⟨one_ne_zero, (mul_one _).symm, (mul_one _).symm⟩

omit [DecidableEq G1] in
/-- The public input of a trace comes back. -/
theorem parseSecondaryIo_synthesize_native (reader : PointReader c.cycle)
    (circuit : Circuit b G1) (pp_secondary : PP2) :
    reader.parseSecondaryIo (c.synthesize circuit pp_secondary).1 = .ok circuit :=
  reader.parseSecondaryIo_eq_ok (reader.fromAffine_of_readAs (readAs_affine1 circuit.g1))
    (reader.fromAffine_of_readAs (readAs_affine1 circuit.g2))
    (reader.fromAffine_of_readAs (readAs_affine1 circuit.gOut)) _ 1 circuit.r

variable {W_secondary : RelaxedR1CSWitness (ZMod b)} {w : R1CSWitness (ZMod n)}
  {U : RelaxedR1CSInstance (ZMod n) G1} {W : RelaxedR1CSWitness (ZMod n)}
  {u : R1CSInstance (ZMod n) G1} {folded : Folded n b G1 G2}
  {U_secondary : RelaxedR1CSInstance (ZMod b) G2}

/-- **The verifier accepts the proof of the prover** and returns the same folded instances. -/
theorem verify_proveAt (reader : PointReader c.cycle) {pp_secondary : PP2} {vk : ZMod n}
    {T : List (ZMod n)} {commitment_T : G1}
    (h : c.proveAt pp_secondary (c.squeezeAfter c.ro.new (c.absorbed vk U U_secondary u commitment_T)) T commitment_T U W U_secondary W_secondary u w = .ok folded) :
    c.verify reader folded.proof vk U U_secondary u = .ok (folded.U, folded.U_secondary) := by
  simp only [proveAt, bind_eq_ok] at h
  obtain ⟨folded_W, -, round_E, hE, round_W, hW, h⟩ := h
  cases h
  obtain ⟨T_E, commitment_T_E, -, -, hproof_E, hr_E, hro_E, hU_E⟩ := foldTrace_eq_ok hE
  obtain ⟨T_W, commitment_T_W, -, -, hproof_W, hr_W, hro_W, hU_W⟩ := foldTrace_eq_ok hW
  rw [verify]
  dsimp only
  rw [hproof_E, hproof_W]
  refine bind_eq_ok.mpr ⟨_, parseSecondaryIo_synthesize_native reader _ _, bind_eq_ok.mpr ⟨(),
    failIf_eq_ok.mpr ?_, bind_eq_ok.mpr ⟨_, parseSecondaryIo_synthesize_native reader _ _,
    bind_eq_ok.mpr ⟨(), failIf_eq_ok.mpr ?_, ?_⟩⟩⟩⟩
  · rintro (hne | hne | hne) <;> exact hne rfl
  · rintro (hne | hne | hne) <;> exact hne rfl
  · dsimp only at hr_E hU_E hr_W hU_W hro_E ⊢
    rw [hro_E] at hr_W
    rw [hU_W, hU_E, hr_W, hr_E]
    rfl

/-- The same for the whole prover. -/
theorem verify_prove (reader : PointReader c.cycle) {pp : PP1} {pp_secondary : PP2} {vk : ZMod n}
    {shape : R1CSShape (ZMod n)}
    (h : c.prove pp pp_secondary vk shape U W U_secondary W_secondary u w = .ok folded) :
    c.verify reader folded.proof vk U U_secondary u = .ok (folded.U, folded.U_secondary) := by
  obtain ⟨cross, -, hat⟩ := bind_eq_ok.mp h
  exact verify_proveAt reader hat

end Setting

/-! ## Binding -/

section Binding

variable {n b : ℕ} {G1 G2 PP1 PP2 : Type}

/-- The inputs of the verifier that the first challenge should depend on. -/
structure VerifyInput (n b : ℕ) (G1 G2 : Type) where
  vk : ZMod n
  U : RelaxedR1CSInstance (ZMod n) G1
  u : R1CSInstance (ZMod n) G1
  U_secondary : RelaxedR1CSInstance (ZMod b) G2
  commitment_T : G1
deriving DecidableEq

/-- The inputs are for the same shapes. -/
structure VerifyInput.SameShapes (x y : VerifyInput n b G1 G2) : Prop where
  U : x.U.X.length = y.U.X.length
  u : x.u.X.length = y.u.X.length
  U_secondary : x.U_secondary.X.length = y.U_secondary.X.length

/-- The inputs agree in every component other than the first entry of `u.X`. -/
structure VerifyInput.AgreeBelow (x y : VerifyInput n b G1 G2) : Prop where
  vk : x.vk = y.vk
  U : x.U = y.U
  commitment_W : x.u.commitment_W = y.u.commitment_W
  X : x.u.X.drop 1 = y.u.X.drop 1
  U_secondary : x.U_secondary = y.U_secondary
  commitment_T : x.commitment_T = y.commitment_T

variable {x y : VerifyInput n b G1 G2}

/-- Inputs that agree everywhere are equal. -/
theorem VerifyInput.AgreeBelow.eq (h : x.AgreeBelow y) (hhead : x.u.X.head? = y.u.X.head?) :
    x = y := by
  obtain ⟨vk, U, ⟨commitment_W, X⟩, U_secondary, commitment_T⟩ := x
  obtain ⟨vk', U', ⟨commitment_W', X'⟩, U_secondary', commitment_T'⟩ := y
  obtain ⟨hvk, hU, hW, hX, hU_secondary, hT⟩ := h
  simp only at hvk hU hW hX hU_secondary hT hhead
  have hXX : X = X' := by
    cases X with
    | nil =>
        cases X' with
        | nil => rfl
        | cons x' X' => cases hhead
    | cons x X =>
        cases X' with
        | nil => cases hhead
        | cons x' X' =>
            rw [List.head?_cons, List.head?_cons, Option.some.injEq] at hhead
            rw [List.drop_succ_cons, List.drop_succ_cons, List.drop_zero, List.drop_zero] at hX
            rw [hhead, hX]
  rw [hvk, hU, hW, hXX, hU_secondary, hT]

variable [Fact n.Prime] [Fact b.Prime] [AddCommGroup G1] [Module (ZMod n) G1] [AddCommGroup G2]
  [Module (ZMod b) G2]

/-- The sequence of elements absorbed before the first challenge. -/
def VerifyInput.elements (c : Setting n b G1 G2 PP1 PP2) (x : VerifyInput n b G1 G2) :
    List (ZMod n) :=
  (c.absorbed x.vk x.U x.U_secondary x.u x.commitment_T).flatten

/-- **What is absorbed** determines the inputs up to the first entry of `u.X`. -/
theorem elements_eq_iff (c : Setting n b G1 G2 PP1 PP2) (hn : 256 ≤ n) (hshapes : x.SameShapes y) :
    x.elements c = y.elements c ↔ x.AgreeBelow y := by
  have hcons : ∀ z : VerifyInput n b G1 G2, z.elements c =
      z.vk :: (relaxedElements (relaxedMap c.cycle.affine1 z.U) ++
        (strictElements (strictMap c.cycle.affine1 z.u) ++
          (relaxedElementsSecondary (relaxedMap c.cycle.affine2 z.U_secondary) ++
            pointElements (c.cycle.affine1 z.commitment_T)))) := by
    intro z
    simp only [VerifyInput.elements, Setting.absorbed, List.flatten_cons, List.flatten_nil,
      List.append_nil, List.singleton_append]
  constructor
  · intro h
    rw [hcons, hcons, List.cons.injEq] at h
    obtain ⟨hvk, h⟩ := h
    obtain ⟨hU, h⟩ := List.append_inj h (length_relaxedElements hshapes.U)
    obtain ⟨hu, h⟩ := List.append_inj h (length_strictElements hshapes.u)
    obtain ⟨hU_secondary, hT⟩ :=
      List.append_inj h (length_relaxedElementsSecondary hshapes.U_secondary)
    obtain ⟨hW, hX⟩ := (strictElements_eq_iff hn).mp hu
    constructor
    · exact hvk
    · exact relaxedMap_injective c.cycle.affine1_injective (relaxedElements_injective hn hU)
    · exact c.cycle.affine1_injective hW
    · exact hX
    · exact relaxedMap_injective c.cycle.affine2_injective
        (relaxedElementsSecondary_injective hn hshapes.U_secondary hU_secondary)
    · exact c.cycle.affine1_injective (pointElements_injective hn hT)
  · intro h
    have hu : strictElements (strictMap c.cycle.affine1 x.u) =
        strictElements (strictMap c.cycle.affine1 y.u) := by
      simp only [strictElements, strictMap, h.commitment_W, h.X]
    rw [hcons, hcons, h.vk, h.U, hu, h.U_secondary, h.commitment_T]

end Binding

end NexusVm.Nova.Cyclefold
