import NexusVm.Nova.Circuits.Fold
import NexusVm.Nova.Circuits.SequentialProof

/-!
# Runs of the sequential prover

Every step of the prover keeps an invariant: the proof is accepted, its instance starts with one,
and it holds the state after as many steps.
-/

namespace NexusVm.Nova.Circuits.Sequential

open R1cs Cyclefold Synth

theorem saturatingSucc_toNat (i : UInt64) :
    (saturatingSucc i).toNat = min (i.toNat + 1) (2 ^ 64 - 1) := by
  have hi := i.toNat_lt
  rw [saturatingSucc]
  split_ifs with h
  · rw [UInt64.toNat_add, UInt64.toNat_one, Nat.mod_eq_of_lt h]
    omega
  · omega

variable {n b : ℕ} {G1 G2 PP1 PP2 : Type} [Fact n.Prime] [Fact b.Prime] [AddCommGroup G1]
  [Module (ZMod n) G1] [AddCommGroup G2] [Module (ZMod b) G2]
  {c : Setting n b G1 G2 PP1 PP2} {SC : StepCircuit (ZMod n)} (system : System c SC)
  {params : PublicParams (ZMod n) PP1 PP2} {f : ZMod n → List (ZMod n) → List (ZMod n)}

variable {input : InputVar n b G2}

/-- The synthesis on a valid input whose constraints hold. -/
theorem satisfied_synthesize (hshape : params.shape = system.shape) (hvalid : input.Valid SC)
    (haccepted : ∀ hash_input, hash_input = hash c (body c SC (SC.hint input.i input.z_i) input).value.1 → Accepted c SC (SC.hint input.i input.z_i) input hash_input) :
    Satisfied c.C1 params.shape (synthesize system params input).1
      (synthesize system params input).2.1 params.pp := by
  rw [hshape]
  exact (system.satisfied_iff c.C1 params.pp hvalid _).mpr (holds_iff.mpr (haccepted _ rfl))

/-- What the prover keeps after `m` steps. -/
structure Honest (c : Setting n b G1 G2 PP1 PP2) (params : PublicParams (ZMod n) PP1 PP2)
    (f : ZMod n → List (ZMod n) → List (ZMod n)) (z_0 : List (ZMod n)) (m : ℕ)
    (non_base : IVCProofNonBase n b G1 G2) : Prop where
  verified : Verified c params z_0 non_base
  one : non_base.u.X.head? = some 1
  i : non_base.i.toNat = m
  z_i : non_base.z_i = applyFrom f 0 m z_0

/-- The default accumulators of the prover are the constants of the circuit. -/
theorem relaxedMap_newInstance {shape : R1CSShape (ZMod n)}
    (hnumIo : shape.numIo = augmentedCircuitNumIo) :
    relaxedMap c.cycle.affine1 (newInstance shape) =
      (baseAccumulators c : RelaxedPrimaryVar n b × RelaxedSecondaryVar b G2).1 := by
  rw [newInstance, hnumIo]
  rfl

theorem newInstance_secondary : newInstance c.secondary.shape =
    (baseAccumulators c : RelaxedPrimaryVar n b × RelaxedSecondaryVar b G2).2 := by
  rw [newInstance, c.secondary.numIo]
  rfl

/-- The last hash of a first step. -/
theorem value_body_zero {aux : SC.Aux} (h : input.Valid SC) (hi : input.i = 0) :
    (body c SC aux input).value.1 =
      transcript c input.vk (0 + 1) input.z_0 (SC.generateConstraints aux input.i input.z_i).value
        (baseAccumulators c).1 (baseAccumulators c).2 := by
  rw [value_body c aux h, if_pos hi, if_pos hi, hi]

/-- The last hash of a later step, which folds. -/
theorem value_body_fold {aux : SC.Aux} (h : input.Valid SC) (hi : input.i ≠ 0) :
    (body c SC aux input).value.1 =
      transcript c input.vk (input.i + 1) input.z_0
        (SC.generateConstraints aux input.i input.z_i).value
        (input.node.fold c input.vk true).value.1 (input.node.fold c input.vk true).value.2 := by
  have hdecide : (!decide (input.i = 0)) = true := by rw [decide_eq_false hi, Bool.not_false]
  rw [value_body c aux h, if_neg hi, if_neg hi, hdecide]

variable {z_0 : List (ZMod n)}

theorem valid_allocBase {vk : ZMod n} (hz : z_0.length = SC.arity) :
    (allocBase c vk z_0 : InputVar n b G2).Valid SC := ⟨hz, hz, baseNode_valid c⟩

/-- The constraints of a first step hold. -/
theorem accepted_allocBase (hf : SC.Computes f) {vk hash_input : ZMod n}
    (hz : z_0.length = SC.arity)
    (h : hash_input = hash c (body c SC (SC.hint 0 z_0) (allocBase c vk z_0)).value.1) :
    Accepted c SC (SC.hint 0 z_0) (allocBase c vk z_0) hash_input := by
  have hbase : decide ((allocBase c vk z_0).i = 0) = true := decide_eq_true rfl
  constructor
  · intro _ z hz
    obtain ⟨k, hk, rfl⟩ := List.mem_iff_getElem.mp hz
    rw [List.getElem_zip]
    rfl
  · exact hf.holds 0 z_0 hz
  · intro hne
    exact absurd rfl hne
  · rw [hbase]
    exact Setting.multifold_holds_iff.mpr nofun
  · exact h

/-- The first step. -/
theorem proveStep_new (hf : SC.Computes f) (hshape : params.shape = system.shape)
    (hz : z_0.length = SC.arity) :
    ∃ non_base, proveStep system params (.new z_0) = .ok ⟨z_0, some non_base⟩ ∧
      Honest c params f z_0 1 non_base := by
  refine ⟨_, rfl, ?_⟩
  have hvalid : (allocBase c params.digest z_0).Valid SC := valid_allocBase hz
  have hsat := satisfied_synthesize system hshape hvalid fun hash_input hhash =>
    accepted_allocBase hf hz hhash
  have hnumIo : params.shape.numIo = augmentedCircuitNumIo := by
    rw [hshape]
    exact system.isAugmented.numIo
  constructor
  · constructor
    · have hone : (((1 : UInt64).toNat : ℕ) : ZMod n) = 0 + 1 := by
        rw [UInt64.toNat_one, Nat.cast_one, zero_add]
      show hash c (transcript c params.digest ((1 : UInt64).toNat : ZMod n) z_0
        (SC.generateConstraints (SC.hint 0 z_0) 0 z_0).value
        (relaxedMap c.cycle.affine1 (newInstance params.shape)) (newInstance c.secondary.shape)) =
        hash c (body c SC (SC.hint 0 z_0) (allocBase c params.digest z_0)).value.1
      rw [value_body_zero hvalid rfl, relaxedMap_newInstance hnumIo, newInstance_secondary, hone]
      rfl
    · exact Nat.one_lt_two
    · exact relaxedSatisfied_new c.C1 params.shape params.pp
    · exact relaxedSatisfied_new c.C2 c.secondary.shape params.pp_secondary
    · exact hsat
  · rfl
  · rfl
  · exact (hf.value_hint 0 hz).trans (by rw [applyFrom, applyFrom, Nat.cast_zero, add_zero])

variable {m : ℕ} {non_base : IVCProofNonBase n b G1 G2}

/-- Every later step folds and synthesises; the counter saturates. -/
theorem exists_proveStep (hb : 2 ^ 127 ≤ b) (hshape : params.shape = system.shape)
    (h : Honest c params f z_0 m non_base) :
    ∃ fold node next, AllocatedFold c params.digest non_base.U non_base.U_secondary non_base.u fold
        node ∧
      RelaxedSatisfied c.C1 params.shape fold.U fold.W params.pp ∧
      RelaxedSatisfied c.C2 c.secondary.shape fold.U_secondary fold.W_secondary
        params.pp_secondary ∧
      proveStep system params ⟨z_0, some non_base⟩ = .ok ⟨z_0, some next⟩ ∧
      next =
        let input : InputVar n b G2 := ⟨params.digest, non_base.i.toNat, z_0, non_base.z_i, node⟩
        let out := synthesize system params input
        ⟨fold.U, fold.W, fold.U_secondary, fold.W_secondary, out.1, out.2.1,
          saturatingSucc non_base.i, out.2.2⟩ := by
  have hnumIo : params.shape.numIo = augmentedCircuitNumIo := by
    rw [hshape]
    exact system.isAugmented.numIo
  obtain ⟨fold, node, hfold, hnode, hallocated, hsat, hsat_secondary⟩ :=
    exists_allocatedFold params.digest hb hnumIo h.verified.primary h.verified.secondary
      h.verified.strict h.one
  refine ⟨fold, node, _, hallocated, hsat, hsat_secondary, ?_, rfl⟩
  exact bind_eq_ok.mpr ⟨_, bind_eq_ok.mpr ⟨fold, hfold, bind_eq_ok.mpr ⟨node, hnode, rfl⟩⟩, rfl⟩

/-- Every later step keeps the invariant, while the counter does not saturate. -/
theorem proveStep_honest (hn : 2 ^ 127 ≤ n) (hb : 2 ^ 127 ≤ b) (hf : SC.Computes f)
    (hshape : params.shape = system.shape) (hz : z_0.length = SC.arity) (hm : 1 ≤ m)
    (hlt : m + 1 < 2 ^ 64) (h : Honest c params f z_0 m non_base) :
    ∃ next, proveStep system params ⟨z_0, some non_base⟩ = .ok ⟨z_0, some next⟩ ∧
      Honest c params f z_0 (m + 1) next := by
  obtain ⟨fold, node, next, hallocated, hsat, hsat_secondary, hprove, hnext⟩ :=
    exists_proveStep system hb hshape h
  refine ⟨next, hprove, ?_⟩
  have hlen : (applyFrom f 0 m z_0).length = SC.arity := hf.length_applyFrom 0 m hz
  let input : InputVar n b G2 := ⟨params.digest, non_base.i.toNat, z_0, non_base.z_i, node⟩
  have hne : input.i ≠ 0 := by
    show ((non_base.i.toNat : ℕ) : ZMod n) ≠ 0
    rw [h.i, Ne, ZMod.natCast_eq_zero_iff]
    intro hdvd
    have := Nat.le_of_dvd hm hdvd
    omega
  have hvalid : input.Valid SC := ⟨hz, by rw [← hlen, ← h.z_i], hallocated.valid⟩
  have hsynthesize := satisfied_synthesize system hshape hvalid fun hash_input hhash => by
    constructor
    · intro hi
      exact absurd hi hne
    · exact hf.holds _ _ hvalid.z_i
    · intro _
      show hash c (transcript c params.digest non_base.i.toNat z_0 non_base.z_i node.U
        node.U_secondary) = node.u.X.getD 1 0
      rw [hallocated.U, hallocated.U_secondary, hallocated.u]
      exact h.verified.hash
    · show (node.fold c params.digest _).holds
      rw [hallocated.fold]
      trivial
    · exact hhash
  have hsucc : (saturatingSucc non_base.i).toNat = m + 1 := by
    rw [saturatingSucc_toNat, h.i]
    omega
  rw [hnext]
  constructor
  · constructor
    · have hfolded : input.node.fold c input.vk true =
          ⟨(relaxedMap c.cycle.affine1 fold.U, fold.U_secondary), True⟩ := hallocated.fold true
      have hi : (((saturatingSucc non_base.i).toNat : ℕ) : ZMod n) = input.i + 1 := by
        show _ = ((non_base.i.toNat : ℕ) : ZMod n) + 1
        rw [hsucc, h.i, Nat.cast_succ]
      show hash c (transcript c params.digest ((saturatingSucc non_base.i).toNat : ZMod n) z_0
        (SC.generateConstraints (SC.hint input.i input.z_i) input.i input.z_i).value
        (relaxedMap c.cycle.affine1 fold.U) fold.U_secondary) =
        hash c (body c SC (SC.hint input.i input.z_i) input).value.1
      rw [value_body_fold hvalid hne, hfolded, hi]
    · exact Nat.one_lt_two
    · exact hsat
    · exact hsat_secondary
    · exact hsynthesize
  · rfl
  · exact hsucc
  · show (SC.generateConstraints (SC.hint input.i input.z_i) input.i input.z_i).value = _
    rw [hf.value_hint _ hvalid.z_i]
    show f ((non_base.i.toNat : ℕ) : ZMod n) non_base.z_i = f (0 + (m : ZMod n)) _
    rw [h.i, zero_add, h.z_i]

/-! ## Runs -/

/-- Runs of the prover keep the invariant. -/
theorem proveSteps_honest (hn : 2 ^ 127 ≤ n) (hb : 2 ^ 127 ≤ b) (hf : SC.Computes f)
    (hshape : params.shape = system.shape) (hz : z_0.length = SC.arity) (hm : 1 ≤ m)
    (hlt : m < 2 ^ 64) :
    ∃ non_base, proveSteps system params z_0 m = .ok ⟨z_0, some non_base⟩ ∧
      Honest c params f z_0 m non_base := by
  induction m, hm using Nat.le_induction with
  | base =>
      obtain ⟨non_base, hstep, h⟩ := proveStep_new system hf hshape hz
      exact ⟨non_base, hstep, h⟩
  | succ m hm ih =>
      obtain ⟨non_base, hrun, h⟩ := ih (by omega)
      obtain ⟨next, hstep, hnext⟩ := proveStep_honest system hn hb hf hshape hz hm hlt h
      refine ⟨next, ?_, hnext⟩
      rw [proveSteps, hrun]
      exact hstep

/-- **Completeness.**  A run of the prover counts its steps and holds the state after them, and its
proof is accepted for this number of steps only. -/
theorem proveSteps_complete [DecidableEq G1] [DecidableEq G2] (hn : 2 ^ 127 ≤ n) (hb : 2 ^ 127 ≤ b)
    (hf : SC.Computes f) (hshape : params.shape = system.shape) (hz : z_0.length = SC.arity)
    (hm : 1 ≤ m) (hlt : m < 2 ^ 64) :
    ∃ proof, proveSteps system params z_0 m = .ok proof ∧ proof.step_num.toNat = m ∧
      proof.z_i = applyFrom f 0 m z_0 ∧
      ∀ num_steps, verifySteps c params proof num_steps = .ok () ↔ num_steps.toNat = m := by
  obtain ⟨non_base, hrun, h⟩ := proveSteps_honest system hn hb hf hshape hz hm hlt
  refine ⟨_, hrun, h.i, h.z_i, ?_⟩
  intro num_steps
  rw [verifySteps_eq_ok]
  constructor
  · rintro ⟨_, ⟨⟩, rfl, -⟩
    exact h.i
  · intro hsteps
    exact ⟨non_base, rfl, UInt64.toNat.inj (hsteps.trans h.i.symm), h.verified⟩

/-- After `2 ^ 64` steps the proof still counts one less. -/
theorem proveSteps_saturated (hn : 2 ^ 127 ≤ n) (hb : 2 ^ 127 ≤ b) (hf : SC.Computes f)
    (hshape : params.shape = system.shape) (hz : z_0.length = SC.arity) :
    ∃ proof, proveSteps system params z_0 (2 ^ 64) = .ok proof ∧
      proof.step_num.toNat = 2 ^ 64 - 1 := by
  obtain ⟨non_base, hrun, h⟩ := proveSteps_honest system hn hb hf hshape hz
    (show 1 ≤ 2 ^ 64 - 1 by norm_num) (by norm_num)
  obtain ⟨_, _, next, -, -, -, hprove, hnext⟩ := exists_proveStep system hb hshape h
  have hcount : (2 : ℕ) ^ 64 = (2 ^ 64 - 1) + 1 := by norm_num
  refine ⟨⟨z_0, some next⟩, ?_, ?_⟩
  · rw [hcount, proveSteps, hrun]
    exact hprove
  · rw [hnext]
    show (saturatingSucc non_base.i).toNat = _
    rw [saturatingSucc_toNat, h.i]
    norm_num

end NexusVm.Nova.Circuits.Sequential
