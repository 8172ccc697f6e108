import NexusVm.Nova.Circuits.SequentialRun
import NexusVm.Nova.Cyclefold.Absorb

/-!
# Accepted sequential proofs

From an accepted proof of several steps the witness of its last instance and an extractor for folds
give an accepted proof of one step less.  The proof of one step starts at `z_0`, so going backwards
through all steps shows that the claimed state is the result of the step circuit from `z_0`.

Two things are assumed where they are used: the hash has no collision among the transcripts that
the proofs of the last steps absorb, and an extractor succeeds on the fold of each of them.  The
number of steps is at least one and below the order of the field, since the index `0` is reached
again after as many steps.  How an extractor works and how often it fails is not treated.
-/

namespace NexusVm.Nova.Circuits.Sequential

open R1cs Cyclefold Synth

variable {n b : ℕ} {G1 G2 PP1 PP2 : Type} [Fact n.Prime] [Fact b.Prime] [AddCommGroup G1]
  [Module (ZMod n) G1] [AddCommGroup G2] [Module (ZMod b) G2]
  {c : Setting n b G1 G2 PP1 PP2} {SC : StepCircuit (ZMod n)}

/-- The pairs that an extractor finds for a fold; the secondary instance it does not choose. -/
structure Extraction (n b : ℕ) (G1 : Type) where
  U : RelaxedR1CSInstance (ZMod n) G1
  W : RelaxedR1CSWitness (ZMod n)
  W_secondary : RelaxedR1CSWitness (ZMod b)
  u : R1CSInstance (ZMod n) G1
  w : R1CSWitness (ZMod n)

/-- An extractor: from what is allocated for a fold and a proof with the folded pairs it returns the
pairs before the fold. -/
abbrev Extractor (n b : ℕ) (G1 G2 : Type) : Type :=
  NodeVar n b G2 → IVCProofNonBase n b G1 G2 → Extraction n b G1

/-- The pairs are satisfied, and their instances are the allocated ones. -/
structure Extraction.Opens (c : Setting n b G1 G2 PP1 PP2)
    (params : PublicParams (ZMod n) PP1 PP2) (node : NodeVar n b G2) (out : Extraction n b G1) :
    Prop where
  U : relaxedMap c.cycle.affine1 out.U = node.U
  u : strictMap c.cycle.affine1 out.u = node.u
  primary : RelaxedSatisfied c.C1 params.shape out.U out.W params.pp
  secondary : RelaxedSatisfied c.C2 c.secondary.shape node.U_secondary out.W_secondary
    params.pp_secondary
  strict : Satisfied c.C1 params.shape out.u out.w params.pp

/-- The extractor succeeds on one fold: if the circuit accepts it and the folded pairs are
satisfied, then it finds satisfied pairs for the instances that went in. -/
def Extractor.Succeeds (E : Extractor n b G1 G2) (c : Setting n b G1 G2 PP1 PP2)
    (params : PublicParams (ZMod n) PP1 PP2) (node : NodeVar n b G2)
    (non_base : IVCProofNonBase n b G1 G2) : Prop :=
  (node.fold c params.digest true).holds →
  (node.fold c params.digest true).value =
    (relaxedMap c.cycle.affine1 non_base.U, non_base.U_secondary) →
  RelaxedSatisfied c.C1 params.shape non_base.U non_base.W params.pp →
  RelaxedSatisfied c.C2 c.secondary.shape non_base.U_secondary non_base.W_secondary
    params.pp_secondary →
  (E node non_base).Opens c params node

section Chain

variable (E : Extractor n b G1 G2) (system : System c SC)
  (params : PublicParams (ZMod n) PP1 PP2)

/-- The input of the augmented circuit, as the last witness has it. -/
def lastInput (non_base : IVCProofNonBase n b G1 G2) : InputVar n b G2 :=
  (system.decode non_base.w.W).2

/-- The proof before the last step. -/
def previous (non_base : IVCProofNonBase n b G1 G2) : IVCProofNonBase n b G1 G2 :=
  let input := lastInput system non_base
  let out := E input.node non_base
  { U := out.U
    W := out.W
    U_secondary := input.node.U_secondary
    W_secondary := out.W_secondary
    u := out.u
    w := out.w
    i := non_base.i - 1
    z_i := input.z_i }

/-- What the verifier absorbs. -/
def absorbed (c : Setting n b G1 G2 PP1 PP2) (params : PublicParams (ZMod n) PP1 PP2)
    (z_0 : List (ZMod n)) (non_base : IVCProofNonBase n b G1 G2) : List (List (ZMod n)) :=
  transcript c params.digest non_base.i.toNat z_0 non_base.z_i
    (relaxedMap c.cycle.affine1 non_base.U) non_base.U_secondary

/-- What the augmented circuit absorbs for its output. -/
def lastAbsorbed (non_base : IVCProofNonBase n b G1 G2) : List (List (ZMod n)) :=
  (body c SC (system.decode non_base.w.W).1 (lastInput system non_base)).value.1

/-- Everything that is hashed for the outputs of the last `m` steps. -/
def history (z_0 : List (ZMod n)) :
    ℕ → IVCProofNonBase n b G1 G2 → List (List (List (ZMod n)))
  | 0, _ => []
  | m + 1, non_base => absorbed c params z_0 non_base :: lastAbsorbed system non_base ::
      history z_0 m (previous E system non_base)

/-- The extractor succeeds on the folds of the last `m` steps, each of which is taken from the proof
that the extraction before it leads to. -/
def Extracts : ℕ → IVCProofNonBase n b G1 G2 → Prop
  | 0, _ => True
  | m + 1, non_base => E.Succeeds c params (lastInput system non_base).node non_base ∧
      Extracts m (previous E system non_base)

variable {E system params}

/-- What the last witness says about an accepted proof. -/
structure Opened (system : System c SC) (params : PublicParams (ZMod n) PP1 PP2)
    (z_0 : List (ZMod n)) (non_base : IVCProofNonBase n b G1 G2) : Prop where
  valid : (lastInput system non_base).Valid SC
  accepted : Accepted c SC (system.decode non_base.w.W).1 (lastInput system non_base)
    (non_base.u.X.getD 1 0)
  vk : (lastInput system non_base).vk = params.digest
  i : (lastInput system non_base).i + 1 = (non_base.i.toNat : ZMod n)
  z_0 : (lastInput system non_base).z_0 = z_0
  z_i : (SC.generateConstraints (system.decode non_base.w.W).1 (lastInput system non_base).i
    (lastInput system non_base).z_i).value = non_base.z_i
  fold : (lastInput system non_base).i ≠ 0 →
    ((lastInput system non_base).node.fold c params.digest true).value =
      (relaxedMap c.cycle.affine1 non_base.U, non_base.U_secondary)

variable {z_0 : List (ZMod n)} {non_base : IVCProofNonBase n b G1 G2}

/-- Accepted proofs are opened by their last witness, without a collision of hashes. -/
theorem Verified.opened (hn : 256 ≤ n) (hshape : params.shape = system.shape)
    (h : Verified c params z_0 non_base) (hone : non_base.u.X.head? = some 1)
    {S : Set (List (List (ZMod n)))} (hinj : Set.InjOn (Circuits.hash c) S)
    (habsorbed : absorbed c params z_0 non_base ∈ S) (hlast : lastAbsorbed system non_base ∈ S) :
    Opened system params z_0 non_base := by
  have hstrict := h.strict
  rw [hshape] at hstrict
  obtain ⟨hdecode, hholds⟩ := system.holds_decode hstrict hone
  have hvalid : (lastInput system non_base).Valid SC := hdecode
  have haccepted := holds_iff.mp hholds
  have heq : absorbed c params z_0 non_base = lastAbsorbed system non_base :=
    hinj habsorbed hlast (h.hash.trans haccepted.hash_input)
  have hbody := value_body c (system.decode non_base.w.W).1 hvalid
  rw [absorbed, lastAbsorbed, hbody] at heq
  simp only [transcript, List.cons.injEq, and_true] at heq
  obtain ⟨hvk, hi, hz_0, hz_i, hU, hU_secondary⟩ := heq
  constructor
  · exact hvalid
  · exact haccepted
  · exact hvk.symm
  · exact hi.symm
  · exact hz_0.symm
  · exact hz_i.symm
  · intro hne
    have hdecide : (!decide ((lastInput system non_base).i = 0)) = true := by
      rw [decide_eq_false hne, Bool.not_false]
    rw [if_neg hne, hdecide, ← hvk] at hU hU_secondary
    have hlen := (hvalid.node.length_fold (c := c) params.digest true).2
    have hnumIo := h.secondary.lengthX.trans c.secondary.numIo
    apply Prod.ext
    · exact (relaxedElements_injective hn hU).symm
    · have hmap := relaxedElementsSecondary_injective hn (hnumIo.trans hlen.symm) hU_secondary
      exact (relaxedMap_injective c.cycle.affine2_injective hmap).symm

/-- The first step starts at `z_0`. -/
theorem Opened.step_zero (h : Opened system params z_0 non_base)
    (hi : (lastInput system non_base).i = 0) :
    SC.Step 0 z_0 non_base.z_i := by
  have hz : (lastInput system non_base).z_0 = (lastInput system non_base).z_i := by
    apply List.ext_getElem (h.valid.z_0.trans h.valid.z_i.symm)
    intro t h₁ h₂
    have hlt : t < ((lastInput system non_base).z_0.zip
        (lastInput system non_base).z_i).length := by
      rw [List.length_zip]
      exact lt_min h₁ h₂
    have hmem := h.accepted.base_z hi _ (List.getElem_mem hlt)
    rwa [List.getElem_zip] at hmem
  have hstep := h.accepted.step
  have hvalue := h.z_i
  rw [hi, ← hz, h.z_0] at hstep hvalue
  refine ⟨?_, _, hstep, hvalue⟩
  rw [← h.z_0]
  exact h.valid.z_0

/-- A later step comes from an accepted proof. -/
theorem Opened.previous (h : Opened system params z_0 non_base)
    (hverified : Verified c params z_0 non_base) (hshape : params.shape = system.shape)
    (hi : (lastInput system non_base).i ≠ 0)
    (hE : E.Succeeds c params (lastInput system non_base).node non_base)
    (hsub : (((non_base.i - 1).toNat : ℕ) : ZMod n) = (lastInput system non_base).i) :
    Verified c params z_0 (previous E system non_base) ∧
      (previous E system non_base).u.X.head? = some 1 ∧
      SC.Step (lastInput system non_base).i (previous E system non_base).z_i non_base.z_i := by
  have hholds : ((lastInput system non_base).node.fold c params.digest true).holds := by
    have hfold := h.accepted.fold
    rwa [decide_eq_false hi, Bool.not_false, h.vk] at hfold
  have hopens := hE hholds (h.fold hi) hverified.primary hverified.secondary
  have hX : (E (lastInput system non_base).node non_base).u.X =
      (lastInput system non_base).node.u.X := congrArg R1CSInstance.X hopens.u
  refine ⟨?_, ?_, h.valid.z_i, _, h.accepted.step, h.z_i⟩
  · constructor
    · show hash c (transcript c params.digest ((non_base.i - 1).toNat : ZMod n) z_0
        (lastInput system non_base).z_i
        (relaxedMap c.cycle.affine1 (E (lastInput system non_base).node non_base).U)
        (lastInput system non_base).node.U_secondary) =
        (E (lastInput system non_base).node non_base).u.X.getD 1 0
      rw [hsub, hopens.U, hX, ← h.vk, ← h.z_0]
      exact h.accepted.hash hi
    · have hlen := hopens.strict.lengthX
      rw [hshape, system.isAugmented.numIo] at hlen
      show 1 < (E (lastInput system non_base).node non_base).u.X.length
      rw [hlen]
      exact Nat.one_lt_two
    · exact hopens.primary
    · exact hopens.secondary
    · exact hopens.strict
  · show (E (lastInput system non_base).node non_base).u.X.head? = some 1
    rw [hX]
    exact h.valid.node.one

/-! ## All steps back and everything that is hashed -/

/-- An accepted proof comes from a run of as many steps. -/
theorem Verified.steps (hn : 256 ≤ n) (hshape : params.shape = system.shape) {m : ℕ}
    (hm : m + 1 < n) (hi : non_base.i.toNat = m + 1) (h : Verified c params z_0 non_base)
    (hone : non_base.u.X.head? = some 1)
    (hinj : Set.InjOn (Circuits.hash c) {x | x ∈ history E system params z_0 (m + 1) non_base})
    (hE : Extracts E system params m non_base) : Steps SC.Step 0 (m + 1) z_0 non_base.z_i := by
  induction m generalizing non_base with
  | zero =>
      have hopened := h.opened hn hshape hone hinj List.mem_cons_self
        (List.mem_cons_of_mem _ List.mem_cons_self)
      have hzero : (lastInput system non_base).i = 0 := by
        have hcast := hopened.i
        rw [hi, zero_add, Nat.cast_one] at hcast
        exact add_eq_right.mp hcast
      exact Steps.single (hopened.step_zero hzero)
  | succ m ih =>
      have hopened := h.opened hn hshape hone hinj List.mem_cons_self
        (List.mem_cons_of_mem _ List.mem_cons_self)
      have hcast : (lastInput system non_base).i = ((m + 1 : ℕ) : ZMod n) := by
        have hnext := hopened.i
        rw [hi, Nat.cast_succ] at hnext
        exact add_right_cancel hnext
      have hne : (lastInput system non_base).i ≠ 0 := by
        rw [hcast, Ne, ZMod.natCast_eq_zero_iff]
        intro hdvd
        have := Nat.le_of_dvd m.succ_pos hdvd
        omega
      have hsub : (non_base.i - 1).toNat = m + 1 := by
        have hle : (1 : UInt64) ≤ non_base.i := by
          rw [UInt64.le_iff_toNat_le, hi]
          exact Nat.succ_le_succ (Nat.zero_le _)
        rw [UInt64.toNat_sub_of_le _ _ hle, hi]
        rfl
      obtain ⟨hverified, hone', hstep⟩ := hopened.previous h hshape hne hE.1 (by rw [hsub, hcast])
      have hsteps := ih (by omega) hsub hverified hone' (hinj.mono fun x hx =>
        List.mem_cons_of_mem _ (List.mem_cons_of_mem _ hx)) hE.2
      rw [hcast, ← zero_add (((m + 1 : ℕ) : ZMod n))] at hstep
      exact hsteps.snoc hstep

end Chain

/-- **Sequential proofs.**  A run of the prover counts its steps and holds the state after them, and
its proof is accepted for this number of steps only.  Conversely an accepted proof holds the state
after the steps that it counts, if its last instance starts with one, if nothing that is hashed for
these steps collides, and if their folds can be extracted. -/
theorem ivc_correct (system : System c SC) (params : PublicParams (ZMod n) PP1 PP2)
    [DecidableEq G1] [DecidableEq G2] (hn : 2 ^ 127 ≤ n) (hb : 2 ^ 127 ≤ b)
    (hshape : params.shape = system.shape) (f : ZMod n → List (ZMod n) → List (ZMod n))
    (hf : SC.Computes f) :
    (∀ z_0, z_0.length = SC.arity → ∀ m, 1 ≤ m → m < 2 ^ 64 →
      ∃ proof, proveSteps system params z_0 m = .ok proof ∧ proof.step_num.toNat = m ∧
        proof.z_i = applyFrom f 0 m z_0 ∧
        ∀ num_steps, verifySteps c params proof num_steps = .ok () ↔ num_steps.toNat = m) ∧
    ∀ (E : Extractor n b G1 G2) (proof : IVCProof n b G1 G2) (num_steps : UInt64),
      verifySteps c params proof num_steps = .ok () →
      1 ≤ num_steps.toNat → num_steps.toNat < n →
      (∀ non_base ∈ proof.non_base, non_base.u.X.head? = some 1 ∧
        Set.InjOn (hash c)
          {x | x ∈ history E system params proof.z_0 num_steps.toNat non_base} ∧
        Extracts E system params (num_steps.toNat - 1) non_base) →
      proof.z_i = applyFrom f 0 num_steps.toNat proof.z_0 := by
  constructor
  · intro z_0 hz m hm hlt
    exact proveSteps_complete system hn hb hf hshape hz hm hlt
  · intro E proof num_steps hverify hpos hlt hall
    obtain ⟨non_base, hsome, rfl, hverified⟩ := (verifySteps_eq_ok params).mp hverify
    obtain ⟨hone, hinj, hE⟩ := hall non_base hsome
    obtain ⟨m, hm⟩ := Nat.exists_eq_succ_of_ne_zero (Nat.one_le_iff_ne_zero.mp hpos)
    rw [hm] at hlt hinj hE ⊢
    have hsteps := hverified.steps (hn.trans' (by norm_num)) hshape hlt hm hone hinj hE
    have hz_i : proof.z_i = non_base.z_i := by
      rw [IVCProof.z_i, hsome]
      rfl
    rw [hz_i]
    exact hf.eq_applyFrom hsteps

section Hashed

variable (system : System c SC) (params : PublicParams (ZMod n) PP1 PP2)

/-- An assignment of the rows with this output. -/
def Assigns (hash_input : ZMod n) (W : List (ZMod n)) : Prop :=
  W.length = system.shape.numVars ∧ RowsHold system.shape ([1, hash_input] ++ W)

/-- What the verifier of a proof absorbs, and what the circuit absorbs on any assignment: for its
output and, where it compares the hash, for its input. -/
def everHashed (z_0 : List (ZMod n)) (non_base : IVCProofNonBase n b G1 G2) :
    Set (List (List (ZMod n))) :=
  {x | x = absorbed c params z_0 non_base ∨ ∃ hash_input W, Assigns system hash_input W ∧
    let v := system.decode W
    x = (body c SC v.1 v.2).value.1 ∨ v.2.i ≠ 0 ∧
      x = transcript c v.2.vk v.2.i v.2.z_0 v.2.z_i v.2.node.U v.2.node.U_secondary}

/-- The extractor succeeds on every fold of the circuit. -/
def ExtractsAll (E : Extractor n b G1 G2) : Prop :=
  ∀ hash_input W non_base, Assigns system hash_input W → (system.decode W).2.i ≠ 0 →
    E.Succeeds c params (system.decode W).2.node non_base

end Hashed

/-! ## Counted steps -/

section Example

open Bn254

variable {SC : StepCircuit (ZMod fr)} {f : ZMod fr → List (ZMod fr) → List (ZMod fr)}

/-- The accumulators of the proof of `m + 1` steps. -/
noncomputable def countAcc : ℕ → CountAcc
  | 0 => .new
  | m + 1 => ((countAcc m).fold (m + 1)).next

/-- The input of the circuit after `m` steps. -/
noncomputable def countInput (f : ZMod fr → List (ZMod fr) → List (ZMod fr))
    (z_0 : List (ZMod fr)) : ℕ → InputVar fr fq (ZMod fq)
  | 0 => allocBase countSetting 7 z_0
  | m + 1 => ⟨7, (m + 1 : ℕ), z_0, applyFrom f 0 (m + 1) z_0, ((countAcc m).fold (m + 1)).node⟩

/-- What is absorbed after `m + 1` steps. -/
noncomputable def countTranscript (f : ZMod fr → List (ZMod fr) → List (ZMod fr))
    (z_0 : List (ZMod fr)) (m : ℕ) : List (List (ZMod fr)) :=
  transcript countSetting 7 (m + 1 : ℕ) z_0 (applyFrom f 0 (m + 1) z_0)
    (relaxedMap countSetting.cycle.affine1 (countAcc m).U) (countAcc m).U_secondary

variable {z_0 : List (ZMod fr)}

theorem valid_countInput (hf : SC.Computes f) (hz : z_0.length = SC.arity) (m : ℕ) :
    (countInput f z_0 m).Valid SC := by
  cases m with
  | zero => exact valid_allocBase hz
  | succ m => exact ⟨hz, hf.length_applyFrom 0 (m + 1) hz,
      ((countAcc m).fold (m + 1)).allocated.valid⟩

theorem i_countInput (z_0 : List (ZMod fr)) (m : ℕ) : (countInput f z_0 m).i = (m : ZMod fr) := by
  cases m with
  | zero => exact Nat.cast_zero.symm
  | succ m => rfl

variable {m : ℕ}

/-- What the circuit absorbs for its output. -/
theorem body_countInput (hf : SC.Computes f) (hz : z_0.length = SC.arity) (hm : m < fr) :
    (body countSetting SC (SC.hint (countInput f z_0 m).i (countInput f z_0 m).z_i)
      (countInput f z_0 m)).value.1 = countTranscript f z_0 m := by
  have hvalid := valid_countInput hf hz m
  cases m with
  | zero =>
      rw [value_body_zero hvalid rfl, hf.value_hint _ hvalid.z_i]
      show transcript countSetting 7 (0 + 1) z_0 (f 0 z_0) _ _ = transcript countSetting 7
        ((0 + 1 : ℕ) : ZMod fr) z_0 (f (0 + ((0 : ℕ) : ZMod fr)) z_0) _ _
      rw [Nat.cast_succ, Nat.cast_zero, add_zero]
      rfl
  | succ m =>
      have hne : (countInput f z_0 (m + 1)).i ≠ 0 := cast_ne_zero hm
      have hfold : (countInput f z_0 (m + 1)).node.fold countSetting 7 true =
          ⟨(relaxedMap countSetting.cycle.affine1 (countAcc (m + 1)).U,
            (countAcc (m + 1)).U_secondary), True⟩ :=
        ((countAcc m).fold (m + 1)).allocated.fold true
      rw [value_body_fold hvalid hne, hf.value_hint _ hvalid.z_i]
      show transcript countSetting 7 (((m + 1 : ℕ) : ZMod fr) + 1) z_0 _
        ((countInput f z_0 (m + 1)).node.fold countSetting 7 true).value.1
        ((countInput f z_0 (m + 1)).node.fold countSetting 7 true).value.2 = _
      rw [hfold, ← Nat.cast_succ]
      show transcript countSetting 7 ((m + 1 + 1 : ℕ) : ZMod fr) z_0
        (f ((m + 1 : ℕ) : ZMod fr) (applyFrom f 0 (m + 1) z_0)) _ _ =
        transcript countSetting 7 ((m + 1 + 1 : ℕ) : ZMod fr) z_0
          (f (0 + ((m + 1 : ℕ) : ZMod fr)) (applyFrom f 0 (m + 1) z_0)) _ _
      rw [zero_add]

theorem accepted_countInput (hf : SC.Computes f) (hz : z_0.length = SC.arity) (hm : m < fr) :
    Accepted countSetting SC (SC.hint (countInput f z_0 m).i (countInput f z_0 m).z_i)
      (countInput f z_0 m) (m + 1 : ℕ) := by
  have hhash : ((m + 1 : ℕ) : ZMod fr) = hash countSetting (body countSetting SC
      (SC.hint (countInput f z_0 m).i (countInput f z_0 m).z_i) (countInput f z_0 m)).value.1 := by
    rw [body_countInput hf hz hm]
    rfl
  cases m with
  | zero => exact accepted_allocBase hf hz hhash
  | succ m =>
      have hallocated := ((countAcc m).fold (m + 1)).allocated
      constructor
      · intro hi
        exact absurd hi (cast_ne_zero hm)
      · exact hf.holds _ _ (valid_countInput hf hz (m + 1)).z_i
      · intro _
        show ((m + 1 : ℕ) : ZMod fr) = ((countAcc m).fold (m + 1)).node.u.X.getD 1 0
        rw [hallocated.u]
        rfl
      · show (((countAcc m).fold (m + 1)).node.fold countSetting 7 _).holds
        rw [hallocated.fold]
        trivial
      · exact hhash

/-- Two rows for a step circuit: each output is that of the input that the prover would have
reached by then. -/
noncomputable def countSystem (hf : SC.Computes f) (z_0 : List (ZMod fr))
    (hz : z_0.length = SC.arity) : System countSetting SC :=
  outcomeArithmetization (fun v => hash countSetting (body countSetting _ v.1 v.2).value.1)
    (fun x => (SC.hint (countInput f z_0 (x - 1).val).i (countInput f z_0 (x - 1).val).z_i,
      countInput f z_0 (x - 1).val))
    (fun _ _ h => (holds_iff.mp h).hash_input)
    (fun x => ⟨valid_countInput hf hz _, holds_iff.mpr (by
      have haccepted := accepted_countInput hf hz (ZMod.val_lt (x - 1))
      rwa [Nat.cast_succ, ZMod.natCast_zmod_val, sub_add_cancel] at haccepted)⟩)

/-- The proof of `m + 1` steps with this counter. -/
noncomputable def countNonBase (f : ZMod fr → List (ZMod fr) → List (ZMod fr))
    (z_0 : List (ZMod fr)) (m : ℕ) (i : UInt64) : IVCProofNonBase fr fq (ZMod fr) (ZMod fq) where
  U := (countAcc m).U
  W := (countAcc m).W
  U_secondary := (countAcc m).U_secondary
  W_secondary := (countAcc m).W_secondary
  u := (countStrict (m + 1)).1
  w := (countStrict (m + 1)).2
  i := i
  z_i := applyFrom f 0 (m + 1) z_0

theorem absorbed_countNonBase {i : UInt64} (hi : (i.toNat : ZMod fr) = (m + 1 : ℕ)) :
    absorbed countSetting sumParams z_0 (countNonBase f z_0 m i) = countTranscript f z_0 m := by
  rw [absorbed]
  show transcript countSetting 7 (i.toNat : ZMod fr) _ _ _ _ = _
  rw [hi]
  rfl

/-- It is accepted. -/
theorem verifySteps_count {i : UInt64} (hi : (i.toNat : ZMod fr) = (m + 1 : ℕ)) :
    verifySteps countSetting sumParams ⟨z_0, some (countNonBase f z_0 m i)⟩ i = .ok () := by
  apply (verifySteps_eq_ok sumParams).mpr
  refine ⟨_, rfl, rfl, ?_⟩
  constructor
  · exact hi
  · exact Nat.one_lt_two
  · exact (countAcc m).primary
  · exact (countAcc m).secondary
  · exact satisfied_countStrict (m + 1)

/-- The extractor that reads the number of steps in the instance, and finds the pairs of the
prover. -/
noncomputable def countExtractor : Extractor fr fq (ZMod fr) (ZMod fq) := fun node _ =>
  let m := (node.u.X.getD 1 0 - 1).val
  ⟨(countAcc m).U, (countAcc m).W, (countAcc m).W_secondary, (countStrict (m + 1)).1,
    (countStrict (m + 1)).2⟩

theorem countExtractor_node (hm : m < fr) (non_base : IVCProofNonBase fr fq (ZMod fr) (ZMod fq)) :
    countExtractor ((countAcc m).fold (m + 1)).node non_base =
      ⟨(countAcc m).U, (countAcc m).W, (countAcc m).W_secondary, (countStrict (m + 1)).1,
        (countStrict (m + 1)).2⟩ := by
  have hread : (((countAcc m).fold (m + 1)).node.u.X.getD 1 0 - 1).val = m := by
    rw [((countAcc m).fold (m + 1)).allocated.u]
    exact val_pred hm
  rw [countExtractor, hread]

theorem succeeds_countExtractor (hm : m < fr) (non_base : IVCProofNonBase fr fq (ZMod fr) (ZMod fq)) :
    countExtractor.Succeeds countSetting sumParams ((countAcc m).fold (m + 1)).node non_base := by
  intro _ _ _ _
  rw [countExtractor_node hm]
  have hallocated := ((countAcc m).fold (m + 1)).allocated
  constructor
  · exact hallocated.U.symm
  · exact hallocated.u.symm
  · exact (countAcc m).primary
  · rw [hallocated.U_secondary]
    exact (countAcc m).secondary
  · exact satisfied_countStrict (m + 1)

section Proofs

variable (hf : SC.Computes f) {z_0 : List (ZMod fr)} (hz : z_0.length = SC.arity)

variable {m : ℕ}

theorem lastInput_count (hm : m < fr) (i : UInt64) :
    lastInput (countSystem hf z_0 hz) (countNonBase f z_0 m i) = countInput f z_0 m := by
  show countInput f z_0 (((m + 1 : ℕ) : ZMod fr) - 1).val = _
  rw [val_pred hm]

theorem lastAbsorbed_count (hm : m < fr) (i : UInt64) :
    lastAbsorbed (countSystem hf z_0 hz) (countNonBase f z_0 m i) = countTranscript f z_0 m := by
  show (body countSetting SC (SC.hint (countInput f z_0 (((m + 1 : ℕ) : ZMod fr) - 1).val).i
    (countInput f z_0 (((m + 1 : ℕ) : ZMod fr) - 1).val).z_i)
    (countInput f z_0 (((m + 1 : ℕ) : ZMod fr) - 1).val)).value.1 = _
  rw [val_pred hm, body_countInput hf hz hm]

/-- The extractor finds the proof of one step less. -/
theorem previous_count (hm : m + 1 < fr) (i : UInt64) :
    previous countExtractor (countSystem hf z_0 hz) (countNonBase f z_0 (m + 1) i) =
      countNonBase f z_0 m (i - 1) := by
  rw [previous, lastInput_count hf hz hm]
  have hnode : (countInput f z_0 (m + 1)).node = ((countAcc m).fold (m + 1)).node := rfl
  rw [hnode, countExtractor_node (Nat.lt_of_succ_lt hm),
    ((countAcc m).fold (m + 1)).allocated.U_secondary]
  rfl

variable {i : UInt64}

theorem toNat_sub_one (hi : i.toNat = m + 2) : (i - 1).toNat = m + 1 := by
  have hle : (1 : UInt64) ≤ i := by
    rw [UInt64.le_iff_toNat_le, hi]
    exact Nat.succ_le_succ (Nat.zero_le _)
  rw [UInt64.toNat_sub_of_le _ _ hle, hi]
  rfl

/-- The folds of all steps but the first are extracted. -/
theorem extracts_count (hm : m < fr) :
    Extracts countExtractor (countSystem hf z_0 hz) sumParams m (countNonBase f z_0 m i) := by
  induction m generalizing i with
  | zero => trivial
  | succ m ih =>
      refine ⟨?_, ?_⟩
      · rw [lastInput_count hf hz hm]
        exact succeeds_countExtractor (Nat.lt_of_succ_lt hm) _
      · rw [previous_count hf hz hm]
        exact ih (Nat.lt_of_succ_lt hm)

/-- What is hashed for the steps of a proof. -/
theorem history_count (hm : m < fr) (hi : i.toNat = m + 1) :
    ∀ x ∈ history countExtractor (countSystem hf z_0 hz) sumParams z_0 (m + 1) (countNonBase f z_0 m i),
      ∃ k < fr, x = countTranscript f z_0 k := by
  induction m generalizing i with
  | zero =>
      intro x hx
      refine ⟨0, hm, ?_⟩
      rw [history, absorbed_countNonBase (by rw [hi]), lastAbsorbed_count hf hz hm, history] at hx
      simpa using hx
  | succ m ih =>
      intro x hx
      rw [history, absorbed_countNonBase (by rw [hi]), lastAbsorbed_count hf hz hm,
        previous_count hf hz hm] at hx
      rcases List.mem_cons.mp hx with rfl | hx
      · exact ⟨m + 1, hm, rfl⟩
      · rcases List.mem_cons.mp hx with rfl | hx
        · exact ⟨m + 1, hm, rfl⟩
        · exact ih (Nat.lt_of_succ_lt hm) (toNat_sub_one hi) x hx

/-- The number of steps determines what is hashed after them. -/
theorem injOn_countTranscript :
    Set.InjOn (hash countSetting) {x | ∃ k < fr, x = countTranscript f z_0 k} := by
  rintro x ⟨k, hk, rfl⟩ y ⟨k', hk', rfl⟩ h
  have hcast : ((k + 1 : ℕ) : ZMod fr) = (k' + 1 : ℕ) := h
  rw [← val_pred hk, ← val_pred hk', hcast]

/-- Nothing else is hashed at all, also by a verifier of no step, as the index `0` comes after the
last element of the field. -/
theorem everHashed_count (hm : m < fr) (hi : (i.toNat : ZMod fr) = (m + 1 : ℕ)) :
    ∀ x ∈ everHashed (countSystem hf z_0 hz) sumParams z_0 (countNonBase f z_0 m i),
      ∃ k < fr, x = countTranscript f z_0 k := by
  rintro x (rfl | ⟨hash_input, W, -, rfl | ⟨hne, rfl⟩⟩)
  · exact ⟨m, hm, absorbed_countNonBase hi⟩
  · exact ⟨_, ZMod.val_lt (W.getD 1 0 - 1), body_countInput hf hz (ZMod.val_lt _)⟩
  · change (countInput f z_0 (W.getD 1 0 - 1).val).i ≠ 0 at hne
    show ∃ k < fr, transcript countSetting (countInput f z_0 (W.getD 1 0 - 1).val).vk
      (countInput f z_0 (W.getD 1 0 - 1).val).i (countInput f z_0 (W.getD 1 0 - 1).val).z_0
      (countInput f z_0 (W.getD 1 0 - 1).val).z_i (countInput f z_0 (W.getD 1 0 - 1).val).node.U
      (countInput f z_0 (W.getD 1 0 - 1).val).node.U_secondary = _
    have hlt := ZMod.val_lt (W.getD 1 0 - 1)
    generalize (W.getD 1 0 - 1).val = k at hne hlt
    cases k with
    | zero => exact absurd rfl hne
    | succ k =>
        refine ⟨k, Nat.lt_of_succ_lt hlt, ?_⟩
        have hallocated := ((countAcc k).fold (k + 1)).allocated
        show transcript countSetting 7 ((k + 1 : ℕ) : ZMod fr) z_0 _
          ((countAcc k).fold (k + 1)).node.U ((countAcc k).fold (k + 1)).node.U_secondary = _
        rw [hallocated.U, hallocated.U_secondary]
        rfl

/-- The prover makes these proofs. -/
theorem proveSteps_count (hm : m + 1 < 2 ^ 64) :
    ∃ i : UInt64, i.toNat = m + 1 ∧ proveSteps (countSystem hf z_0 hz) sumParams z_0 (m + 1) =
      .ok ⟨z_0, some (countNonBase f z_0 m i)⟩ := by
  have hfr : 2 ^ 64 ≤ fr := by norm_num [fr]
  -- the synthesis on an input of the run has the strict pair of the next proof
  have hout : ∀ k < fr, synthesize (countSystem hf z_0 hz) sumParams (countInput f z_0 k) =
      ((countStrict (k + 1)).1, (countStrict (k + 1)).2, applyFrom f 0 (k + 1) z_0) := by
    intro k hk
    have hhash : hash countSetting (body countSetting SC
        (SC.hint (countInput f z_0 k).i (countInput f z_0 k).z_i) (countInput f z_0 k)).value.1 =
        (k + 1 : ℕ) := by
      rw [body_countInput hf hz hk]
      rfl
    have hholds := holds_iff.mpr (accepted_countInput hf hz hk)
    have hW : (countSystem hf z_0 hz).witness (SC.hint (countInput f z_0 k).i
        (countInput f z_0 k).z_i, countInput f z_0 k) = [0, ((k + 1 : ℕ) : ZMod fr)] := by
      rw [countSystem, outcomeArithmetization]
      dsimp only
      rw [hhash, if_pos hholds]
    have hz_i := hf.value_hint (countInput f z_0 k).i (valid_countInput hf hz k).z_i
    rw [synthesize, hW, hhash, value_generateConstraints, hz_i, i_countInput]
    refine Prod.ext rfl (Prod.ext rfl ?_)
    cases k with
    | zero =>
        show f ((0 : ℕ) : ZMod fr) z_0 = f (0 + ((0 : ℕ) : ZMod fr)) z_0
        rw [zero_add]
    | succ k =>
        show f ((k + 1 : ℕ) : ZMod fr) _ = f (0 + ((k + 1 : ℕ) : ZMod fr)) _
        rw [zero_add]
        rfl
  induction m with
  | zero =>
      refine ⟨1, rfl, ?_⟩
      have hzero := hout 0 (by norm_num [fr])
      show (Except.ok ⟨z_0, some
        { U := newInstance (outcomeRows (ZMod fr))
          W := zeroWitness (outcomeRows (ZMod fr))
          U_secondary := newInstance countSetting.secondary.shape
          W_secondary := zeroWitness countSetting.secondary.shape
          u := (synthesize (countSystem hf z_0 hz) sumParams (countInput f z_0 0)).1
          w := (synthesize (countSystem hf z_0 hz) sumParams (countInput f z_0 0)).2.1
          i := 1
          z_i := (synthesize (countSystem hf z_0 hz) sumParams (countInput f z_0 0)).2.2 }⟩ :
        Run Cyclefold.Error (IVCProof fr fq (ZMod fr) (ZMod fq))) = _
      rw [hzero]
      rfl
  | succ m ih =>
      obtain ⟨i, hi, hrun⟩ := ih (by omega)
      have hsucc : (saturatingSucc i).toNat = m + 1 + 1 := by
        rw [saturatingSucc_toNat, hi]
        omega
      refine ⟨saturatingSucc i, hsucc, ?_⟩
      have hstep := hout (m + 1) (by omega)
      rw [proveSteps, hrun]
      let prepared : Prepared fr fq (ZMod fr) (ZMod fq) :=
        ⟨saturatingSucc i, countInput f z_0 (m + 1), (countAcc (m + 1)).U,
          (countAcc (m + 1)).W, (countAcc (m + 1)).U_secondary, (countAcc (m + 1)).W_secondary⟩
      have hprepare : prepare countSetting sumParams ⟨z_0, some (countNonBase f z_0 m i)⟩ =
          .ok prepared := by
        refine bind_eq_ok.mpr ⟨_, ((countAcc m).fold (m + 1)).prove,
          bind_eq_ok.mpr ⟨_, ((countAcc m).fold (m + 1)).alloc, ?_⟩⟩
        show (Except.ok ⟨saturatingSucc i, ⟨7, (i.toNat : ZMod fr), z_0, _, _⟩, _, _, _, _⟩ :
          Run Cyclefold.Error (Prepared fr fq (ZMod fr) (ZMod fq))) = _
        rw [hi]
        rfl
      show proveStep (countSystem hf z_0 hz) sumParams ⟨z_0, some (countNonBase f z_0 m i)⟩ = _
      refine bind_eq_ok.mpr ⟨prepared, hprepare, ?_⟩
      show (Except.ok ⟨z_0, some ⟨_, _, _, _,
        (synthesize (countSystem hf z_0 hz) sumParams (countInput f z_0 (m + 1))).1,
        (synthesize (countSystem hf z_0 hz) sumParams (countInput f z_0 (m + 1))).2.1, _,
        (synthesize (countSystem hf z_0 hz) sumParams (countInput f z_0 (m + 1))).2.2⟩⟩ :
        Run Cyclefold.Error (IVCProof fr fq (ZMod fr) (ZMod fq))) = _
      rw [hstep]
      rfl

end Proofs

/-- The step circuit that replaces its number by one. -/
def oneStep : StepCircuit (ZMod fr) where
  arity := 1
  Aux := Unit
  hint _ _ := ()
  generateConstraints _ _ _ := ⟨[1], True⟩
  length_value _ _ _ _ := rfl

theorem oneStep_computes : oneStep.Computes fun _ _ => [1] where
  holds _ _ _ := trivial
  value _ _ _ _ _ := rfl

/-- Three steps of the prover from `0`, which add the numbers of the steps: two of them fold, with a
challenge that is not zero, and the proof is accepted and extracted back to the first. -/
theorem ivc_correct_sum : ∃ proof,
    proveSteps (countSystem (addIndex_computes (ZMod fr) 1) [0] rfl) sumParams [0] 3 =
      .ok proof ∧ proof.step_num.toNat = 3 ∧
      verifySteps countSetting sumParams proof 3 = .ok () ∧
      proof.z_i = applyFrom (fun i z => z.map (· + i)) 0 3 [0] := by
  have hcorrect := ivc_correct (countSystem (addIndex_computes (ZMod fr) 1) [0] rfl)
    sumParams (by norm_num [fr]) (by norm_num [fq]) rfl _ (addIndex_computes (ZMod fr) 1)
  obtain ⟨proof, hrun, hstep_num, -, hverify⟩ :=
    hcorrect.1 [0] rfl 3 (by norm_num) (by norm_num)
  have haccepted := (hverify 3).mpr rfl
  refine ⟨proof, hrun, hstep_num, haccepted, ?_⟩
  have hthree : 2 < fr := by norm_num [fr]
  obtain ⟨i, hi, hcount⟩ := proveSteps_count (addIndex_computes (ZMod fr) 1)
    (show ([0] : List (ZMod fr)).length = 1 from rfl) (show 2 + 1 < 2 ^ 64 by norm_num)
  obtain rfl := Except.ok.inj (hrun.symm.trans hcount)
  have hsteps : (3 : UInt64).toNat = 3 := rfl
  refine hcorrect.2 countExtractor _ 3 haccepted (by omega) (by rw [hsteps]; norm_num [fr]) ?_
  rintro non_base ⟨⟩
  refine ⟨rfl, ?_, extracts_count _ _ hthree⟩
  exact injOn_countTranscript.mono (history_count _ _ hthree hi)

/-- **Limits of the counter.**  It saturates: the proof of `2 ^ 64` steps counts one less.  And a
proof of no step can be accepted without any having been forged: after the last element of the field
the circuit reaches the index zero, nothing that it or the verifier ever hashes collides, every fold
is extracted, and the state is not `z_0`. -/
theorem ivc_limits :
    (∃ proof, proveSteps (countSystem (addIndex_computes (ZMod fr) 1) [0] rfl) sumParams
      [0] (2 ^ 64) = .ok proof ∧ proof.step_num.toNat ≠ 2 ^ 64) ∧
    ∃ (system : System countSetting oneStep) (E : Extractor fr fq (ZMod fr) (ZMod fq))
      (proof : IVCProof fr fq (ZMod fr) (ZMod fq)), system.shape = sumParams.shape ∧
      verifySteps countSetting sumParams proof 0 = .ok () ∧ ExtractsAll system sumParams E ∧
      (∀ non_base ∈ proof.non_base, non_base.u.X.head? = some 1 ∧
        Set.InjOn (hash countSetting) (everHashed system sumParams proof.z_0 non_base)) ∧
      proof.z_i ≠ applyFrom (fun _ _ => [1]) 0 0 proof.z_0 := by
  constructor
  · have hz : ([0] : List (ZMod fr)).length = (addIndex (ZMod fr) 1).arity := rfl
    have hshape : sumParams.shape =
        (countSystem (addIndex_computes (ZMod fr) 1) [0] hz).shape := rfl
    obtain ⟨proof, hrun, hstep_num⟩ := proveSteps_saturated _ (by norm_num [fr])
      (by norm_num [fq]) (addIndex_computes (ZMod fr) 1) hshape hz
    refine ⟨proof, hrun, ?_⟩
    rw [hstep_num]
    norm_num
  · have hlt : fr - 1 < fr := Nat.sub_one_lt (Nat.Prime.ne_zero Fact.out)
    have hzero : (((0 : UInt64).toNat : ℕ) : ZMod fr) = (fr - 1 + 1 : ℕ) := by
      rw [Nat.sub_add_cancel (by norm_num [fr]), ZMod.natCast_self, UInt64.toNat_zero,
        Nat.cast_zero]
    refine ⟨countSystem oneStep_computes [0] rfl, countExtractor,
      ⟨[0], some (countNonBase (fun _ _ => [1]) [0] (fr - 1) 0)⟩, rfl, verifySteps_count hzero, ?_,
      ?_, ?_⟩
    · intro hash_input W non_base _ hne
      change (countInput (fun _ _ => [1]) [0] (W.getD 1 0 - 1).val).i ≠ 0 at hne
      show countExtractor.Succeeds countSetting sumParams
        (countInput (fun _ _ => [1]) [0] (W.getD 1 0 - 1).val).node non_base
      have hval := ZMod.val_lt (W.getD 1 0 - 1)
      generalize (W.getD 1 0 - 1).val = k at hne hval
      cases k with
      | zero => exact absurd rfl hne
      | succ k => exact succeeds_countExtractor (Nat.lt_of_succ_lt hval) non_base
    · rintro non_base ⟨⟩
      exact ⟨rfl, injOn_countTranscript.mono
        (everHashed_count oneStep_computes rfl hlt hzero)⟩
    · intro h
      have hone : ([1] : List (ZMod fr)) = [0] := h
      exact one_ne_zero (List.head_eq_of_cons_eq hone)

end Example

end NexusVm.Nova.Circuits.Sequential
