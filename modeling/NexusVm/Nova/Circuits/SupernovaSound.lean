import NexusVm.Nova.Circuits.Fold
import NexusVm.Nova.Circuits.SupernovaProof
import NexusVm.Nova.Circuits.SupernovaSelector

/-!
# Runs of augmented non-uniform circuits

A satisfied instance is checked against the shape of one circuit.  Which one it was is hashed into
the instance and read by the next step, which folds the instance into the accumulator of that
circuit.

A run is a sequence of instances, each of which satisfies the shape that is hashed into it; that the
accumulators open is not needed.  The hash must be injective on what the run hashes.  Nothing is
claimed about a prover who knows folded pairs only.  Two circuits that take turns, with instances
that are folded, show that the assumptions hold together.
-/

namespace NexusVm.Nova.Circuits.Supernova

open R1cs Cyclefold Synth

/-- The constraints determine functions: `compute_selector` and `F_0, ..., F_{l - 1}`. -/
structure NonUniformCircuit.Determines {F : Type} (SC : NonUniformCircuit F) (phi : F → List F → F)
    (f : ℕ → F → List F → List F) : Prop where
  selector : ∀ aux i z, z.length = SC.arity → (SC.computeSelector aux i z).holds →
    (SC.computeSelector aux i z).value = phi i z
  step : ∀ aux pc i z, pc < SC.numCircuits → z.length = SC.arity →
    (SC.generateConstraints aux pc i z).holds → (SC.generateConstraints aux pc i z).value = f pc i z

/-- Apply `F_{pc_t}` to `(t, z_t)` for `t = 0, 1, ...`, where `pc_t` is the selector of
`(t, z_t)`. -/
def states {n : ℕ} (phi : ZMod n → List (ZMod n) → ZMod n)
    (f : ℕ → ZMod n → List (ZMod n) → List (ZMod n)) (z_0 : List (ZMod n)) : ℕ → List (ZMod n)
  | 0 => z_0
  | t + 1 => f (phi t (states phi f z_0 t)).val t (states phi f z_0 t)

section Runs

variable {n b : ℕ} {G1 G2 PP1 PP2 : Type} [Fact n.Prime] [Fact b.Prime] [AddCommGroup G1]
  [Module (ZMod n) G1] [AddCommGroup G2] [Module (ZMod b) G2]

/-- The augmented circuit that runs `F_{pc_value}`, with its shape. -/
abbrev System (c : Setting n b G1 G2 PP1 PP2) (SC : NonUniformCircuit (ZMod n)) (pc_value : ℕ) :
    Type :=
  Arithmetization (ZMod n) (SC.Aux × InputVar n b G2) (fun v => v.2.Valid SC)
    (fun v hash_input => (generateConstraints c SC v.1 pc_value v.2 hash_input).holds)

/-- A strict instance with its assignment, and the number of the shape that it is checked
against. -/
structure Instance (n : ℕ) (G1 : Type) (numCircuits : ℕ) where
  pc : Fin numCircuits
  u : R1CSInstance (ZMod n) G1
  w : R1CSWitness (ZMod n)

/-- What is hashed into an instance: the next step, or the verifier for the last one, reads it back
and has to get the same. -/
structure Opening (n b : ℕ) (G2 : Type) where
  vk : ZMod n
  i : ZMod n
  pc : ZMod n
  z_0 : List (ZMod n)
  z_i : List (ZMod n)
  U : List (RelaxedPrimaryVar n b)
  U_secondary : List (RelaxedSecondaryVar b G2)

/-- The next step reads it from its input. -/
def InputVar.opening (input : InputVar n b G2) : Opening n b G2 :=
  ⟨input.vk, input.i, input.pc, input.z_0, input.z_i, input.U, input.U_secondary⟩

def Opening.absorbed (c : Setting n b G1 G2 PP1 PP2) (opening : Opening n b G2) :
    List (List (ZMod n)) :=
  transcript c opening.vk opening.i opening.pc opening.z_0 opening.z_i opening.U
    opening.U_secondary

/-- One accumulator of each kind for each circuit. -/
structure Opening.Sized (numCircuits : ℕ) (opening : Opening n b G2) : Prop where
  lengthU : opening.U.length = numCircuits
  lengthU_secondary : opening.U_secondary.length = numCircuits
  U : ∀ U ∈ opening.U, U.X.length = augmentedCircuitNumIo
  U_secondary : ∀ U ∈ opening.U_secondary, U.X.length = secondaryNumIo

omit [Fact n.Prime] [Fact b.Prime] [AddCommGroup G2] [Module (ZMod b) G2] in
theorem InputVar.Valid.sized {SC : NonUniformCircuit (ZMod n)} {input : InputVar n b G2}
    (h : input.Valid SC) : input.opening.Sized SC.numCircuits :=
  ⟨h.lengthU, h.lengthU_secondary, h.U, h.U_secondary⟩

variable {c : Setting n b G1 G2 PP1 PP2} {SC : NonUniformCircuit (ZMod n)}
  (systems : (pc : Fin SC.numCircuits) → System c SC pc) (params : PublicParams (ZMod n) PP1 PP2)
  (run : ℕ → Instance n G1 SC.numCircuits) (final : Opening n b G2) (T : ℕ)

/-- What the assignment of step `t` gives to the variables of its step circuit. -/
def aux (t : ℕ) : SC.Aux := ((systems (run t).pc).decode (run t).w.W).1

/-- Its input. -/
def input (t : ℕ) : InputVar n b G2 := ((systems (run t).pc).decode (run t).w.W).2

/-- What the instance of step `t` is opened to: by the next step, or by the verifier. -/
def opening (t : ℕ) : Opening n b G2 := if t < T then (input systems run (t + 1)).opening else final

/-- What the circuit of step `t` absorbs for its output. -/
def output (t : ℕ) : List (List (ZMod n)) :=
  (body c SC (aux systems run t) (run t).pc (input systems run t)).value.1

/-- Steps `0` to `T` that start with a base case.  Each instance satisfies the shape with the number
that is hashed into it, and each but the last is folded by the next step. -/
structure IsRun : Prop where
  satisfied : ∀ t ≤ T, ∃ shape, params.shapes[((run t).pc : ℕ)]? = some shape ∧
    Satisfied c.C1 shape (run t).u (run t).w params.pp
  one : ∀ t ≤ T, (run t).u.X.head? = some 1
  base : (input systems run 0).i = 0
  folded : ∀ t < T, (input systems run (t + 1)).u = strictMap c.cycle.affine1 (run t).u ∧
    (input systems run (t + 1)).i ≠ 0
  numbered : ∀ t ≤ T, (opening systems run final T t).pc = ((run t).pc : ℕ)
  final_hash : hash c (final.absorbed c) = (run T).u.X.getD 1 0
  final_sized : final.Sized SC.numCircuits

/-- **What a run does**: each step runs the circuit that the selector chooses, the last output is
the last state, and a step changes no accumulator but the one of the circuit before. -/
structure Selects (phi : ZMod n → List (ZMod n) → ZMod n)
    (f : ℕ → ZMod n → List (ZMod n) → List (ZMod n)) : Prop where
  selected : ∀ t ≤ T, (((run t).pc : ℕ) : ZMod n) = phi t (states phi f final.z_0 t)
  last : final.i = (T + 1 : ℕ) ∧ final.z_i = states phi f final.z_0 (T + 1)
  carried : ∀ t < T, ∀ j ≠ ((run t).pc : ℕ),
    (opening systems run final T (t + 1)).U[j]? = (opening systems run final T t).U[j]? ∧
      (opening systems run final T (t + 1)).U_secondary[j]? =
        (opening systems run final T t).U_secondary[j]?

variable {systems params run final T}

variable {t : ℕ}

theorem opening_of_lt (h : t < T) :
    opening systems run final T t = (input systems run (t + 1)).opening := if_pos h

theorem opening_last : opening systems run final T T = final := if_neg (lt_irrefl T)

/-- The values of a satisfied instance fulfill the constraints. -/
theorem IsRun.accepted (h : IsRun systems params run final T)
    (hshapes : ∀ pc : Fin SC.numCircuits, params.shapes[(pc : ℕ)]? = some (systems pc).shape)
    (ht : t ≤ T) : (input systems run t).Valid SC ∧
      Accepted c SC (aux systems run t) (run t).pc (input systems run t)
        ((run t).u.X.getD 1 0) := by
  obtain ⟨shape, hshape, hsatisfied⟩ := h.satisfied t ht
  rw [hshapes, Option.some.injEq] at hshape
  subst hshape
  obtain ⟨hvalid, hholds⟩ := (systems (run t).pc).holds_decode hsatisfied (h.one t ht)
  exact ⟨hvalid, holds_iff.mp hholds⟩

/-- The hash in an instance is that of its opening. -/
theorem IsRun.hash_opening (h : IsRun systems params run final T)
    (hshapes : ∀ pc : Fin SC.numCircuits, params.shapes[(pc : ℕ)]? = some (systems pc).shape)
    (ht : t ≤ T) : (opening systems run final T t).Sized SC.numCircuits ∧
      hash c ((opening systems run final T t).absorbed c) = (run t).u.X.getD 1 0 := by
  rcases ht.lt_or_eq with hlt | rfl
  · obtain ⟨hvalid, haccepted⟩ := h.accepted hshapes hlt
    obtain ⟨hu, hi⟩ := h.folded t hlt
    rw [opening_of_lt hlt]
    refine ⟨hvalid.sized, (haccepted.hash hi).trans ?_⟩
    rw [hu]
    rfl
  · rw [opening_last]
    exact ⟨h.final_sized, h.final_hash⟩

variable (systems run) in
/-- An opening has what the circuit of step `t` absorbs for its output. -/
structure Produces (t : ℕ) (next : Opening n b G2) : Prop where
  i : next.i = (input systems run t).i + 1
  pc : next.pc = (SC.computeSelector (aux systems run t) (input systems run t).i
    (input systems run t).z_i).value
  z_0 : next.z_0 = (input systems run t).z_0
  z_i : next.z_i = (SC.generateConstraints (aux systems run t) (run t).pc (input systems run t).i
    (input systems run t).z_i).value
  U : (input systems run t).i ≠ 0 → next.U = insert (input systems run t).bits
    (input systems run t).U ((input systems run t).fold c true).value.1
  U_secondary : (input systems run t).i ≠ 0 → next.U_secondary =
    insert (input systems run t).bits (input systems run t).U_secondary
      ((input systems run t).fold c true).value.2

/-- Without collisions an instance is opened to what its circuit has absorbed. -/
theorem IsRun.produces (h : IsRun systems params run final T) (hn : 256 ≤ n)
    (hshapes : ∀ pc : Fin SC.numCircuits, params.shapes[(pc : ℕ)]? = some (systems pc).shape)
    (ht : t ≤ T)
    (hinj : Set.InjOn (hash c) {(opening systems run final T t).absorbed c, output systems run t}) :
    Produces systems run t (opening systems run final T t) := by
  obtain ⟨hvalid, haccepted⟩ := h.accepted hshapes ht
  obtain ⟨hsized, hhash⟩ := h.hash_opening hshapes ht
  have hequal : (opening systems run final T t).absorbed c = output systems run t :=
    hinj (Or.inl rfl) (Or.inr rfl) (hhash.trans haccepted.hash_input)
  by_cases hi : (input systems run t).i = 0
  · have hbody := value_body_zero c (aux systems run t) (run t).pc hvalid hi
    obtain ⟨-, hi', hpc, hz_0, hz_i, -, -⟩ := transcript_injective hn
      (hsized.lengthU.trans List.length_replicate.symm)
      (hsized.lengthU_secondary.trans List.length_replicate.symm) hsized.U
      (fun V hV => by rw [List.eq_of_mem_replicate hV]; exact List.length_replicate)
      hsized.U_secondary
      (fun V hV => by rw [List.eq_of_mem_replicate hV]; exact List.length_replicate)
      (hequal.trans hbody)
    exact ⟨hi', hpc, hz_0, hz_i, fun hne => absurd hi hne, fun hne => absurd hi hne⟩
  · have hbody := value_body_nonzero c (aux systems run t) (run t).pc hvalid hi
    obtain ⟨hU, hU_secondary⟩ := hvalid.insert (c := c) true
    have hlen := (length_insert (hvalid.lengthU.trans hvalid.bits.symm)
      ((input systems run t).fold c true).value.1).trans hvalid.bits
    have hlen_secondary := (length_insert (hvalid.lengthU_secondary.trans hvalid.bits.symm)
      ((input systems run t).fold c true).value.2).trans hvalid.bits
    obtain ⟨-, hi', hpc, hz_0, hz_i, hU', hU_secondary'⟩ := transcript_injective hn
      (hsized.lengthU.trans hlen.symm) (hsized.lengthU_secondary.trans hlen_secondary.symm)
      hsized.U hU hsized.U_secondary hU_secondary (hequal.trans hbody)
    exact ⟨hi', hpc, hz_0, hz_i, fun _ => hU', fun _ => hU_secondary'⟩

/-! ## All steps and the first step -/

/-- The input of each step, by the steps before. -/
theorem IsRun.input_eq (h : IsRun systems params run final T)
    {phi : ZMod n → List (ZMod n) → ZMod n} {f : ℕ → ZMod n → List (ZMod n) → List (ZMod n)}
    (hSC : SC.Determines phi f) (hnum : SC.numCircuits ≤ n)
    (hshapes : ∀ pc : Fin SC.numCircuits, params.shapes[(pc : ℕ)]? = some (systems pc).shape)
    (hproduces : ∀ t ≤ T, Produces systems run t (opening systems run final T t)) (ht : t ≤ T) :
    (input systems run t).i = t ∧
      (input systems run t).z_0 = (input systems run 0).z_0 ∧
        (input systems run t).z_i = states phi f (input systems run 0).z_0 t := by
  induction t with
  | zero =>
      obtain ⟨hvalid, haccepted⟩ := h.accepted hshapes ht
      refine ⟨h.base.trans Nat.cast_zero.symm, rfl, ?_⟩
      apply List.ext_getElem (hvalid.z_i.trans hvalid.z_0.symm)
      intro k h₁ h₂
      have hlt : k < ((input systems run 0).z_0.zip (input systems run 0).z_i).length := by
        rw [List.length_zip]
        exact lt_min h₂ h₁
      have hmem := haccepted.base_z h.base _ (List.getElem_mem hlt)
      rw [List.getElem_zip] at hmem
      exact hmem.symm
  | succ t ih =>
      obtain ⟨hi, hz_0, hz_i⟩ := ih (Nat.le_of_succ_le ht)
      obtain ⟨hvalid, haccepted⟩ := h.accepted hshapes (Nat.le_of_succ_le ht)
      have hnext := hproduces t (Nat.le_of_succ_le ht)
      have hnumbered := h.numbered t (Nat.le_of_succ_le ht)
      rw [opening_of_lt ht] at hnext hnumbered
      refine ⟨?_, hnext.z_0.trans hz_0, ?_⟩
      · rw [Nat.cast_succ, ← hi]
        exact hnext.i
      · have hselector := hSC.selector _ _ _ hvalid.z_i haccepted.selector
        have hpc : phi t (states phi f (input systems run 0).z_0 t) = ((run t).pc : ℕ) := by
          rw [← hz_i, ← hi, ← hselector, ← hnext.pc, hnumbered]
        rw [states, hpc, ZMod.val_cast_of_lt ((run t).pc.isLt.trans_le hnum)]
        have hstep := hSC.step _ _ _ _ (run t).pc.isLt hvalid.z_i haccepted.step
        rw [hi, hz_i] at hstep
        rw [← hstep, ← hz_i, ← hi]
        exact hnext.z_i

/-- **Steps are selected soundly.**  If nothing that is hashed in a run collides, then each step has
run the circuit that the selector chooses for its index and its state, the final state is that after
all steps, and other accumulators than the selected one are carried over. -/
theorem supernova_sound (hn : 2 ^ 64 ≤ n)
    (systems : (pc : Fin SC.numCircuits) → System c SC pc) (params : PublicParams (ZMod n) PP1 PP2)
    (hshapes : ∀ pc : Fin SC.numCircuits, params.shapes[(pc : ℕ)]? = some (systems pc).shape)
    (hnum : SC.numCircuits < 2 ^ 64) (phi : ZMod n → List (ZMod n) → ZMod n)
    (f : ℕ → ZMod n → List (ZMod n) → List (ZMod n)) (hSC : SC.Determines phi f) (T : ℕ)
    (run : ℕ → Instance n G1 SC.numCircuits) (final : Opening n b G2)
    (hinj : Set.InjOn (hash c) {x | ∃ t ≤ T, x = (opening systems run final T t).absorbed c ∨
      x = output systems run t})
    (h : IsRun systems params run final T) : Selects systems run final T phi f := by
  have hproduces : ∀ t ≤ T, Produces systems run t (opening systems run final T t) := by
    intro t ht
    apply h.produces (hn.trans' (by norm_num)) hshapes ht
    apply hinj.mono
    rintro x (rfl | rfl)
    · exact ⟨t, ht, Or.inl rfl⟩
    · exact ⟨t, ht, Or.inr rfl⟩
  have hinput := fun t ht =>
    h.input_eq hSC (hnum.le.trans hn) hshapes hproduces (t := t) ht
  obtain ⟨hi, hz_0, hz_i⟩ := hinput T (le_refl T)
  have hfinal := hproduces T (le_refl T)
  rw [opening_last] at hfinal
  have hstart : final.z_0 = (input systems run 0).z_0 := hfinal.z_0.trans hz_0
  have hselected : ∀ t ≤ T, (((run t).pc : ℕ) : ZMod n) = phi t (states phi f final.z_0 t) := by
    intro t ht
    obtain ⟨hi, -, hz_i⟩ := hinput t ht
    obtain ⟨hvalid, haccepted⟩ := h.accepted hshapes ht
    rw [← h.numbered t ht, (hproduces t ht).pc, hstart, ← hz_i, ← hi]
    exact hSC.selector _ _ _ hvalid.z_i haccepted.selector
  constructor
  · exact hselected
  · constructor
    · rw [hfinal.i, hi, Nat.cast_succ]
    · obtain ⟨hvalid, haccepted⟩ := h.accepted hshapes (le_refl T)
      have hpc := hselected T (le_refl T)
      rw [states, ← hpc, ZMod.val_cast_of_lt ((run T).pc.isLt.trans_le (hnum.le.trans hn)),
        hfinal.z_i, hSC.step _ _ _ _ (run T).pc.isLt hvalid.z_i haccepted.step, hi, hz_i, hstart]
  · intro t ht j hj
    obtain ⟨hvalid, haccepted⟩ := h.accepted hshapes (Nat.succ_le_of_lt ht)
    have hne := (h.folded t ht).2
    have hnext := hproduces (t + 1) (Nat.succ_le_of_lt ht)
    have hlt : (input systems run (t + 1)).bits.length < n := by
      rw [hvalid.bits]
      exact hnum.trans_le hn
    obtain ⟨k, hbits, hk⟩ := oneHot_of_selectorBits hlt haccepted.bits
    have hnumbered := h.numbered t ht.le
    rw [opening_of_lt ht] at hnumbered ⊢
    have hslot : j ≠ k := by
      rintro rfl
      have hcast : ((j : ℕ) : ZMod n) = ((run t).pc : ℕ) := hk.trans hnumbered
      have hval := congrArg ZMod.val hcast
      rw [ZMod.val_cast_of_lt (hbits.1.trans hlt),
        ZMod.val_cast_of_lt ((run t).pc.isLt.trans_le (hnum.le.trans hn))] at hval
      exact hj hval
    rw [hnext.U hne, hnext.U_secondary hne]
    exact ⟨insert_getElem? hbits (hvalid.lengthU.trans hvalid.bits.symm) _ hslot,
      insert_getElem? hbits (hvalid.lengthU_secondary.trans hvalid.bits.symm) _ hslot⟩

/-- The constraints of every circuit hold for the values that the prover allocates. -/
structure NonUniformCircuit.Complete {F : Type} (SC : NonUniformCircuit F) : Prop where
  selector : ∀ i z, z.length = SC.arity → (SC.computeSelector (SC.hint i z) i z).holds
  step : ∀ pc i z, pc < SC.numCircuits → z.length = SC.arity →
    (SC.generateConstraints (SC.hint i z) pc i z).holds

variable (c SC) in
/-- The input of a first step. -/
def newInput (vk : ZMod n) (z_0 : List (ZMod n)) : InputVar n b G2 where
  vk := vk
  i := 0
  pc := 0
  z_0 := z_0
  z_i := z_0
  U := List.replicate SC.numCircuits (baseAccumulators c).1
  U_secondary := List.replicate SC.numCircuits (baseAccumulators c).2
  u := (baseNode c : NodeVar n b G2).u
  commitment_T := (baseNode c : NodeVar n b G2).commitment_T
  proof_secondary := (baseNode c).proof_secondary
  bits := indicator SC.numCircuits 0

theorem valid_newInput {vk : ZMod n} {z_0 : List (ZMod n)} (hz : z_0.length = SC.arity) :
    (newInput c SC vk z_0).Valid SC := by
  have hnode := baseNode_valid c
  constructor
  · exact hz
  · exact hz
  · exact List.length_replicate
  · exact List.length_replicate
  · intro U hU
    rw [List.eq_of_mem_replicate hU]
    exact hnode.U
  · intro U hU
    rw [List.eq_of_mem_replicate hU]
    exact hnode.U_secondary
  · exact hnode.u
  · exact hnode.one
  · exact hnode.proof_E
  · exact hnode.proof_W
  · exact length_indicator _ _

/-- The constraints of a first step hold, whichever circuit it runs. -/
theorem accepted_newInput (hSC : SC.Complete) {vk hash_input : ZMod n} {z_0 : List (ZMod n)}
    (hz : z_0.length = SC.arity) {k : ℕ} (hk : k < SC.numCircuits)
    (h : hash_input = hash c (body c SC (SC.hint 0 z_0) k (newInput c SC vk z_0)).value.1) :
    Accepted c SC (SC.hint 0 z_0) k (newInput c SC vk z_0) hash_input := by
  constructor
  · intro _ z hz
    obtain ⟨k, hk, rfl⟩ := List.mem_iff_getElem.mp hz
    rw [List.getElem_zip]
    rfl
  · exact hSC.selector _ _ hz
  · exact hSC.step _ _ _ hk hz
  · intro hne
    exact absurd rfl hne
  · have hpc : (newInput c SC vk z_0).pc = ((0 : ℕ) : ZMod n) := Nat.cast_zero.symm
    rw [hpc]
    exact holds_indicator SC.numCircuits_pos
  · have hbase : decide ((newInput c SC vk z_0).i = 0) = true := decide_eq_true rfl
    rw [hbase]
    exact Setting.multifold_holds_iff.mpr nofun
  · exact h

end Runs

/-! ## Circuits in turn -/

section Example

open Bn254

/-- Two circuits that are run in turn: the first adds one, the second adds two. -/
def inTurn : NonUniformCircuit (ZMod fr) where
  arity := 1
  numCircuits := 2
  numCircuits_pos := Nat.two_pos
  Aux := Unit
  hint _ _ := ()
  computeSelector _ i _ := ⟨(i.val % 2 : ℕ), True⟩
  generateConstraints _ pc _ z := ⟨z.map (· + (pc + 1)), True⟩
  length_value _ _ _ _ h := by rw [List.length_map, h]

theorem inTurn_determines : inTurn.Determines (fun i _ => (i.val % 2 : ℕ))
    fun pc _ z => z.map (· + (pc + 1)) where
  selector _ _ _ _ _ := rfl
  step _ _ _ _ _ _ _ := rfl

theorem inTurn_complete : inTurn.Complete :=
  ⟨fun _ _ _ => trivial, fun _ _ _ _ _ => trivial⟩

/-- The states from `0`. -/
def turnStates : ℕ → List (ZMod fr) :=
  states (fun i _ => (i.val % 2 : ℕ)) (fun pc _ z => z.map (· + (pc + 1))) [0]

theorem length_turnStates (m : ℕ) : (turnStates m).length = 1 := by
  induction m with
  | zero => rfl
  | succ m ih => exact (List.length_map _).trans ih

theorem mod_two_lt (m : ℕ) : m % 2 < 2 := Nat.mod_lt m Nat.two_pos

/-- The circuits are selected by the index. -/
theorem turnStates_succ {m : ℕ} (hm : m < fr) :
    turnStates (m + 1) = (turnStates m).map (· + (((m % 2 : ℕ) : ZMod fr) + 1)) := by
  have hlt : m % 2 < fr := (mod_two_lt m).trans (by norm_num [fr])
  show (turnStates m).map (· + (((((m : ZMod fr).val % 2 : ℕ) : ZMod fr).val : ZMod fr) + 1)) = _
  rw [ZMod.val_cast_of_lt hm, ZMod.val_cast_of_lt hlt]

/-- The accumulators of the circuits after `m + 1` steps: each step folds the instance of the step
before into those of its circuit. -/
noncomputable def turnAcc : ℕ → ℕ → CountAcc
  | 0 => fun _ => .new
  | m + 1 => Function.update (turnAcc m) (m % 2) ((turnAcc m (m % 2)).fold (m + 1)).next

/-- The primary accumulators as they are allocated. -/
noncomputable def turnU (m : ℕ) : List (RelaxedPrimaryVar fr fq) :=
  (List.range 2).map fun k => relaxedMap countSetting.cycle.affine1 (turnAcc m k).U

noncomputable def turnSecondary (m : ℕ) : List (RelaxedSecondaryVar fq (ZMod fq)) :=
  (List.range 2).map fun k => (turnAcc m k).U_secondary

/-- The input after `m` steps. -/
noncomputable def turnInput : ℕ → InputVar fr fq (ZMod fq)
  | 0 => newInput countSetting inTurn 7 [0]
  | m + 1 =>
      let node := ((turnAcc m (m % 2)).fold (m + 1)).node
      { vk := 7
        i := (m + 1 : ℕ)
        pc := (m % 2 : ℕ)
        z_0 := [0]
        z_i := turnStates (m + 1)
        U := turnU m
        U_secondary := turnSecondary m
        u := node.u
        commitment_T := node.commitment_T
        proof_secondary := node.proof_secondary
        bits := indicator 2 (m % 2) }

/-- What is hashed after `m + 1` steps. -/
noncomputable def turnOpening (m : ℕ) : Opening fr fq (ZMod fq) :=
  ⟨7, (m + 1 : ℕ), (m % 2 : ℕ), [0], turnStates (m + 1), turnU m, turnSecondary m⟩

theorem select_range {T : Type} (g : ℕ → T) {k : ℕ} (hk : k < 2) (default : T) :
    select (indicator 2 k) ((List.range 2).map g) (((List.range 2).map g).headD default) = g k := by
  interval_cases k <;> rfl

/-- A step replaces the accumulators of one circuit. -/
theorem insert_turnAcc {T : Type} (g : CountAcc → T) (m : ℕ) :
    insert (indicator 2 (m % 2)) ((List.range 2).map fun k => g (turnAcc m k))
        (g (turnAcc (m + 1) (m % 2))) =
      (List.range 2).map fun k => g (turnAcc (m + 1) k) := by
  have hlen : ((List.range 2).map fun k => g (turnAcc m k)).length =
      (indicator 2 (m % 2)).length := rfl
  rw [insert_oneHot (oneHot_indicator (mod_two_lt m)) hlen]
  apply List.ext_getElem
  · rw [List.length_set, List.length_map, List.length_map]
  · intro k _ _
    by_cases hk : m % 2 = k
    · subst hk
      rw [List.getElem_set_self, List.getElem_map, List.getElem_range]
    · rw [List.getElem_set_ne hk, List.getElem_map, List.getElem_map, List.getElem_range, turnAcc,
        Function.update_of_ne (Ne.symm hk)]

theorem valid_turnInput (m : ℕ) : (turnInput m).Valid inTurn := by
  cases m with
  | zero => exact valid_newInput rfl
  | succ m =>
      have hnode := ((turnAcc m (m % 2)).fold (m + 1)).allocated.valid
      constructor
      · rfl
      · exact length_turnStates (m + 1)
      · rfl
      · rfl
      · intro U hU
        obtain ⟨k, -, rfl⟩ := List.mem_map.mp hU
        exact (turnAcc m k).primary.lengthX
      · intro U hU
        obtain ⟨k, -, rfl⟩ := List.mem_map.mp hU
        exact (turnAcc m k).secondary.lengthX
      · exact hnode.u
      · exact hnode.one
      · exact hnode.proof_E
      · exact hnode.proof_W
      · exact length_indicator _ _

/-- The circuit folds what the prover has folded. -/
theorem fold_turnInput (m : ℕ) (should_enforce : Bool) :
    (turnInput (m + 1)).fold countSetting should_enforce =
      ⟨(relaxedMap countSetting.cycle.affine1 (turnAcc (m + 1) (m % 2)).U,
        (turnAcc (m + 1) (m % 2)).U_secondary), True⟩ := by
  have hallocated := ((turnAcc m (m % 2)).fold (m + 1)).allocated
  have hnode := hallocated.fold should_enforce
  rw [NodeVar.fold, hallocated.U, hallocated.U_secondary] at hnode
  rw [InputVar.fold, turnAcc, Function.update_self, ← hnode]
  show countSetting.multifold 7 (select (indicator 2 (m % 2)) (turnU m) ((turnU m).headD _))
    (select (indicator 2 (m % 2)) (turnSecondary m) ((turnSecondary m).headD _)) _ _ _ _ = _
  rw [turnU, turnSecondary, select_range _ (mod_two_lt m), select_range _ (mod_two_lt m)]
  rfl

/-- What the circuit absorbs for its output. -/
theorem body_turnInput {m : ℕ} (hm : m < fr) :
    (body countSetting inTurn () (m % 2) (turnInput m)).value.1 =
      (turnOpening m).absorbed countSetting := by
  have hvalid := valid_turnInput m
  -- the selector of the index, and the state after the selected circuit
  have hpc : (((m : ZMod fr).val % 2 : ℕ) : ZMod fr) = (m % 2 : ℕ) := by
    rw [ZMod.val_cast_of_lt hm]
  cases m with
  | zero =>
      rw [Nat.cast_zero] at hpc
      rw [value_body_zero countSetting () _ hvalid rfl, Opening.absorbed, turnOpening,
        turnStates_succ hm, ← hpc, Nat.cast_add, Nat.cast_zero, Nat.cast_one]
      rfl
  | succ m =>
      have hne : (turnInput (m + 1)).i ≠ 0 := cast_ne_zero hm
      have hU : insert (indicator 2 (m % 2)) (turnU m) _ = turnU (m + 1) :=
        insert_turnAcc (fun acc => relaxedMap countSetting.cycle.affine1 acc.U) m
      have hU_secondary : insert (indicator 2 (m % 2)) (turnSecondary m) _ =
          turnSecondary (m + 1) := insert_turnAcc CountAcc.U_secondary m
      rw [value_body_nonzero countSetting () _ hvalid hne, fold_turnInput]
      show transcript countSetting 7 (((m + 1 : ℕ) : ZMod fr) + 1)
        (((m + 1 : ℕ) : ZMod fr).val % 2 : ℕ) [0]
        ((turnStates (m + 1)).map (· + ((((m + 1) % 2 : ℕ) : ZMod fr) + 1)))
        (insert (indicator 2 (m % 2)) (turnU m) _)
        (insert (indicator 2 (m % 2)) (turnSecondary m) _) =
          transcript countSetting 7 ((m + 1 : ℕ) + 1 : ℕ) ((m + 1) % 2 : ℕ) [0]
            (turnStates (m + 1 + 1)) (turnU (m + 1)) (turnSecondary (m + 1))
      rw [hU, hU_secondary, hpc, turnStates_succ hm, Nat.cast_succ (m + 1)]

/-- The hash is the number of steps, whichever circuit has been run. -/
theorem hash_turnInput (pc m : ℕ) :
    hash countSetting (body countSetting inTurn () pc (turnInput m)).value.1 = (m + 1 : ℕ) := by
  cases m with
  | zero =>
      rw [Nat.cast_add, Nat.cast_zero, Nat.cast_one]
      rfl
  | succ m =>
      rw [Nat.cast_succ (m + 1)]
      rfl

theorem accepted_turnInput {pc : ℕ} (hpc : pc < 2) {m : ℕ} (hm : m < fr) :
    Accepted countSetting inTurn () pc (turnInput m) (m + 1 : ℕ) := by
  have hhash := (hash_turnInput pc m).symm
  cases m with
  | zero => exact accepted_newInput inTurn_complete rfl hpc hhash
  | succ m =>
      constructor
      · intro hi
        exact absurd hi (cast_ne_zero hm)
      · trivial
      · trivial
      · intro _
        show ((m + 1 : ℕ) : ZMod fr) = ((turnAcc m (m % 2)).fold (m + 1)).node.u.X.getD 1 0
        rw [((turnAcc m (m % 2)).fold (m + 1)).allocated.u]
        rfl
      · exact holds_indicator (mod_two_lt m)
      · rw [fold_turnInput]
        trivial
      · exact hhash

/-- Two rows for each circuit: an output is that of the input after as many steps. -/
noncomputable def turnSystems (pc : Fin inTurn.numCircuits) : System countSetting inTurn pc :=
  outcomeArithmetization (fun v => hash countSetting (body countSetting _ v.1 pc v.2).value.1)
    (fun x => ((), turnInput (x - 1).val))
    (fun _ _ h => (holds_iff.mp h).hash_input)
    (fun x => ⟨valid_turnInput _, holds_iff.mpr (by
      have haccepted := accepted_turnInput pc.isLt (ZMod.val_lt (x - 1))
      rwa [Nat.cast_succ, ZMod.natCast_zmod_val, sub_add_cancel] at haccepted)⟩)

/-- One shape for each circuit. -/
def turnParams : PublicParams (ZMod fr) Unit Unit :=
  ⟨[outcomeRows (ZMod fr), outcomeRows (ZMod fr)], (), (), 7⟩

theorem shapes_turn (pc : Fin inTurn.numCircuits) :
    turnParams.shapes[(pc : ℕ)]? = some (turnSystems pc).shape := by
  match pc with
  | ⟨0, _⟩ => rfl
  | ⟨1, _⟩ => rfl

/-- The instances of the steps. -/
def turnRun (t : ℕ) : Instance fr (ZMod fr) inTurn.numCircuits :=
  ⟨⟨t % 2, mod_two_lt t⟩, (countStrict (t + 1)).1, (countStrict (t + 1)).2⟩

theorem input_turnRun {t : ℕ} (ht : t < fr) : input turnSystems turnRun t = turnInput t := by
  show turnInput (((t + 1 : ℕ) : ZMod fr) - 1).val = _
  rw [val_pred ht]

theorem opening_turnRun {T : ℕ} (hT : T < fr) {t : ℕ} (ht : t ≤ T) :
    opening turnSystems turnRun (turnOpening T) T t = turnOpening t := by
  rcases ht.lt_or_eq with hlt | rfl
  · rw [opening_of_lt hlt, input_turnRun (by omega)]
    rfl
  · exact opening_last

theorem output_turnRun {t : ℕ} (ht : t < fr) :
    output turnSystems turnRun t = (turnOpening t).absorbed countSetting := by
  rw [output, input_turnRun ht]
  exact body_turnInput ht

/-- The steps make a run, in which each instance but the last is folded. -/
theorem isRun_turnRun {T : ℕ} (hT : T < fr) :
    IsRun turnSystems turnParams turnRun (turnOpening T) T := by
  constructor
  · intro t _
    exact ⟨_, shapes_turn _, satisfied_countStrict (t + 1)⟩
  · intro t _
    rfl
  · rw [input_turnRun (Nat.zero_lt_of_lt hT)]
    rfl
  · intro t ht
    rw [input_turnRun (by omega)]
    exact ⟨((turnAcc t (t % 2)).fold (t + 1)).allocated.u, cast_ne_zero (by omega)⟩
  · intro t ht
    rw [opening_turnRun hT ht]
    rfl
  · rfl
  · exact (valid_turnInput (T + 1)).sized

/-- Four steps run the two circuits in turn.  Three of them fold: the first and the second into
accumulators without an instance, the third into that of the first circuit, which holds one
already. -/
theorem supernova_sound_turns : Selects turnSystems turnRun (turnOpening 3) 3
    (fun i _ => (i.val % 2 : ℕ)) (fun pc _ z => z.map (· + (pc + 1))) := by
  have hlt : 3 < fr := by norm_num [fr]
  apply supernova_sound (by norm_num [fr]) turnSystems turnParams shapes_turn
    (by norm_num [inTurn]) _ _ inTurn_determines 3 turnRun (turnOpening 3) ?_ (isRun_turnRun hlt)
  -- the hash of what is absorbed is the number of the step
  have habsorbed : ∀ x, (∃ t ≤ 3, x = (opening turnSystems turnRun (turnOpening 3) 3 t).absorbed
      countSetting ∨ x = output turnSystems turnRun t) →
      ∃ t < fr, x = (turnOpening t).absorbed countSetting := by
    rintro x ⟨t, ht, rfl | rfl⟩
    · exact ⟨t, by omega, by rw [opening_turnRun hlt ht]⟩
    · exact ⟨t, by omega, output_turnRun (by omega)⟩
  intro x hx y hy heq
  obtain ⟨t, ht, rfl⟩ := habsorbed x hx
  obtain ⟨t', ht', rfl⟩ := habsorbed y hy
  have hcast : ((t + 1 : ℕ) : ZMod fr) = (t' + 1 : ℕ) := heq
  rw [← val_pred ht, ← val_pred ht', hcast]

end Example

end NexusVm.Nova.Circuits.Supernova
