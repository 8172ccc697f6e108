import NexusVm.Nova.Circuits.SequentialRun
import NexusVm.Nova.Circuits.SupernovaSound

/-!
# Runs of the non-uniform prover

`prove_step` of `nova/src/circuits/supernova/mod.rs`.  Every step keeps an invariant: the
accumulators of each circuit are missing, or satisfied for the shape of this circuit.  The verifier
counts the accumulators that are present and checks each against the shape of its count.
-/

namespace NexusVm.Nova.Circuits.Supernova

open R1cs Cyclefold Synth NexusVm.Nova.Circuits.Sequential

section Missing

variable {α β : Type}

/-- After present entries alone, an entry keeps its place. -/
theorem getElem?_filterMap {g : α → Option β} {l : List α} {k : ℕ} {a : α} {b : β}
    (h : ∀ j < k, ∀ a', l[j]? = some a' → (g a').isSome) (ha : l[k]? = some a) (hb : g a = some b) :
    (l.filterMap g)[k]? = some b := by
  induction l generalizing k with
  | nil => cases ha
  | cons x l ih =>
      cases k with
      | zero =>
          obtain rfl := Option.some.inj ha
          rw [List.filterMap_cons_some hb]
          rfl
      | succ k =>
          obtain ⟨y, hy⟩ := Option.isSome_iff_exists.mp (h 0 k.succ_pos x rfl)
          rw [List.filterMap_cons_some hy, List.getElem?_cons_succ]
          apply ih _ ha
          intro j hj a' ha'
          exact h (j + 1) (Nat.succ_lt_succ hj) a' ha'

/-- If no missing entry stands before a present one, then all entries keep their places. -/
theorem exists_of_filterMap {g : α → Option β} {l : List α}
    (h : ∀ (k : ℕ) (a : α), l[k]? = some a → (g a).isSome →
      ∀ j < k, ∀ a', l[j]? = some a' → (g a').isSome)
    {t : ℕ} {b : β} (hb : (l.filterMap g)[t]? = some b) : ∃ a, l[t]? = some a ∧ g a = some b := by
  induction l generalizing t with
  | nil => cases hb
  | cons x l ih =>
      cases hx : g x with
      | none =>
          have hnil : (x :: l).filterMap g = [] := by
            rw [List.filterMap_eq_nil_iff]
            intro a ha
            obtain ⟨k, hk⟩ := List.mem_iff_getElem?.mp ha
            cases k with
            | zero =>
                obtain rfl := Option.some.inj hk
                exact hx
            | succ k =>
                rw [← Option.not_isSome_iff_eq_none]
                intro hsome
                have hfirst := h (k + 1) a hk hsome 0 k.succ_pos x rfl
                rw [hx] at hfirst
                cases hfirst
          rw [hnil] at hb
          cases hb
      | some y =>
          rw [List.filterMap_cons_some hx] at hb
          cases t with
          | zero =>
              obtain rfl := Option.some.inj hb
              exact ⟨x, rfl, hx⟩
          | succ t =>
              apply ih _ hb
              intro k a ha hsome j hj a' ha'
              exact h (k + 1) a ha hsome (j + 1) (Nat.succ_lt_succ hj) a' ha'

variable {us : List (Option α)} {ws : List (Option β)}

theorem present_entry {k : ℕ} {entry : Option α × Option β} (h : (us.zip ws)[k]? = some entry) :
    us[k]? = some entry.1 ∧ ws[k]? = some entry.2 := by
  obtain ⟨u, w⟩ := entry
  exact List.getElem?_zip_eq_some.mp h

/-- A pair behind present pairs keeps its place. -/
theorem present_getElem? {k : ℕ} {u : α} {w : β}
    (h : ∀ j < k, (∃ u, us[j]? = some (some u)) ∧ ∃ w, ws[j]? = some (some w))
    (hu : us[k]? = some (some u)) (hw : ws[k]? = some (some w)) :
    (present us ws)[k]? = some (u, w) := by
  refine getElem?_filterMap (a := (some u, some w)) ?_
    (List.getElem?_zip_eq_some.mpr ⟨hu, hw⟩) rfl
  intro j hj entry hentry
  obtain ⟨hus, hws⟩ := present_entry hentry
  obtain ⟨⟨u', hu'⟩, w', hw'⟩ := h j hj
  rw [hu', Option.some.injEq] at hus
  rw [hw', Option.some.injEq] at hws
  rw [← hus, ← hws]
  rfl

/-- If no missing pair stands before a present one, then all pairs keep their places. -/
theorem exists_of_present
    (h : ∀ k : ℕ, (∃ u, us[k]? = some (some u)) → (∃ w, ws[k]? = some (some w)) → ∀ j < k, (∃ u, us[j]? = some (some u)) ∧ ∃ w, ws[j]? = some (some w))
    {t : ℕ} {pair : α × β} (hpair : (present us ws)[t]? = some pair) :
    us[t]? = some (some pair.1) ∧ ws[t]? = some (some pair.2) := by
  have hsome : ∀ {entry : Option α × Option β} {pair : α × β},
      (entry.1.bind fun u => entry.2.map fun w => (u, w)) = some pair →
      entry.1 = some pair.1 ∧ entry.2 = some pair.2 := by
    rintro ⟨u, w⟩ pair hbind
    obtain ⟨u', rfl, hmap⟩ := Option.bind_eq_some_iff.mp hbind
    obtain ⟨w', rfl, rfl⟩ := Option.map_eq_some_iff.mp hmap
    exact ⟨rfl, rfl⟩
  have hprefix : ∀ (k : ℕ) (entry : Option α × Option β), (us.zip ws)[k]? = some entry →
      (entry.1.bind fun u => entry.2.map fun w => (u, w)).isSome → ∀ j < k, ∀ entry',
      (us.zip ws)[j]? = some entry' →
        (entry'.1.bind fun u => entry'.2.map fun w => (u, w)).isSome := by
    intro k entry hentry hisSome j hj entry' hentry'
    obtain ⟨pair', hpair'⟩ := Option.isSome_iff_exists.mp hisSome
    obtain ⟨hus, hws⟩ := present_entry hentry
    obtain ⟨hu, hw⟩ := hsome hpair'
    rw [hu] at hus
    rw [hw] at hws
    obtain ⟨⟨u', hu'⟩, w', hw'⟩ := h k ⟨_, hus⟩ ⟨_, hws⟩ j hj
    obtain ⟨hus', hws'⟩ := present_entry hentry'
    rw [hu', Option.some.injEq] at hus'
    rw [hw', Option.some.injEq] at hws'
    rw [← hus', ← hws']
    rfl
  obtain ⟨entry, hentry, hbind⟩ := exists_of_filterMap hprefix hpair
  obtain ⟨hus, hws⟩ := present_entry hentry
  obtain ⟨hu, hw⟩ := hsome hbind
  rw [hus, hws, hu, hw]
  exact ⟨rfl, rfl⟩

end Missing

/-! ## Proving, absorbing and the invariant -/

section Proving

variable {n b : ℕ} {G1 G2 PP1 PP2 : Type} [Fact n.Prime] [Fact b.Prime] [AddCommGroup G1]
  [Module (ZMod n) G1] [AddCommGroup G2] [Module (ZMod b) G2]

/-- `field_to_u64`. -/
def fieldToU64 {E : Type} (f : ZMod n) : Run E UInt64 :=
  if f.val < 2 ^ 64 then .ok (UInt64.ofNat f.val) else .error .panic

/-- An accumulator as it is allocated: a constant one if it is missing. -/
def allocAcc (c : Setting n b G1 G2 PP1 PP2) (U : Option (RelaxedR1CSInstance (ZMod n) G1)) :
    RelaxedPrimaryVar n b :=
  relaxedMap c.cycle.affine1 (U.getD ⟨0, 0, List.replicate augmentedCircuitNumIo 0⟩)

/-- A secondary accumulator as it is allocated. -/
def allocAccSecondary (U : Option (RelaxedR1CSInstance (ZMod b) G2)) : RelaxedSecondaryVar b G2 :=
  U.getD ⟨0, 0, List.replicate secondaryNumIo 0⟩

/-- `SuperNovaAugmentedCircuitInputVar::new_variable`, with the bits of `SelectorBits::new`. -/
def allocInput (c : Setting n b G1 G2 PP1 PP2) (vk i pc : ZMod n) (z_0 z_i : List (ZMod n))
    (U : List (Option (RelaxedR1CSInstance (ZMod n) G1)))
    (U_secondary : List (Option (RelaxedR1CSInstance (ZMod b) G2))) (u : R1CSInstance (ZMod n) G1)
    (proof : NIMFSProof b G1 G2) : Run Cyclefold.Error (InputVar n b G2) := do
  -- `u` and `proof` are allocated as for a node
  let node ← allocNode c ⟨0, 0, []⟩ ⟨0, 0, []⟩ u proof
  .ok
    { vk := vk
      i := i
      pc := pc
      z_0 := z_0
      z_i := z_i
      U := U.map (allocAcc c)
      U_secondary := U_secondary.map allocAccSecondary
      u := node.u
      commitment_T := node.commitment_T
      proof_secondary := node.proof_secondary
      bits := (List.range U.length).map fun k : ℕ => decide (pc = (k : ZMod n)) }

/-- What a step folds before its synthesis. -/
structure Prepared (n b : ℕ) (G1 G2 : Type) where
  i_next : UInt64
  input : InputVar n b G2
  U : List (Option (RelaxedR1CSInstance (ZMod n) G1))
  W : List (Option (RelaxedR1CSWitness (ZMod n)))
  U_secondary : List (Option (RelaxedR1CSInstance (ZMod b) G2))
  W_secondary : List (Option (RelaxedR1CSWitness (ZMod b)))

/-- The first part of `prove_step`, with the allocation of the input. -/
def prepare (c : Setting n b G1 G2 PP1 PP2) (numCircuits : ℕ)
    (params : PublicParams (ZMod n) PP1 PP2) (proof : NIVCProof n b G1 G2) :
    Run Cyclefold.Error (Prepared n b G1 G2) :=
  match proof.non_base with
  | some non_base => do
      let idx := non_base.pc.toNat
      let shape ← index params.shapes idx
      let U_i := (← index non_base.U idx).getD (newInstance shape)
      let W_i := (← index non_base.W idx).getD (zeroWitness shape)
      let U_secondary_i :=
        (← index non_base.U_secondary idx).getD (newInstance c.secondary.shape)
      let W_secondary_i :=
        (← index non_base.W_secondary idx).getD (zeroWitness c.secondary.shape)
      let fold ← c.prove params.pp params.pp_secondary params.digest shape U_i W_i U_secondary_i
        W_secondary_i non_base.u non_base.w
      let input ← allocInput c params.digest non_base.i.toNat non_base.pc.toNat proof.z_0
        non_base.z_i (non_base.U.set idx (some U_i))
        (non_base.U_secondary.set idx (some U_secondary_i)) non_base.u fold.proof
      .ok ⟨saturatingSucc non_base.i, input, non_base.U.set idx (some fold.U),
        non_base.W.set idx (some fold.W), non_base.U_secondary.set idx (some fold.U_secondary),
        non_base.W_secondary.set idx (some fold.W_secondary)⟩
  | none => do
      let input ← allocInput c params.digest 0 0 proof.z_0 proof.z_0
        (List.replicate numCircuits none) (List.replicate numCircuits none)
        ⟨0, List.replicate augmentedCircuitNumIo 1⟩ .default
      .ok ⟨1, input, List.replicate numCircuits none, List.replicate numCircuits none,
        List.replicate numCircuits none, List.replicate numCircuits none⟩

variable {c : Setting n b G1 G2 PP1 PP2} {SC : NonUniformCircuit (ZMod n)}
  (systems : (pc : Fin SC.numCircuits) → System c SC pc) (params : PublicParams (ZMod n) PP1 PP2)

/-- The instance and the witness of a synthesis, the circuit that is run, and the returned state. -/
def synthesize (input : InputVar n b G2) :
    Run Cyclefold.Error
      (R1CSInstance (ZMod n) G1 × R1CSWitness (ZMod n) × UInt64 × List (ZMod n)) := do
  let aux := SC.hint input.i input.z_i
  let pc_value ← fieldToU64 (SC.computeSelector aux input.i input.z_i).value
  if hpc : pc_value.toNat < SC.numCircuits then
    let hash_input := hash c (body c SC aux pc_value.toNat input).value.1
    let W := (systems ⟨pc_value.toNat, hpc⟩).witness (aux, input)
    .ok (⟨c.C1.commit params.pp W, [1, hash_input]⟩, ⟨W⟩, pc_value,
      (generateConstraints c SC aux pc_value.toNat input hash_input).value.2)
  else
    -- the next program counter is out of bounds
    .error .panic

/-- `NIVCProof::prove_step`. -/
def proveStep (proof : NIVCProof n b G1 G2) : Run Cyclefold.Error (NIVCProof n b G1 G2) := do
  let prepared ← prepare c SC.numCircuits params proof
  let out ← synthesize systems params prepared.input
  .ok
    { z_0 := proof.z_0
      non_base := some
        { U := prepared.U
          W := prepared.W
          U_secondary := prepared.U_secondary
          W_secondary := prepared.W_secondary
          u := out.1
          w := out.2.1
          i := prepared.i_next
          pc := out.2.2.1
          z_i := out.2.2.2 } }

/-- `m` calls of `prove_step`. -/
def proveSteps (z_0 : List (ZMod n)) : ℕ → Run Cyclefold.Error (NIVCProof n b G1 G2)
  | 0 => .ok (.new z_0)
  | m + 1 => proveSteps z_0 m >>= proveStep systems params

end Proving

section Runs

variable {n b : ℕ} {G1 G2 PP1 PP2 : Type} [Fact n.Prime] [Fact b.Prime] [AddCommGroup G1]
  [Module (ZMod n) G1] [AddCommGroup G2] [Module (ZMod b) G2]
  {c : Setting n b G1 G2 PP1 PP2} {SC : NonUniformCircuit (ZMod n)}
  {systems : (pc : Fin SC.numCircuits) → System c SC pc} {params : PublicParams (ZMod n) PP1 PP2}

/-- It is all the same to a sponge how the elements that it absorbs are split. -/
def AbsorbsAppend (ro : Cyclefold.RandomOracle n) : Prop :=
  ∀ s as bs, ro.absorb (ro.absorb s as) bs = ro.absorb s (as ++ bs)

omit [Fact n.Prime] in
theorem AbsorbsAppend.foldl {ro : Cyclefold.RandomOracle n} (h : AbsorbsAppend ro) (s : ro.State)
    {ls : List (List (ZMod n))} (hne : ls ≠ []) :
    ls.foldl ro.absorb s = ro.absorb s ls.flatten := by
  obtain ⟨as, ls, rfl⟩ := List.exists_cons_of_ne_nil hne
  clear hne
  induction ls generalizing as with
  | nil => rw [List.flatten_cons, List.flatten_nil, List.append_nil]; rfl
  | cons bs ls ih =>
      have hstep : (as :: bs :: ls).foldl ro.absorb s = ((as ++ bs) :: ls).foldl ro.absorb s := by
        rw [List.foldl_cons, List.foldl_cons, List.foldl_cons, h]
      rw [hstep, ih, List.flatten_cons, List.flatten_cons, List.flatten_cons, List.append_assoc]

variable {non_base : NIVCProofNonBase n b G1 G2}

/-- The verifier absorbs what the circuit does, one accumulator after the other. -/
theorem hash_transcriptNative (habsorb : AbsorbsAppend c.ro) (z_0 : List (ZMod n))
    (hU : non_base.U ≠ []) (hU_secondary : non_base.U_secondary ≠ [])
    (hshapes : ∀ k < non_base.U.length, ∃ shape, params.shapes[k]? = some shape ∧ shape.numIo = augmentedCircuitNumIo) :
    hash c (transcriptNative c params z_0 non_base) =
      hash c (transcript c params.digest non_base.i.toNat non_base.pc.toNat z_0 non_base.z_i
        (non_base.U.map (allocAcc c)) (non_base.U_secondary.map allocAccSecondary)) := by
  have hprimary : (non_base.U.zipIdx.map fun entry => relaxedElements
      (relaxedMap c.cycle.affine1 (unwrapInstance params entry))) =
      (non_base.U.map (allocAcc c)).map relaxedElements := by
    apply List.ext_getElem
    · simp only [List.length_map, List.length_zipIdx]
    · intro k hk _
      have hlt : k < non_base.U.length := by
        rwa [List.length_map, List.length_zipIdx] at hk
      obtain ⟨shape, hshape, hnumIo⟩ := hshapes k hlt
      simp only [List.getElem_map, List.getElem_zipIdx, Nat.zero_add, unwrapInstance, allocAcc,
        hshape, hnumIo, Option.map_some, Option.getD_some]
  have hsecondary : (non_base.U_secondary.map fun U => relaxedElementsSecondary
      (relaxedMap c.cycle.affine2 (U.getD (newInstance c.secondary.shape)))) =
      (non_base.U_secondary.map allocAccSecondary).map fun U =>
        relaxedElementsSecondary (relaxedMap c.cycle.affine2 U) := by
    rw [List.map_map]
    apply List.map_congr_left
    intro U _
    rw [newInstance, c.secondary.numIo]
    rfl
  have hne : (non_base.U.map (allocAcc c)).map relaxedElements ≠ [] := by simpa using hU
  have hne_secondary : ((non_base.U_secondary.map allocAccSecondary).map fun U =>
      relaxedElementsSecondary (relaxedMap c.cycle.affine2 U)) ≠ [] := by
    simpa using hU_secondary
  rw [hash, hash, transcriptNative, transcript, hprimary, hsecondary, List.foldl_append,
    List.foldl_append, habsorb.foldl _ hne, habsorb.foldl _ hne_secondary, List.flatMap_def,
    List.flatMap_def]
  rfl

/-- The accumulators of one circuit: all missing, or present and satisfied. -/
inductive Slot (c : Setting n b G1 G2 PP1 PP2) (params : PublicParams (ZMod n) PP1 PP2)
    (Us : List (Option (RelaxedR1CSInstance (ZMod n) G1)))
    (Ws : List (Option (RelaxedR1CSWitness (ZMod n))))
    (Us_secondary : List (Option (RelaxedR1CSInstance (ZMod b) G2)))
    (Ws_secondary : List (Option (RelaxedR1CSWitness (ZMod b)))) (k : ℕ) : Prop
  | missing (hU : Us[k]? = some none) (hW : Ws[k]? = some none)
      (hU_secondary : Us_secondary[k]? = some none) (hW_secondary : Ws_secondary[k]? = some none)
  | filled {shape : R1CSShape (ZMod n)} {U : RelaxedR1CSInstance (ZMod n) G1}
      {W : RelaxedR1CSWitness (ZMod n)} {U_secondary : RelaxedR1CSInstance (ZMod b) G2}
      {W_secondary : RelaxedR1CSWitness (ZMod b)} (hshape : params.shapes[k]? = some shape)
      (hU : Us[k]? = some (some U)) (hW : Ws[k]? = some (some W))
      (hU_secondary : Us_secondary[k]? = some (some U_secondary))
      (hW_secondary : Ws_secondary[k]? = some (some W_secondary))
      (hprimary : RelaxedSatisfied c.C1 shape U W params.pp)
      (hsecondary : RelaxedSatisfied c.C2 c.secondary.shape U_secondary W_secondary
        params.pp_secondary)

/-- The accumulators of all circuits. -/
structure Slots (c : Setting n b G1 G2 PP1 PP2) (numCircuits : ℕ)
    (params : PublicParams (ZMod n) PP1 PP2)
    (U : List (Option (RelaxedR1CSInstance (ZMod n) G1)))
    (W : List (Option (RelaxedR1CSWitness (ZMod n))))
    (U_secondary : List (Option (RelaxedR1CSInstance (ZMod b) G2)))
    (W_secondary : List (Option (RelaxedR1CSWitness (ZMod b)))) : Prop where
  lengthU : U.length = numCircuits
  lengthW : W.length = numCircuits
  lengthU_secondary : U_secondary.length = numCircuits
  lengthW_secondary : W_secondary.length = numCircuits
  slot : ∀ k < numCircuits, Slot c params U W U_secondary W_secondary k

/-- What a step has prepared after `m` steps: its constraints hold for every circuit. -/
structure Ready (c : Setting n b G1 G2 PP1 PP2) (SC : NonUniformCircuit (ZMod n))
    (params : PublicParams (ZMod n) PP1 PP2) (z_0 : List (ZMod n)) (m : ℕ)
    (prepared : Prepared n b G1 G2) : Prop where
  slots : Slots c SC.numCircuits params prepared.U prepared.W prepared.U_secondary
    prepared.W_secondary
  i_next : prepared.i_next.toNat = m + 1
  i : prepared.input.i = m
  valid : prepared.input.Valid SC
  accepted : ∀ k < SC.numCircuits,
    Accepted c SC (SC.hint prepared.input.i prepared.input.z_i) k prepared.input
      (hash c (body c SC (SC.hint prepared.input.i prepared.input.z_i) k prepared.input).value.1)
  absorbed : ∀ k,
    (body c SC (SC.hint prepared.input.i prepared.input.z_i) k prepared.input).value.1 =
      transcript c params.digest ((m + 1 : ℕ) : ZMod n)
        (SC.computeSelector (SC.hint prepared.input.i prepared.input.z_i) prepared.input.i
          prepared.input.z_i).value z_0
        (SC.generateConstraints (SC.hint prepared.input.i prepared.input.z_i) k prepared.input.i
          prepared.input.z_i).value
        (prepared.U.map (allocAcc c)) (prepared.U_secondary.map allocAccSecondary)

/-- What the prover keeps after `m` steps. -/
structure Honest (c : Setting n b G1 G2 PP1 PP2) (SC : NonUniformCircuit (ZMod n))
    (params : PublicParams (ZMod n) PP1 PP2) (z_0 : List (ZMod n)) (m : ℕ)
    (non_base : NIVCProofNonBase n b G1 G2) : Prop where
  slots : Slots c SC.numCircuits params non_base.U non_base.W non_base.U_secondary
    non_base.W_secondary
  hash : hash c (transcriptNative c params z_0 non_base) = non_base.u.X.getD 1 0
  strict : ∃ shape, params.shapes[non_base.pc.toNat]? = some shape ∧
    Satisfied c.C1 shape non_base.u non_base.w params.pp
  one : non_base.u.X.head? = some 1
  length : 1 < non_base.u.X.length
  pc : non_base.pc.toNat < SC.numCircuits
  i : non_base.i.toNat = m
  z_i : non_base.z_i.length = SC.arity

/-! ## Accumulators and synthesis -/

section Slots

variable {Us : List (Option (RelaxedR1CSInstance (ZMod n) G1))}
  {Ws : List (Option (RelaxedR1CSWitness (ZMod n)))}
  {Us_secondary : List (Option (RelaxedR1CSInstance (ZMod b) G2))}
  {Ws_secondary : List (Option (RelaxedR1CSWitness (ZMod b)))} {k : ℕ}

variable {shape : R1CSShape (ZMod n)}

/-- What `get_or_insert_with` gives is satisfied. -/
theorem Slot.exists_get (h : Slot c params Us Ws Us_secondary Ws_secondary k)
    (hshape : params.shapes[k]? = some shape) :
    ∃ U W U_secondary W_secondary, Us[k]? = some U ∧ Ws[k]? = some W ∧
      Us_secondary[k]? = some U_secondary ∧ Ws_secondary[k]? = some W_secondary ∧
      RelaxedSatisfied c.C1 shape (U.getD (newInstance shape)) (W.getD (zeroWitness shape))
        params.pp ∧
      RelaxedSatisfied c.C2 c.secondary.shape (U_secondary.getD (newInstance c.secondary.shape))
        (W_secondary.getD (zeroWitness c.secondary.shape)) params.pp_secondary := by
  cases h with
  | missing hU hW hU_secondary hW_secondary =>
      exact ⟨none, none, none, none, hU, hW, hU_secondary, hW_secondary,
        relaxedSatisfied_new c.C1 shape params.pp,
        relaxedSatisfied_new c.C2 c.secondary.shape params.pp_secondary⟩
  | filled hshape' hU hW hU_secondary hW_secondary hprimary hsecondary =>
      obtain rfl := Option.some.inj (hshape.symm.trans hshape')
      exact ⟨_, _, _, _, hU, hW, hU_secondary, hW_secondary, hprimary, hsecondary⟩

variable {U : RelaxedR1CSInstance (ZMod n) G1}

/-- Present accumulators are satisfied. -/
theorem Slot.primary (h : Slot c params Us Ws Us_secondary Ws_secondary k)
    (hU : Us[k]? = some (some U)) :
    ∃ shape W, params.shapes[k]? = some shape ∧ Ws[k]? = some (some W) ∧
      RelaxedSatisfied c.C1 shape U W params.pp := by
  cases h with
  | missing hU' _ _ _ =>
      rw [hU] at hU'
      cases hU'
  | filled hshape hU' hW _ _ hprimary _ =>
      obtain rfl := Option.some.inj (Option.some.inj (hU.symm.trans hU'))
      exact ⟨_, _, hshape, hW, hprimary⟩

variable {U_secondary : RelaxedR1CSInstance (ZMod b) G2}

theorem Slot.secondary (h : Slot c params Us Ws Us_secondary Ws_secondary k)
    (hU_secondary : Us_secondary[k]? = some (some U_secondary)) :
    ∃ W_secondary, Ws_secondary[k]? = some (some W_secondary) ∧
      RelaxedSatisfied c.C2 c.secondary.shape U_secondary W_secondary params.pp_secondary := by
  cases h with
  | missing _ _ hU_secondary' _ =>
      rw [hU_secondary] at hU_secondary'
      cases hU_secondary'
  | filled _ _ _ hU_secondary' hW_secondary _ hsecondary =>
      obtain rfl := Option.some.inj (Option.some.inj (hU_secondary.symm.trans hU_secondary'))
      exact ⟨_, hW_secondary, hsecondary⟩

/-- At first no accumulator is present. -/
theorem slots_replicate (c : Setting n b G1 G2 PP1 PP2) (numCircuits : ℕ)
    (params : PublicParams (ZMod n) PP1 PP2) : Slots c numCircuits params
      (List.replicate numCircuits none) (List.replicate numCircuits none)
      (List.replicate numCircuits none) (List.replicate numCircuits none) := by
  constructor
  · exact List.length_replicate
  · exact List.length_replicate
  · exact List.length_replicate
  · exact List.length_replicate
  · intro k hk
    constructor
    · exact List.getElem?_replicate_of_lt hk
    · exact List.getElem?_replicate_of_lt hk
    · exact List.getElem?_replicate_of_lt hk
    · exact List.getElem?_replicate_of_lt hk

/-- Satisfied accumulators of one circuit are replaced. -/
theorem Slots.set {numCircuits : ℕ} (h : Slots c numCircuits params Us Ws Us_secondary Ws_secondary)
    {idx : ℕ} (hshape : params.shapes[idx]? = some shape) {W : RelaxedR1CSWitness (ZMod n)}
    {W_secondary : RelaxedR1CSWitness (ZMod b)}
    (hprimary : RelaxedSatisfied c.C1 shape U W params.pp)
    (hsecondary : RelaxedSatisfied c.C2 c.secondary.shape U_secondary W_secondary params.pp_secondary) :
    Slots c numCircuits params (Us.set idx (some U)) (Ws.set idx (some W))
      (Us_secondary.set idx (some U_secondary)) (Ws_secondary.set idx (some W_secondary)) := by
  constructor
  · rw [List.length_set, h.lengthU]
  · rw [List.length_set, h.lengthW]
  · rw [List.length_set, h.lengthU_secondary]
  · rw [List.length_set, h.lengthW_secondary]
  · intro k hk
    by_cases hidx : idx = k
    · subst hidx
      refine .filled hshape ?_ ?_ ?_ ?_ hprimary hsecondary
      · exact List.getElem?_set_self (hk.trans_eq h.lengthU.symm)
      · exact List.getElem?_set_self (hk.trans_eq h.lengthW.symm)
      · exact List.getElem?_set_self (hk.trans_eq h.lengthU_secondary.symm)
      · exact List.getElem?_set_self (hk.trans_eq h.lengthW_secondary.symm)
    · cases h.slot k hk with
      | missing hU hW hU_secondary hW_secondary =>
          constructor
          · rwa [List.getElem?_set_ne hidx]
          · rwa [List.getElem?_set_ne hidx]
          · rwa [List.getElem?_set_ne hidx]
          · rwa [List.getElem?_set_ne hidx]
      | filled hshape hU hW hU_secondary hW_secondary hprimary hsecondary =>
          refine .filled hshape ?_ ?_ ?_ ?_ hprimary hsecondary
          · rwa [List.getElem?_set_ne hidx]
          · rwa [List.getElem?_set_ne hidx]
          · rwa [List.getElem?_set_ne hidx]
          · rwa [List.getElem?_set_ne hidx]

/-- Allocated accumulators have the lengths of accumulators. -/
theorem Slots.length_alloc {numCircuits : ℕ}
    (h : Slots c numCircuits params Us Ws Us_secondary Ws_secondary)
    (hshapes : ∀ k < numCircuits, ∃ shape, params.shapes[k]? = some shape ∧
      shape.numIo = augmentedCircuitNumIo) :
    (∀ U ∈ Us.map (allocAcc c), U.X.length = augmentedCircuitNumIo) ∧
      ∀ U ∈ Us_secondary.map allocAccSecondary, U.X.length = secondaryNumIo := by
  constructor
  · intro U hU
    obtain ⟨entry, hentry, rfl⟩ := List.mem_map.mp hU
    obtain ⟨k, hk⟩ := List.mem_iff_getElem?.mp hentry
    have hlt : k < numCircuits := h.lengthU ▸ (List.getElem?_eq_some_iff.mp hk).1
    cases entry with
    | none => exact List.length_replicate
    | some U =>
        obtain ⟨shape, hshape, hnumIo⟩ := hshapes k hlt
        obtain ⟨shape', W, hshape', -, hprimary⟩ := (h.slot k hlt).primary hk
        obtain rfl := Option.some.inj (hshape.symm.trans hshape')
        exact hprimary.lengthX.trans hnumIo
  · intro U hU
    obtain ⟨entry, hentry, rfl⟩ := List.mem_map.mp hU
    obtain ⟨k, hk⟩ := List.mem_iff_getElem?.mp hentry
    have hlt : k < numCircuits := h.lengthU_secondary ▸ (List.getElem?_eq_some_iff.mp hk).1
    cases entry with
    | none => exact List.length_replicate
    | some U =>
        obtain ⟨W_secondary, -, hsecondary⟩ := (h.slot k hlt).secondary hk
        exact hsecondary.lengthX.trans c.secondary.numIo

end Slots

variable {α T : Type}

/-- A default accumulator is allocated as a missing one. -/
theorem apply_some_getD {f : Option α → T} {a : α} (hf : f (some a) = f none) (entry : Option α) :
    f (some (entry.getD a)) = f entry := by
  cases entry with
  | none => exact hf
  | some a' => rfl

/-- A missing accumulator that is inserted is allocated as before. -/
theorem map_set_getD {f : Option α → T} {entries : List (Option α)} {k : ℕ} {entry : Option α}
    {a : α} (hget : entries[k]? = some entry) (hf : f (some a) = f none) :
    (entries.set k (some (entry.getD a))).map f = entries.map f := by
  have hentry := apply_some_getD hf entry
  obtain ⟨hlt, rfl⟩ := List.getElem?_eq_some_iff.mp hget
  have hlt' : k < (entries.map f).length := by rwa [List.length_map]
  have hmap : f entries[k] = (entries.map f)[k] := (List.getElem_map f).symm
  rw [List.map_set, hentry, hmap, List.set_getElem_self]

/-- There is one shape for each circuit. -/
theorem shape_of_systems
    (hshapes : ∀ pc : Fin SC.numCircuits, params.shapes[(pc : ℕ)]? = some (systems pc).shape)
    {k : ℕ} (hk : k < SC.numCircuits) : ∃ shape, params.shapes[k]? = some shape ∧
      shape.numIo = augmentedCircuitNumIo :=
  ⟨_, hshapes ⟨k, hk⟩, (systems ⟨k, hk⟩).isAugmented.numIo⟩

/-- The verifier absorbs the accumulators of all circuits as the circuit does. -/
theorem Slots.hash_eq (habsorb : AbsorbsAppend c.ro)
    (hshapes : ∀ pc : Fin SC.numCircuits, params.shapes[(pc : ℕ)]? = some (systems pc).shape)
    (h : Slots c SC.numCircuits params non_base.U non_base.W non_base.U_secondary non_base.W_secondary)
    (z_0 : List (ZMod n)) :
    hash c (transcriptNative c params z_0 non_base) =
      hash c (transcript c params.digest non_base.i.toNat non_base.pc.toNat z_0 non_base.z_i
        (non_base.U.map (allocAcc c)) (non_base.U_secondary.map allocAccSecondary)) := by
  have hne : ∀ {α : Type} {l : List α}, l.length = SC.numCircuits → l ≠ [] := by
    rintro α l hlen rfl
    exact SC.numCircuits_pos.ne hlen
  apply hash_transcriptNative habsorb z_0 (hne h.lengthU) (hne h.lengthU_secondary)
  intro k hk
  rw [h.lengthU] at hk
  exact shape_of_systems hshapes hk

variable {input : InputVar n b G2}

variable (systems params) in
/-- A synthesis returns if the selector chooses one of the circuits. -/
theorem exists_synthesize (hnum : SC.numCircuits < 2 ^ 64)
    (h : (SC.computeSelector (SC.hint input.i input.z_i) input.i input.z_i).value.val < SC.numCircuits) :
    ∃ out, synthesize systems params input = .ok out := by
  have hval := h.trans hnum
  have hto : (fieldToU64 (SC.computeSelector (SC.hint input.i input.z_i) input.i
      input.z_i).value : Run Cyclefold.Error UInt64) = .ok (UInt64.ofNat _) := if_pos hval
  have hlt : (UInt64.ofNat (SC.computeSelector (SC.hint input.i input.z_i) input.i
      input.z_i).value.val).toNat < SC.numCircuits :=
    (UInt64.toNat_ofNat_of_lt hval).trans_lt h
  exact ⟨_, bind_eq_ok.mpr ⟨_, hto, dif_pos hlt⟩⟩

variable {out : R1CSInstance (ZMod n) G1 × R1CSWitness (ZMod n) × UInt64 × List (ZMod n)}

/-- What a synthesis gives, if it returns. -/
theorem synthesize_eq_ok
    (hshapes : ∀ pc : Fin SC.numCircuits, params.shapes[(pc : ℕ)]? = some (systems pc).shape)
    (hvalid : input.Valid SC)
    (haccepted : ∀ k < SC.numCircuits, Accepted c SC (SC.hint input.i input.z_i) k input (hash c (body c SC (SC.hint input.i input.z_i) k input).value.1))
    (h : synthesize systems params input = .ok out) :
    out.2.2.1.toNat < SC.numCircuits ∧
      (SC.computeSelector (SC.hint input.i input.z_i) input.i input.z_i).value =
        out.2.2.1.toNat ∧
      (∃ shape, params.shapes[out.2.2.1.toNat]? = some shape ∧
        Satisfied c.C1 shape out.1 out.2.1 params.pp) ∧
      out.1.X = [1, hash c
        (body c SC (SC.hint input.i input.z_i) out.2.2.1.toNat input).value.1] ∧
      out.2.2.2 = (SC.generateConstraints (SC.hint input.i input.z_i) out.2.2.1.toNat input.i
        input.z_i).value := by
  obtain ⟨pc_value, hpc_value, hrest⟩ := bind_eq_ok.mp h
  split at hrest
  · rename_i hlt
    obtain rfl := Except.ok.inj hrest
    rw [fieldToU64] at hpc_value
    split at hpc_value
    · rename_i hval
      obtain rfl := Except.ok.inj hpc_value
      refine ⟨hlt, ?_, ⟨_, hshapes ⟨_, hlt⟩, ?_⟩, rfl, rfl⟩
      · have hcast : (UInt64.ofNat (SC.computeSelector (SC.hint input.i input.z_i) input.i
            input.z_i).value.val).toNat = _ := UInt64.toNat_ofNat_of_lt hval
        rw [hcast, ZMod.natCast_zmod_val]
      · exact ((systems ⟨_, hlt⟩).satisfied_iff c.C1 params.pp hvalid _).mpr
          (holds_iff.mpr (haccepted _ hlt))
    · cases hpc_value
  · cases hrest

variable {z_0 : List (ZMod n)}

variable {m : ℕ}

/-- What a step returns after its synthesis. -/
theorem Ready.honest (habsorb : AbsorbsAppend c.ro)
    (hshapes : ∀ pc : Fin SC.numCircuits, params.shapes[(pc : ℕ)]? = some (systems pc).shape)
    {prepared : Prepared n b G1 G2} (h : Ready c SC params z_0 m prepared)
    (hout : synthesize systems params prepared.input = .ok out) :
    Honest c SC params z_0 (m + 1) ⟨prepared.U, prepared.W, prepared.U_secondary,
      prepared.W_secondary, out.1, out.2.1, prepared.i_next, out.2.2.1, out.2.2.2⟩ := by
  obtain ⟨hpc, hselector, hstrict, hX, hout_z⟩ :=
    synthesize_eq_ok hshapes h.valid h.accepted hout
  constructor
  · exact h.slots
  · rw [h.slots.hash_eq habsorb hshapes, hX, List.getD_cons_succ, List.getD_cons_zero, h.absorbed,
      hselector, h.i_next, hout_z]
  · exact hstrict
  · rw [hX]
    rfl
  · rw [hX]
    exact Nat.one_lt_two
  · exact hpc
  · exact h.i_next
  · rw [hout_z]
    exact SC.length_value _ _ _ _ h.valid.z_i

/-! ## Preparation and runs -/

/-- What an allocated input is, and when its allocation does not panic. -/
theorem allocInput_eq_ok {vk i pc : ZMod n} {z_0 z_i : List (ZMod n)}
    {U : List (Option (RelaxedR1CSInstance (ZMod n) G1))}
    {U_secondary : List (Option (RelaxedR1CSInstance (ZMod b) G2))} {u : R1CSInstance (ZMod n) G1}
    {proof : NIMFSProof b G1 G2} :
    allocInput c vk i pc z_0 z_i U U_secondary u proof = .ok input ↔ u.X.head? = some 1 ∧
      input = ⟨vk, i, pc, z_0, z_i, U.map (allocAcc c), U_secondary.map allocAccSecondary,
        strictMap c.cycle.affine1 u, c.cycle.affine1 proof.commitment_T,
        (allocProof proof.commitment_E_proof.1, allocProof proof.commitment_W_proof),
        (List.range U.length).map fun k : ℕ => decide (pc = (k : ZMod n))⟩ := by
  simp only [allocInput, bind_eq_ok, allocNode_eq_ok, Except.ok.injEq]
  constructor
  · rintro ⟨_, ⟨hone, rfl⟩, rfl⟩
    exact ⟨hone, rfl⟩
  · rintro ⟨hone, rfl⟩
    exact ⟨_, ⟨hone, rfl⟩, rfl⟩

/-- The allocated bits are those of the circuit. -/
theorem bits_eq_indicator {numCircuits pc : ℕ} (hn : numCircuits ≤ n) (hpc : pc < numCircuits) :
    ((List.range numCircuits).map fun k : ℕ => decide ((pc : ZMod n) = (k : ZMod n))) =
      indicator numCircuits pc := by
  apply List.map_congr_left
  intro k hk
  have hlt := List.mem_range.mp hk
  apply decide_eq_decide.mpr
  constructor
  · intro h
    have hval := congrArg ZMod.val h
    rw [ZMod.val_cast_of_lt (hpc.trans_le hn), ZMod.val_cast_of_lt (hlt.trans_le hn)] at hval
    exact hval.symm
  · intro h
    rw [h]

variable (params) in
/-- The first step has no accumulator. -/
theorem exists_prepare_new (hnum : SC.numCircuits ≤ n) (hSC : SC.Complete)
    (hz : z_0.length = SC.arity) :
    ∃ prepared, prepare c SC.numCircuits params (.new z_0) = .ok prepared ∧
      Ready c SC params z_0 0 prepared ∧ prepared.U = List.replicate SC.numCircuits none := by
  have hbits : ((List.range SC.numCircuits).map fun k : ℕ => decide ((0 : ZMod n) = (k : ZMod n))) =
      indicator SC.numCircuits 0 := by
    rw [← bits_eq_indicator hnum SC.numCircuits_pos, Nat.cast_zero]
  have hinput : allocInput c params.digest 0 0 z_0 z_0 (List.replicate SC.numCircuits none)
      (List.replicate SC.numCircuits none)
      ⟨0, List.replicate augmentedCircuitNumIo 1⟩ .default =
      .ok (newInput c SC params.digest z_0) := by
    rw [allocInput_eq_ok, List.map_replicate, List.map_replicate, List.length_replicate, hbits]
    exact ⟨rfl, rfl⟩
  have hvalid : (newInput c SC params.digest z_0).Valid SC := valid_newInput hz
  refine ⟨_, bind_eq_ok.mpr ⟨_, hinput, rfl⟩, ?_, rfl⟩
  constructor
  · exact slots_replicate c SC.numCircuits params
  · rfl
  · exact Nat.cast_zero.symm
  · exact hvalid
  · intro k hk
    exact accepted_newInput hSC hz hk rfl
  · intro k
    rw [value_body_zero c _ k hvalid rfl, List.map_replicate, List.map_replicate, Nat.cast_add,
      Nat.cast_zero, Nat.cast_one]
    rfl

/-- Native accumulators that are selected by the bits of their circuit. -/
theorem select_alloc {f : Option α → T} {entries : List (Option α)} {numCircuits k : ℕ}
    (hlen : entries.length = numCircuits) (hk : k < numCircuits) {entry : Option α}
    (hget : entries[k]? = some entry) {a : α} (hf : f (some a) = f none) (default : T) :
    select (indicator numCircuits k) (entries.map f)
      ((entries.map f).headD default) = f (some (entry.getD a)) := by
  have hlen' : (entries.map f).length = (indicator numCircuits k).length := by
    rw [List.length_map, hlen, length_indicator]
  have hhead : (entries.map f).head? = some ((entries.map f).headD default) := by
    cases hmap : entries.map f with
    | nil =>
        rw [hmap, length_indicator] at hlen'
        rw [← hlen'] at hk
        exact absurd hk (Nat.not_lt_zero k)
    | cons v vals => rfl
  have hselect := select_oneHot (oneHot_indicator hk) hlen' hhead
  rw [List.getElem?_map, hget, Option.map_some, Option.some.injEq] at hselect
  rw [hselect, apply_some_getD hf]

/-- A later step folds its instance into the accumulator of the circuit. -/
theorem Honest.exists_prepare (hnum : SC.numCircuits ≤ n) (hn : 2 ^ 64 ≤ n) (hb : 2 ^ 127 ≤ b)
    (habsorb : AbsorbsAppend c.ro)
    (hshapes : ∀ pc : Fin SC.numCircuits, params.shapes[(pc : ℕ)]? = some (systems pc).shape)
    (hSC : SC.Complete) (hz : z_0.length = SC.arity) (hm : 1 ≤ m) (hlt : m + 1 < 2 ^ 64)
    (h : Honest c SC params z_0 m non_base) :
    ∃ prepared U, prepare c SC.numCircuits params ⟨z_0, some non_base⟩ = .ok prepared ∧
      Ready c SC params z_0 m prepared ∧
      prepared.U = non_base.U.set non_base.pc.toNat (some U) := by
  obtain ⟨shape, hshape, hstrict⟩ := h.strict
  obtain ⟨shape', hshape', hnumIo⟩ := shape_of_systems hshapes h.pc
  obtain rfl := Option.some.inj (hshape.symm.trans hshape')
  obtain ⟨U, W, U_secondary, W_secondary, hU, hW, hU_secondary, hW_secondary, hprimary,
    hsecondary⟩ := (h.slots.slot _ h.pc).exists_get hshape
  obtain ⟨fold, node, hfold, hnode, hallocated, hsat, hsat_secondary⟩ :=
    exists_allocatedFold params.digest hb hnumIo hprimary hsecondary hstrict h.one
  obtain ⟨-, rfl⟩ := allocNode_eq_ok.mp hnode
  -- the inserted accumulators are allocated as the missing ones
  have hf : allocAcc c (some (newInstance shape)) = allocAcc c none := by
    rw [newInstance, hnumIo]
    rfl
  have hf_secondary : allocAccSecondary (some (newInstance c.secondary.shape)) =
      (allocAccSecondary none : RelaxedSecondaryVar b G2) := by
    rw [newInstance, c.secondary.numIo]
    rfl
  have hbits := bits_eq_indicator hnum h.pc
  let input : InputVar n b G2 :=
    ⟨params.digest, non_base.i.toNat, non_base.pc.toNat, z_0, non_base.z_i,
      non_base.U.map (allocAcc c), non_base.U_secondary.map allocAccSecondary,
      strictMap c.cycle.affine1 non_base.u, c.cycle.affine1 fold.proof.commitment_T,
      (allocProof fold.proof.commitment_E_proof.1, allocProof fold.proof.commitment_W_proof),
      indicator SC.numCircuits non_base.pc.toNat⟩
  have hinput : allocInput c params.digest non_base.i.toNat non_base.pc.toNat z_0 non_base.z_i
      (non_base.U.set non_base.pc.toNat (some (U.getD (newInstance shape))))
      (non_base.U_secondary.set non_base.pc.toNat
        (some (U_secondary.getD (newInstance c.secondary.shape)))) non_base.u fold.proof =
      .ok input := by
    rw [allocInput_eq_ok, map_set_getD hU hf, map_set_getD hU_secondary hf_secondary,
      List.length_set, h.slots.lengthU, hbits]
    exact ⟨h.one, rfl⟩
  obtain ⟨hlengthU, hlengthU_secondary⟩ :=
    h.slots.length_alloc fun k hk => shape_of_systems hshapes hk
  have hvalid : input.Valid SC := by
    constructor
    · exact hz
    · exact h.z_i
    · exact (List.length_map _).trans h.slots.lengthU
    · exact (List.length_map _).trans h.slots.lengthU_secondary
    · exact hlengthU
    · exact hlengthU_secondary
    · exact hallocated.valid.u
    · exact hallocated.valid.one
    · exact hallocated.valid.proof_E
    · exact hallocated.valid.proof_W
    · exact length_indicator _ _
  have hi : input.i ≠ 0 := by
    show ((non_base.i.toNat : ℕ) : ZMod n) ≠ 0
    rw [h.i, Ne, ZMod.natCast_eq_zero_iff]
    intro hdvd
    have := Nat.le_of_dvd hm hdvd
    omega
  have hfolded : ∀ should_enforce, input.fold c should_enforce =
      ⟨(relaxedMap c.cycle.affine1 fold.U, fold.U_secondary), True⟩ := by
    intro should_enforce
    rw [← hallocated.fold should_enforce, InputVar.fold, NodeVar.fold]
    show c.multifold params.digest
      (select _ (non_base.U.map (allocAcc c)) ((non_base.U.map (allocAcc c)).headD _))
      (select _ (non_base.U_secondary.map allocAccSecondary)
        ((non_base.U_secondary.map allocAccSecondary).headD _)) _ _ _ _ = _
    rw [select_alloc h.slots.lengthU h.pc hU hf,
      select_alloc h.slots.lengthU_secondary h.pc hU_secondary hf_secondary]
    rfl
  have hsucc : (saturatingSucc non_base.i).toNat = m + 1 := by
    rw [saturatingSucc_toNat, h.i]
    omega
  refine ⟨_, fold.U, bind_eq_ok.mpr ⟨shape, index_eq_ok.mpr hshape, bind_eq_ok.mpr ⟨U,
    index_eq_ok.mpr hU, bind_eq_ok.mpr ⟨W, index_eq_ok.mpr hW, bind_eq_ok.mpr ⟨U_secondary,
    index_eq_ok.mpr hU_secondary, bind_eq_ok.mpr ⟨W_secondary, index_eq_ok.mpr hW_secondary,
    bind_eq_ok.mpr ⟨fold, hfold, bind_eq_ok.mpr ⟨input, hinput, rfl⟩⟩⟩⟩⟩⟩⟩, ?_, rfl⟩
  constructor
  · exact h.slots.set hshape hsat hsat_secondary
  · exact hsucc
  · exact congrArg Nat.cast h.i
  · exact hvalid
  · intro k hk
    constructor
    · intro hzero
      exact absurd hzero hi
    · exact hSC.selector _ _ hvalid.z_i
    · exact hSC.step _ _ _ hk hvalid.z_i
    · intro _
      exact (h.slots.hash_eq habsorb hshapes z_0).symm.trans h.hash
    · exact holds_indicator h.pc
    · rw [hfolded]
      trivial
    · rfl
  · intro k
    have hone := oneHot_indicator h.pc
    have hlen := hvalid.lengthU.trans hvalid.bits.symm
    have hlen_secondary := hvalid.lengthU_secondary.trans hvalid.bits.symm
    rw [value_body_nonzero c (SC.hint input.i input.z_i) k hvalid hi, hfolded,
      insert_oneHot hone hlen, insert_oneHot hone hlen_secondary, List.map_set, List.map_set,
      Nat.cast_succ, ← h.i]
    rfl

/-- The step that a preparation leads to. -/
theorem proveStep_eq_ok {proof next : NIVCProof n b G1 G2} :
    proveStep systems params proof = .ok next ↔
      ∃ prepared, prepare c SC.numCircuits params proof = .ok prepared ∧
        ∃ out, synthesize systems params prepared.input = .ok out ∧
          next = ⟨proof.z_0, some ⟨prepared.U, prepared.W, prepared.U_secondary,
            prepared.W_secondary, out.1, out.2.1, prepared.i_next, out.2.2.1, out.2.2.2⟩⟩ := by
  simp only [proveStep, bind_eq_ok, Except.ok.injEq]
  constructor
  · rintro ⟨prepared, hprepared, out, hout, rfl⟩
    exact ⟨prepared, hprepared, out, hout, rfl⟩
  · rintro ⟨prepared, hprepared, out, hout, rfl⟩
    exact ⟨prepared, hprepared, out, hout, rfl⟩

/-- No accumulator is missing before one that is present. -/
def NoGap {α : Type} (entries : List (Option α)) : Prop :=
  ∀ k : ℕ, (∃ a, entries[k]? = some (some a)) → ∀ j < k, ∃ a, entries[j]? = some (some a)

/-- The next step leaves no gap: all circuits before that of the last instance have
accumulators. -/
def InOrder (proof : NIVCProof n b G1 G2) : Prop :=
  ∀ non_base ∈ proof.non_base, ∀ j < non_base.pc.toNat, ∃ U, non_base.U[j]? = some (some U)

theorem NoGap.set {α : Type} {entries : List (Option α)} (h : NoGap entries) {idx : ℕ} {a : α}
    (hidx : ∀ j < idx, ∃ a, entries[j]? = some (some a)) : NoGap (entries.set idx (some a)) := by
  have hset : ∀ j : ℕ, (∃ a, entries[j]? = some (some a)) →
      ∃ a', (entries.set idx (some a))[j]? = some (some a') := by
    rintro j ⟨a', ha'⟩
    by_cases hj : idx = j
    · subst hj
      exact ⟨a, List.getElem?_set_self (List.getElem?_eq_some_iff.mp ha').1⟩
    · exact ⟨a', by rw [List.getElem?_set_ne hj, ha']⟩
  rintro k ⟨a', ha'⟩ j hj
  apply hset
  by_cases hk : idx = k
  · subst hk
    exact hidx j hj
  · rw [List.getElem?_set_ne hk] at ha'
    exact h k ⟨a', ha'⟩ j hj

/-- Runs of the prover keep the invariant; while they use the circuits in order, they leave no
gap. -/
theorem proveSteps_honest (hnum : SC.numCircuits ≤ n) (hn : 2 ^ 64 ≤ n) (hb : 2 ^ 127 ≤ b)
    (habsorb : AbsorbsAppend c.ro)
    (hshapes : ∀ pc : Fin SC.numCircuits, params.shapes[(pc : ℕ)]? = some (systems pc).shape)
    (hSC : SC.Complete) (hz : z_0.length = SC.arity) (hm : 1 ≤ m) (hlt : m < 2 ^ 64)
    {proof : NIVCProof n b G1 G2} (hrun : proveSteps systems params z_0 m = .ok proof) :
    ∃ non_base, proof = ⟨z_0, some non_base⟩ ∧ Honest c SC params z_0 m non_base ∧
      ((∀ t < m, ∀ prev, proveSteps systems params z_0 t = .ok prev → InOrder prev) →
        NoGap non_base.U) := by
  induction m, hm using Nat.le_induction generalizing proof with
  | base =>
      obtain ⟨prepared, hprepared, hready, hU⟩ :=
        exists_prepare_new (c := c) params hnum hSC hz
      obtain ⟨_, hprepared', out, hout, rfl⟩ := proveStep_eq_ok.mp hrun
      obtain rfl := Except.ok.inj (hprepared.symm.trans hprepared')
      refine ⟨_, rfl, hready.honest habsorb hshapes hout, ?_⟩
      rintro - k ⟨U, hk⟩
      rw [hU, List.getElem?_replicate] at hk
      split_ifs at hk
      cases hk
  | succ m hm ih =>
      obtain ⟨proof', hproof', hstep⟩ := bind_eq_ok.mp hrun
      obtain ⟨non_base, rfl, hhonest, hgap⟩ := ih (by omega) hproof'
      obtain ⟨prepared, U, hprepared, hready, hU⟩ :=
        hhonest.exists_prepare hnum hn hb habsorb hshapes hSC hz hm hlt
      obtain ⟨_, hprepared', out, hout, rfl⟩ := proveStep_eq_ok.mp hstep
      obtain rfl := Except.ok.inj (hprepared.symm.trans hprepared')
      refine ⟨_, rfl, hready.honest habsorb hshapes hout, ?_⟩
      intro horder
      show NoGap prepared.U
      rw [hU]
      apply NoGap.set
      · exact hgap fun t ht => horder t (by omega)
      · exact horder m (Nat.lt_succ_self m) _ hproof' non_base rfl

/-- Runs return if the selector always chooses one of the circuits. -/
theorem exists_proveSteps (hnum : SC.numCircuits < 2 ^ 64) (hn : 2 ^ 64 ≤ n) (hb : 2 ^ 127 ≤ b)
    (habsorb : AbsorbsAppend c.ro)
    (hshapes : ∀ pc : Fin SC.numCircuits, params.shapes[(pc : ℕ)]? = some (systems pc).shape)
    (hSC : SC.Complete) (hz : z_0.length = SC.arity)
    (hselector : ∀ i z, z.length = SC.arity → (SC.computeSelector (SC.hint i z) i z).value.val < SC.numCircuits)
    (hlt : m < 2 ^ 64) : ∃ proof, proveSteps systems params z_0 m = .ok proof := by
  have hle : SC.numCircuits ≤ n := hnum.le.trans hn
  induction m with
  | zero => exact ⟨_, rfl⟩
  | succ m ih =>
      obtain ⟨proof, hproof⟩ := ih (by omega)
      have hstep : ∃ next, proveStep systems params proof = .ok next := by
        rcases m.eq_zero_or_pos with rfl | hm
        · obtain rfl := Except.ok.inj hproof
          obtain ⟨prepared, hprepared, hready, -⟩ :=
            exists_prepare_new (c := c) params hle hSC hz
          obtain ⟨out, hout⟩ := exists_synthesize systems params hnum
            (hselector _ _ hready.valid.z_i)
          exact ⟨_, proveStep_eq_ok.mpr ⟨prepared, hprepared, out, hout, rfl⟩⟩
        · obtain ⟨non_base, rfl, hhonest, -⟩ := proveSteps_honest hle hn hb habsorb hshapes hSC hz
            hm (by omega) hproof
          obtain ⟨prepared, U, hprepared, hready, -⟩ :=
            hhonest.exists_prepare hle hn hb habsorb hshapes hSC hz hm hlt
          obtain ⟨out, hout⟩ := exists_synthesize systems params hnum
            (hselector _ _ hready.valid.z_i)
          exact ⟨_, proveStep_eq_ok.mpr ⟨prepared, hprepared, out, hout, rfl⟩⟩
      obtain ⟨next, hnext⟩ := hstep
      exact ⟨next, bind_eq_ok.mpr ⟨proof, hproof, hnext⟩⟩

end Runs

end NexusVm.Nova.Circuits.Supernova
