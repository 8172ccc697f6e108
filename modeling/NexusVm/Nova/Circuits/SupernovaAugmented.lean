import NexusVm.Nova.Circuits.StepCircuit
import NexusVm.Nova.Cyclefold.Absorb

/-!
# The augmented circuit of a non-uniform step

`nova/src/circuits/supernova/augmented.rs`.  A step runs one of several circuits.  The instance of
the previous step is folded into the accumulator of its own circuit, which is selected by bits.
-/

namespace NexusVm.Nova.Circuits.Supernova

open R1cs Cyclefold Synth

/-- `NonUniformCircuit`, with the values that it allocates and those that the prover allocates. -/
structure NonUniformCircuit (F : Type) where
  arity : ℕ
  numCircuits : ℕ
  numCircuits_pos : 0 < numCircuits
  Aux : Type
  hint : F → List F → Aux
  computeSelector : Aux → F → List F → Synth F
  generateConstraints : Aux → ℕ → F → List F → Synth (List F)
  length_value : ∀ aux pc i z, z.length = arity →
    (generateConstraints aux pc i z).value.length = arity

section Selector

variable {F T : Type} [Semiring F]

/-- The constraints of `SelectorBits::new` on allocated bits. -/
def selectorBits (bits : List Bool) (pc : F) : Synth Unit := do
  enforce ((bits.map fun bit => if bit then (1 : F) else 0).sum = 1)
  enforce ((bits.zipIdx.map fun bit => if bit.1 then (bit.2 : F) else 0).sum = pc)

/-- `SelectorBits::select`; the first value needs no bit. -/
def select (bits : List Bool) (vals : List T) (first : T) : T :=
  ((vals.zip bits).drop 1).foldl (fun val v => if v.2 then v.1 else val) first

/-- `SelectorBits::insert`. -/
def insert (bits : List Bool) (vals : List T) (ival : T) : List T :=
  List.zipWith (fun val bit => if bit then ival else val) vals bits

/-- The bits of the circuit `k`. -/
def OneHot (bits : List Bool) (k : ℕ) : Prop := k < bits.length ∧ ∀ j, bits[j]? = some true ↔ j = k

theorem sum_bits (bits : List Bool) :
    (bits.map fun bit => if bit then (1 : F) else 0).sum = bits.count true := by
  induction bits with
  | nil => simp
  | cons bit bits ih =>
      rw [List.map_cons, List.sum_cons, ih, List.count_cons]
      cases bit with
      | false => simp
      | true => simp [add_comm]

variable {bits : List Bool}

/-- Without a bit there is no value. -/
theorem value_zero (h : bits.count true = 0) (s : ℕ) :
    ((bits.zipIdx s).map fun bit => if bit.1 then (bit.2 : F) else 0).sum = 0 := by
  apply List.sum_eq_zero
  intro x hx
  obtain ⟨⟨bit, i⟩, hmem, rfl⟩ := List.mem_map.mp hx
  cases bit with
  | false => rfl
  | true => exact absurd (List.fst_mem_of_mem_zipIdx hmem) (List.count_eq_zero.mp h)

/-- One bit is that of its position. -/
theorem exists_oneHot (h : bits.count true = 1) : ∃ k, OneHot bits k ∧ ∀ s,
    ((bits.zipIdx s).map fun bit => if bit.1 then (bit.2 : F) else 0).sum = ((s + k : ℕ) : F) := by
  induction bits with
  | nil => cases h
  | cons bit bits ih =>
      cases bit with
      | true =>
          rw [List.count_cons_self, Nat.add_eq_right] at h
          refine ⟨0, ⟨Nat.succ_pos _, fun j => ?_⟩, fun s => ?_⟩
          · cases j with
            | zero => exact iff_of_true rfl rfl
            | succ j =>
                rw [List.getElem?_cons_succ]
                refine iff_of_false (fun hj => ?_) j.succ_ne_zero
                exact List.count_eq_zero.mp h (List.mem_of_getElem? hj)
          · rw [List.zipIdx_cons, List.map_cons, List.sum_cons, value_zero h, add_zero]
            rfl
      | false =>
          rw [List.count_cons_of_ne Bool.false_ne_true] at h
          obtain ⟨k, ⟨hlt, hbits⟩, hsum⟩ := ih h
          refine ⟨k + 1, ⟨Nat.succ_lt_succ hlt, fun j => ?_⟩, fun s => ?_⟩
          · cases j with
            | zero => exact iff_of_false (by simp) (Nat.succ_ne_zero k).symm
            | succ j => rw [List.getElem?_cons_succ, hbits, Nat.add_right_cancel_iff]
          · rw [List.zipIdx_cons, List.map_cons, List.sum_cons, hsum, Nat.add_right_comm]
            exact zero_add _

variable {vals : List T}

/-- A value that is inserted replaces one other value. -/
theorem insert_getElem? {k : ℕ} (h : OneHot bits k) (hlen : vals.length = bits.length) (ival : T)
    {j : ℕ} (hj : j ≠ k) :
    (insert bits vals ival)[j]? = vals[j]? := by
  rw [insert, List.getElem?_zipWith]
  cases hval : vals[j]? with
  | none => rfl
  | some val =>
      have hlt : j < bits.length := hlen ▸ (List.getElem?_eq_some_iff.mp hval).1
      have hbit : bits[j]? = some false := by
        rw [List.getElem?_eq_getElem hlt]
        cases hget : bits[j] with
        | false => rfl
        | true =>
            rw [← Option.some_inj, ← List.getElem?_eq_getElem hlt] at hget
            exact absurd ((h.2 j).mp hget) hj
      rw [hbit]
      rfl

theorem length_insert (hlen : vals.length = bits.length) (ival : T) :
    (insert bits vals ival).length = bits.length := by
  rw [insert, List.length_zipWith, hlen, min_self]

/-- Inserted values are old ones and the new one. -/
theorem mem_insert {ival val : T} (h : val ∈ insert bits vals ival) : val ∈ vals ∨ val = ival := by
  induction vals generalizing bits with
  | nil => cases h
  | cons first vals ih =>
      cases bits with
      | nil => cases h
      | cons bit bits =>
          rcases List.mem_cons.mp h with rfl | h
          · cases bit with
            | false => exact Or.inl List.mem_cons_self
            | true => exact Or.inr rfl
          · exact (ih h).imp_left (List.mem_cons_of_mem _)

/-- The selected value is one of the values. -/
theorem select_mem {first : T} (hfirst : first ∈ vals) :
    select bits vals first ∈ vals := by
  have hfold : ∀ (entries : List (T × Bool)) (val : T), val ∈ vals →
      (∀ entry ∈ entries, entry.1 ∈ vals) →
      entries.foldl (fun val v => if v.2 then v.1 else val) val ∈ vals := by
    intro entries
    induction entries with
    | nil => exact fun val hval _ => hval
    | cons entry entries ih =>
        intro val hval hall
        rw [List.forall_mem_cons] at hall
        rw [List.foldl_cons]
        apply ih _ _ hall.2
        split_ifs
        · exact hall.1
        · exact hval
  refine hfold _ first hfirst fun entry hentry => ?_
  exact (List.of_mem_zip (List.mem_of_mem_drop hentry)).1

end Selector

/-- No more bits than the characteristic that add up to one have one bit, that of the value. -/
theorem oneHot_of_charP {F : Type} [Field F] (c : ℕ) [CharP F c] {bits : List Bool} {pc : F}
    (hlen : bits.length ≤ c) (h : (selectorBits bits pc).holds) :
    ∃ k, OneHot bits k ∧ (k : F) = pc := by
  obtain ⟨hsum, hvalue⟩ : (bits.map fun bit => if bit then (1 : F) else 0).sum = 1 ∧
      (bits.zipIdx.map fun bit => if bit.1 then (bit.2 : F) else 0).sum = pc := h
  have hone : bits.count true = 1 := by
    have hc : c ≠ 1 := CharP.char_ne_one F c
    have hcount : bits.count true ≤ bits.length := List.count_le_length
    rw [sum_bits, ← Nat.cast_one, CharP.natCast_eq_natCast F c] at hsum
    -- the sum is one modulo the characteristic, and at most the characteristic
    rcases (hcount.trans hlen).lt_or_eq with hlt | heq
    · have hc' : 1 < c := by omega
      rwa [Nat.ModEq, Nat.mod_eq_of_lt hlt, Nat.mod_eq_of_lt hc'] at hsum
    · rw [heq, Nat.ModEq, Nat.mod_self] at hsum
      have hdvd := Nat.dvd_of_mod_eq_zero hsum.symm
      exact absurd (Nat.dvd_one.mp hdvd) hc
  obtain ⟨k, hbits, hk⟩ := exists_oneHot (F := F) hone
  refine ⟨k, hbits, ?_⟩
  rw [← hvalue, hk 0, zero_add]

/-- In a prime field fewer bits than elements are enough. -/
theorem oneHot_of_selectorBits {n : ℕ} [Fact n.Prime] {bits : List Bool} {pc : ZMod n}
    (hlen : bits.length < n) (h : (selectorBits bits pc).holds) :
    ∃ k, OneHot bits k ∧ (k : ZMod n) = pc :=
  oneHot_of_charP n hlen.le h

/-- `SuperNovaAugmentedCircuitInputVar`, with the selector bits. -/
structure InputVar (n b : ℕ) (G2 : Type) where
  vk : ZMod n
  i : ZMod n
  pc : ZMod n
  z_0 : List (ZMod n)
  z_i : List (ZMod n)
  U : List (RelaxedPrimaryVar n b)
  U_secondary : List (RelaxedSecondaryVar b G2)
  u : PrimaryVar n b
  commitment_T : AffinePoint (ZMod b)
  proof_secondary : Proof b G2 × Proof b G2
  bits : List Bool

/-- The vectors have the lengths that the circuit was set up with. -/
structure InputVar.Valid {n b : ℕ} {G2 : Type} (SC : NonUniformCircuit (ZMod n))
    (input : InputVar n b G2) : Prop where
  z_0 : input.z_0.length = SC.arity
  z_i : input.z_i.length = SC.arity
  lengthU : input.U.length = SC.numCircuits
  lengthU_secondary : input.U_secondary.length = SC.numCircuits
  U : ∀ U ∈ input.U, U.X.length = augmentedCircuitNumIo
  U_secondary : ∀ U ∈ input.U_secondary, U.X.length = secondaryNumIo
  u : input.u.X.length = augmentedCircuitNumIo
  one : input.u.X.head? = some 1
  proof_E : Setting.ProofSized input.proof_secondary.1
  proof_W : Setting.ProofSized input.proof_secondary.2
  bits : input.bits.length = SC.numCircuits

section Circuit

variable {n b : ℕ} {G1 G2 PP1 PP2 : Type} [Fact n.Prime] [Fact b.Prime] [AddCommGroup G1]
  [Module (ZMod n) G1] [AddCommGroup G2] [Module (ZMod b) G2]
  (c : Setting n b G1 G2 PP1 PP2) (SC : NonUniformCircuit (ZMod n))

/-- What is absorbed for the hash after `i` steps, with `pc` the circuit of the last one. -/
def transcript (vk i pc : ZMod n) (z_0 z_i : List (ZMod n)) (U : List (RelaxedPrimaryVar n b))
    (U_secondary : List (RelaxedSecondaryVar b G2)) : List (List (ZMod n)) :=
  [[vk], [i], [pc], z_0, z_i, U.flatMap relaxedElements,
    U_secondary.flatMap fun U => relaxedElementsSecondary (relaxedMap c.cycle.affine2 U)]

/-- The constraints up to the last sponge: what it absorbs, the next circuit and the output;
`pc_value` is the circuit that is run. -/
def body (aux : SC.Aux) (pc_value : ℕ) (input : InputVar n b G2) :
    Synth (List (List (ZMod n)) × ZMod n × List (ZMod n)) := do
  let is_base_case := decide (input.i = 0)
  let should_enforce := !is_base_case
  let base := baseAccumulators c
  (input.z_0.zip input.z_i).forM fun z => conditionalEnforceEqual z.1 z.2 is_base_case
  let pc_next ← SC.computeSelector aux input.i input.z_i
  let z_next ← SC.generateConstraints aux pc_value input.i input.z_i
  let hash := hash c
    (transcript c input.vk input.i input.pc input.z_0 input.z_i input.U input.U_secondary)
  conditionalEnforceEqual hash (input.u.X.getD 1 0) should_enforce
  selectorBits input.bits input.pc
  let U := select input.bits input.U (input.U.headD base.1)
  let U_secondary := select input.bits input.U_secondary (input.U_secondary.headD base.2)
  let fold ← c.multifold input.vk U U_secondary input.u input.commitment_T input.proof_secondary
    should_enforce
  let U_next := (insert input.bits input.U fold.1).map (selectRelaxed is_base_case base.1)
  let U_secondary_next :=
    (insert input.bits input.U_secondary fold.2).map (selectRelaxed is_base_case base.2)
  let i_next := input.i + 1
  return (transcript c input.vk i_next pc_next input.z_0 z_next U_next U_secondary_next, pc_next,
    z_next)

/-- `SuperNovaAugmentedCircuit::generate_constraints`; `hash_input` is the value of the public
input. -/
def generateConstraints (aux : SC.Aux) (pc_value : ℕ) (input : InputVar n b G2)
    (hash_input : ZMod n) : Synth (ZMod n × List (ZMod n)) := do
  let out ← body c SC aux pc_value input
  enforce (hash_input * 1 = hash c out.1)
  return out.2

variable {c SC} {aux : SC.Aux} {pc_value : ℕ} {input : InputVar n b G2} {hash_input : ZMod n}

variable (c) in
/-- The fold into the selected accumulators. -/
def InputVar.fold (input : InputVar n b G2) (should_enforce : Bool) :
    Synth (RelaxedPrimaryVar n b × RelaxedSecondaryVar b G2) :=
  c.multifold input.vk (select input.bits input.U (input.U.headD (baseAccumulators c).1))
    (select input.bits input.U_secondary (input.U_secondary.headD (baseAccumulators c).2)) input.u
    input.commitment_T input.proof_secondary should_enforce

/-- The constraints of a step, one by one. -/
structure Accepted (c : Setting n b G1 G2 PP1 PP2) (SC : NonUniformCircuit (ZMod n)) (aux : SC.Aux)
    (pc_value : ℕ) (input : InputVar n b G2) (hash_input : ZMod n) : Prop where
  base_z : input.i = 0 → ∀ z ∈ input.z_0.zip input.z_i, z.1 = z.2
  selector : (SC.computeSelector aux input.i input.z_i).holds
  step : (SC.generateConstraints aux pc_value input.i input.z_i).holds
  hash : input.i ≠ 0 → hash c (transcript c input.vk input.i input.pc input.z_0 input.z_i input.U
    input.U_secondary) = input.u.X.getD 1 0
  bits : (selectorBits input.bits input.pc).holds
  fold : (input.fold c !decide (input.i = 0)).holds
  hash_input : hash_input = Circuits.hash c (body c SC aux pc_value input).value.1

theorem holds_iff :
    (generateConstraints c SC aux pc_value input hash_input).holds ↔
      Accepted c SC aux pc_value input hash_input := by
  rw [generateConstraints, holds_hash]
  constructor
  · rintro ⟨hbody, hout⟩
    simp only [body, holds_bind, holds_forM, holds_conditionalEnforceEqual, holds_pure,
      decide_eq_true_eq, Bool.not_eq_true', decide_eq_false_iff_not, and_true] at hbody
    obtain ⟨hz, hselector, hstep, hhash, hbits, hfold⟩ := hbody
    exact ⟨fun hbase z hmem => hz z hmem hbase, hselector, hstep, hhash, hbits, hfold, hout⟩
  · intro h
    refine ⟨?_, h.hash_input⟩
    simp only [body, holds_bind, holds_forM, holds_conditionalEnforceEqual, holds_pure,
      decide_eq_true_eq, Bool.not_eq_true', decide_eq_false_iff_not, and_true]
    exact ⟨fun z hmem hbase => h.base_z hbase z hmem, h.selector, h.step, h.hash, h.bits, h.fold⟩

/-- The folded accumulators have the lengths of accumulators. -/
theorem InputVar.Valid.length_fold (h : input.Valid SC) (should_enforce : Bool) :
    (input.fold c should_enforce).value.1.X.length = augmentedCircuitNumIo ∧
      (input.fold c should_enforce).value.2.X.length = secondaryNumIo := by
  have hU : input.U.headD (baseAccumulators c).1 ∈ input.U := by
    cases hget : input.U with
    | nil =>
        have hlen := h.lengthU
        rw [hget] at hlen
        exact absurd hlen.symm SC.numCircuits_pos.ne'
    | cons U rest => exact List.mem_cons_self
  have hU_secondary : input.U_secondary.headD (baseAccumulators c).2 ∈ input.U_secondary := by
    cases hget : input.U_secondary with
    | nil =>
        have hlen := h.lengthU_secondary
        rw [hget] at hlen
        exact absurd hlen.symm SC.numCircuits_pos.ne'
    | cons U rest => exact List.mem_cons_self
  exact Setting.length_multifold (h.U _ (select_mem hU)) h.u
    (h.U_secondary _ (select_mem hU_secondary)) h.proof_E h.proof_W

/-- Accumulators that stay. -/
theorem map_selectRelaxed_false {F C : Type} {base : RelaxedR1CSInstance F C}
    {Us : List (RelaxedR1CSInstance F C)} (h : ∀ U ∈ Us, U.X.length = base.X.length) :
    Us.map (selectRelaxed false base) = Us := by
  refine (List.map_congr_left fun U hU => ?_).trans (List.map_id Us)
  rw [selectRelaxed_eq false (h U hU).symm]
  rfl

/-- Accumulators that are reset. -/
theorem map_selectRelaxed_true {F C : Type} {base : RelaxedR1CSInstance F C}
    {Us : List (RelaxedR1CSInstance F C)} (h : ∀ U ∈ Us, U.X.length = base.X.length) :
    Us.map (selectRelaxed true base) = List.replicate Us.length base := by
  refine (List.map_congr_left fun U hU => ?_).trans List.map_const'
  rw [selectRelaxed_eq true (h U hU).symm]
  rfl

/-- All accumulators after a fold have the lengths of accumulators. -/
theorem InputVar.Valid.insert (h : input.Valid SC) (should_enforce : Bool) :
    (∀ U ∈ insert input.bits input.U (input.fold c should_enforce).value.1,
      U.X.length = augmentedCircuitNumIo) ∧
      ∀ U ∈ Supernova.insert input.bits input.U_secondary (input.fold c should_enforce).value.2,
        U.X.length = secondaryNumIo := by
  obtain ⟨hlen, hlen_secondary⟩ := h.length_fold (c := c) should_enforce
  constructor
  · intro U hU
    rcases mem_insert hU with hU | rfl
    · exact h.U U hU
    · exact hlen
  · intro U hU
    rcases mem_insert hU with hU | rfl
    · exact h.U_secondary U hU
    · exact hlen_secondary

variable (c aux pc_value) in
/-- What the last sponge absorbs after the first step: all accumulators are reset. -/
theorem value_body_zero (h : input.Valid SC) (hi : input.i = 0) :
    (body c SC aux pc_value input).value.1 = transcript c input.vk (input.i + 1)
      (SC.computeSelector aux input.i input.z_i).value input.z_0
      (SC.generateConstraints aux pc_value input.i input.z_i).value
      (List.replicate SC.numCircuits (baseAccumulators c).1)
      (List.replicate SC.numCircuits (baseAccumulators c).2) := by
  obtain ⟨hU, hU_secondary⟩ := h.insert (c := c) false
  have hbase : (baseAccumulators c).1.X.length = augmentedCircuitNumIo := List.length_replicate
  have hbase_secondary : (baseAccumulators c).2.X.length = secondaryNumIo := List.length_replicate
  have hmap := map_selectRelaxed_true fun U hmem => (hU U hmem).trans hbase.symm
  have hmap_secondary :=
    map_selectRelaxed_true fun U hmem => (hU_secondary U hmem).trans hbase_secondary.symm
  rw [length_insert (h.lengthU.trans h.bits.symm), h.bits] at hmap
  rw [length_insert (h.lengthU_secondary.trans h.bits.symm), h.bits] at hmap_secondary
  simp only [body, value_bind, value_pure, decide_eq_true hi, Bool.not_true]
  rw [← hmap, ← hmap_secondary]
  rfl

variable (c aux pc_value) in
/-- What the last sponge absorbs after a later step: one accumulator of each kind is folded. -/
theorem value_body_nonzero (h : input.Valid SC) (hi : input.i ≠ 0) :
    let fold := (input.fold c true).value
    (body c SC aux pc_value input).value.1 = transcript c input.vk (input.i + 1)
      (SC.computeSelector aux input.i input.z_i).value input.z_0
      (SC.generateConstraints aux pc_value input.i input.z_i).value
      (Supernova.insert input.bits input.U fold.1)
      (Supernova.insert input.bits input.U_secondary fold.2) := by
  obtain ⟨hU, hU_secondary⟩ := h.insert (c := c) true
  have hbase : (baseAccumulators c).1.X.length = augmentedCircuitNumIo := List.length_replicate
  have hbase_secondary : (baseAccumulators c).2.X.length = secondaryNumIo := List.length_replicate
  have hmap := map_selectRelaxed_false fun U hmem => (hU U hmem).trans hbase.symm
  have hmap_secondary :=
    map_selectRelaxed_false fun U hmem => (hU_secondary U hmem).trans hbase_secondary.symm
  simp only [body, value_bind, value_pure, decide_eq_false hi, Bool.not_false]
  conv_rhs => rw [← hmap, ← hmap_secondary]
  rfl

/-! ## What the transcript determines -/

/-- Equal transcripts of accumulators of the right lengths have equal parts. -/
theorem transcript_injective (hn : 256 ≤ n) {vk vk' i i' pc pc' : ZMod n}
    {z_0 z_0' z_i z_i' : List (ZMod n)} {U U' : List (RelaxedPrimaryVar n b)}
    {U_secondary U_secondary' : List (RelaxedSecondaryVar b G2)} (hlen : U.length = U'.length)
    (hlen_secondary : U_secondary.length = U_secondary'.length)
    (hU : ∀ V ∈ U, V.X.length = augmentedCircuitNumIo)
    (hU' : ∀ V ∈ U', V.X.length = augmentedCircuitNumIo)
    (hU_secondary : ∀ V ∈ U_secondary, V.X.length = secondaryNumIo)
    (hU_secondary' : ∀ V ∈ U_secondary', V.X.length = secondaryNumIo)
    (h : transcript c vk i pc z_0 z_i U U_secondary =
      transcript c vk' i' pc' z_0' z_i' U' U_secondary') :
    vk = vk' ∧ i = i' ∧ pc = pc' ∧ z_0 = z_0' ∧ z_i = z_i' ∧ U = U' ∧
      U_secondary = U_secondary' := by
  simp only [transcript, List.cons.injEq, and_true] at h
  obtain ⟨hvk, hi, hpc, hz_0, hz_i, hprimary, hsecondary⟩ := h
  refine ⟨hvk, hi, hpc, hz_0, hz_i, ?_, ?_⟩
  · exact flatMap_injective (fun V W hV hW => length_relaxedElements (hV.trans hW.symm))
      (fun V W _ _ heq => relaxedElements_injective hn heq) hU hU' hlen hprimary
  · refine flatMap_injective
      (fun V W hV hW => length_relaxedElementsSecondary (hV.trans hW.symm))
      (fun V W hV hW heq => ?_) hU_secondary hU_secondary' hlen_secondary hsecondary
    exact relaxedMap_injective c.cycle.affine2_injective
      (relaxedElementsSecondary_injective hn (hV.trans hW.symm) heq)

end Circuit

end NexusVm.Nova.Circuits.Supernova
