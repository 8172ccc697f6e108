import NexusVm.Circuit.Free

/-!
# The step circuit does not depend on the witness

All witnesses build the same matrices with the same columns, and a build that
only computes values computes those of the full build.
-/

namespace NexusVm.Circuit

open NexusVm.Builder

section Matrices

variable {p : ℕ} [Fact p.Prime] {P Q : Type} [MemoryProof P p] [MemoryProof Q p]

theorem setType_eq {opc : ℕ} {ty : Ty} (h : typeOf opc = some ty) :
    (setType opc : Ops p) = setVar (.type ty) 1 := by
  simp only [setType, h]

/-- Each format has a column once all of them were set to zero. -/
theorem newVar_mem_typeBits (ty : Ty) : (.newVar (.type ty)) ∈ (typeBits : Ops p) := by
  cases ty <;> simp [typeBits, setBit, setBitFrom]

omit [MemoryProof P p] [MemoryProof Q p] in
/-- The part that depends on the format keeps the rows of two systems the same. -/
theorem sameRows_stepType {w : Witness P} {w' : Witness Q} {ty ty' : Ty}
    {cs cs₁ cs' cs₁' : R1CS Var (ZMod p)} (hty : typeOf (opcode w.inst).toNat = some ty)
    (hty' : typeOf (opcode w'.inst).toNat = some ty') (h : cs.SameRows cs')
    (hx : R1CS.run (stepType w) cs = some cs₁) (hy : R1CS.run (stepType w') cs' = some cs₁') :
    cs₁.SameRows cs₁' := by
  rw [stepType, R1CS.run_append, Option.bind_eq_some_iff] at hx hy
  rw [setType_eq hty] at hx
  rw [setType_eq hty'] at hy
  obtain ⟨cs₂, hx, hsx⟩ := hx
  obtain ⟨cs₂', hy, hsy⟩ := hy
  have hbits : Like Eq (typeBits : Ops p) typeBits :=
    like_flatMap fun ty _ => like_setBit uniform_eq
  have hmid := h.run hbits hx hy
  have hk := R1CS.isSome_vars_of_newVar sealFree_typeBits (Or.inr (newVar_mem_typeBits ty)) hx
  have hk' := R1CS.isSome_vars_of_newVar sealFree_typeBits (Or.inr (newVar_mem_typeBits ty')) hy
  exact ((R1CS.SameRows.of_known hk hsx).symm.trans hmid).trans (R1CS.SameRows.of_known hk' hsy)

/-- Two builds of the whole program. -/
theorem sameRows_step {w : Witness P} {w' : Witness Q} {cs cs' : R1CS Var (ZMod p)}
    (h : step w false = some cs) (h' : step w' false = some cs') : cs.SameRows cs' := by
  obtain ⟨ty, hty⟩ := exists_typeOf h
  obtain ⟨ty', hty'⟩ := exists_typeOf h'
  have hrun := run_of_step h
  have hrun' := run_of_step h'
  simp only [stepBody_eq, R1CS.run_append, Option.bind_eq_some_iff] at hrun hrun'
  obtain ⟨cs₁, hi, cs₂, hh, cs₃, ht, htail⟩ := hrun
  obtain ⟨cs₁', hi', cs₂', hh', cs₃', ht', htail'⟩ := hrun'
  have hinit : Like Eq (initCs w : Ops p) (initCs w') := like_initCs w w'
  have h₁ := R1CS.SameRows.run ⟨⟨rfl, rfl, rfl⟩, rfl, rfl, rfl, rfl⟩ hinit hi hi'
  have h₂ := h₁.run (like_stepHead uniform_eq w w') hh hh'
  have h₃ := sameRows_stepType hty hty' h₂ ht ht'
  exact h₃.run (like_stepTail uniform_eq w w') htail htail'

end Matrices

section WitnessOnly

variable {F : Type} [Field F]

theorem erase_memberRows (name : Var) (set : List ℕ) (i : ℕ) :
    erase (memberRows name set i : List (Op Var F)) = [] := by
  dsimp only [memberRows]
  split_ifs <;> rfl

theorem erase_member (name : Var) (k : ℕ) (set : List ℕ) :
    erase (member true name k set : List (Op Var F)) = erase (member false name k set) := by
  simp [member, memberBody, erase_memberRows, eqi, Op.isConstraint]

theorem erase_selector (name : Var) (n k : ℕ) :
    erase (selector true name n k : List (Op Var F)) = erase (selector false name n k) := by
  rw [selector, selector, erase_cons, erase_cons, erase_member]

theorem erase_loadArray (input output : Var) (arr : ℕ → Var) (size rs : ℕ) :
    erase (loadArray true input output arr size rs : List (Op Var F)) =
      erase (loadArray false input output arr size rs) := by
  have hrows : erase ((List.range size).map fun i => mul (.rsx i) (.is input i) (arr i) :
      List (Op Var F)) = [] := erase_map fun _ _ => rfl
  simp [loadArray, loadArrayBody, erase_selector, hrows, sumRow, Op.isConstraint]

theorem erase_storeReg (input output : Var) (rs : ℕ) :
    erase (storeReg true input output rs : List (Op Var F)) =
      erase (storeReg false input output rs) := by
  simp [storeReg, storeRegBody, erase_selector, mul, add, Op.isConstraint]

variable {p : ℕ} [Fact p.Prime] {P : Type}

theorem erase_parseOpc (inst : U32) :
    erase (parseOpc true inst : Ops p) = erase (parseOpc false inst) := by
  simp [parseOpc, parseOpcBody, parseOpcRows, erase_member, add, sumRow, Op.isConstraint]

theorem erase_parseImm (inst : U32) :
    erase (parseImm true inst : Ops p) = erase (parseImm false inst) := by
  simp [parseImm, parseImmBody, parseImmRows, erase_selector, add, mul, addi, sumRow, immRow,
    Op.isConstraint]

theorem erase_parseShamt (Y : U32) :
    erase (parseShamt true Y : Ops p) = erase (parseShamt false Y) := by
  simp [parseShamt, parseShamtBody, add, mul, Op.isConstraint]

theorem erase_alu (w : Witness P) : erase (alu true w : Ops p) = erase (alu false w) := by
  simp only [alu, shift, erase_append, erase_selector]

theorem erase_choose (result bit yes no : Var) :
    erase (choose true result bit yes no : Ops p) = erase (choose false result bit yes no) := by
  simp [choose, Op.isConstraint]

theorem erase_loadWidths (addrName name : Var) (widths : List ℕ) (addr count : ℕ) :
    erase (loadWidths true addrName name widths addr count : Ops p) =
      erase (loadWidths false addrName name widths addr count) := by
  induction widths generalizing addr count with
  | nil => rfl
  | cons width widths ih => rw [loadWidths, loadWidths, erase_append, erase_append,
      erase_loadArray, ih]

theorem erase_loadSelect (addrName name : Var) (addr : U32) :
    erase (loadSelect true addrName name addr false : Ops p) =
      erase (loadSelect false addrName name addr false) := by
  simp only [loadSelect, erase_append, erase_choose, erase_loadWidths, Bool.false_eq_true, if_false]

theorem erase_sx (n : ℕ) (output input : Var) :
    erase (sx true n output input : Ops p) = erase (sx false n output input) := by
  simp [sx, Op.isConstraint]

theorem erase_load (w : Witness P) : erase (load true w : Ops p) = erase (load false w) := by
  simp only [load, sx8, sx16, erase_append, erase_loadSelect, erase_sx]

theorem erase_storeUnit (J width : ℕ) (a b : List (Term Var (ZMod p))) :
    erase (storeUnit true J width a b) = erase (storeUnit false J width a b) := by
  simp [storeUnit, mul, Op.isConstraint]

theorem erase_store (w : Witness P) : erase (store true w : Ops p) = erase (store false w) := by
  simp only [store, storeWord, storeHalf, storeByte, erase_append, erase_loadSelect,
    erase_storeUnit]

/-- The two kinds of build make the same calls but for the constraints. -/
theorem erase_stepBody (w : Witness P) :
    erase (stepBody w true : Ops p) = erase (stepBody w false) := by
  have hxy : erase (selectXY true w.rs1 w.rs2 : Ops p) = erase (selectXY false w.rs1 w.rs2) := by
    simp only [selectXY, loadReg, erase_append, erase_loadArray]
  have hz : erase (selectZ true w.rd : Ops p) = erase (selectZ false w.rd) := by
    simp only [selectZ, erase_append, erase_storeReg]
  have hflat : ∀ gs : List (Ops p), erase gs.flatten = (gs.map erase).flatten := by
    intro gs
    induction gs with
    | nil => rfl
    | cons g gs ih => rw [List.flatten_cons, erase_append, ih, List.map_cons, List.flatten_cons]
  rw [stepBody, stepBody, hflat, hflat]
  simp only [stepGadgets, List.map_cons, List.map_nil, hxy, hz, erase_parseOpc, erase_parseImm,
    erase_parseShamt, erase_alu, erase_load, erase_store]

variable [MemoryProof P p]

/-- A build of an instruction with a format. -/
theorem map_w_step {w : Witness P} {ty : Ty} (hty : typeOf (opcode w.inst).toNat = some ty) :
    (step w true : Option (R1CS Var (ZMod p))).map R1CS.w = (step w false).map R1CS.w := by
  obtain ⟨S, hS, -⟩ := exists_steps hty
  rw [Scope.steps_append, Option.bind_eq_some_iff] at hS
  obtain ⟨S₁, hinit, hbody⟩ := hS
  rw [step, step]
  cases hrun : R1CS.run (initCs w) { (default : R1CS Var (ZMod p)) with arity := arity } with
  | none => simp only [Option.bind_none, Option.map_none]
  | some cs =>
      have hm := (matches_empty arity).run hinit hrun
      have hq : { cs with witnessOnly := false } = cs := by
        rw [← show cs.witnessOnly = false from R1CS.run_witnessOnly hrun]
      have hsame : cs.SameValues { cs with witnessOnly := true } := ⟨rfl, rfl, rfl⟩
      have hvalues := hm.run_values (Scope.tidy_empty.steps hinit) hbody hsame
      rw [Option.bind_some, Option.bind_some, hq, hvalues, ← erase_stepBody,
        R1CS.run_erase rfl]

end WitnessOnly

/-! ## The two results -/

section Independent

variable {p : ℕ} [Fact p.Prime] {P : Type} [MemoryProof P p]

/-- **Witness independence.**  The circuits of any two witnesses have the same
matrices and the same columns, and a witness-only build computes the same values
as the full build, or panics as it does. -/
theorem step_independent :
    (∀ (w₁ w₂ : Witness P) (cs₁ cs₂ : R1CS Var (ZMod p)), step w₁ false = some cs₁ →
      step w₂ false = some cs₂ →
      cs₁.a = cs₂.a ∧ cs₁.b = cs₂.b ∧ cs₁.c = cs₂.c ∧ cs₁.vars = cs₂.vars) ∧
    ∀ w : Witness P,
      (step w true : Option (R1CS Var (ZMod p))).map R1CS.w = (step w false).map R1CS.w := by
  refine ⟨fun w₁ w₂ cs₁ cs₂ h₁ h₂ => ?_, fun w => ?_⟩
  · have h := sameRows_step h₁ h₂
    exact ⟨h.a, h.b, h.c, h.vars⟩
  · cases hty : typeOf (opcode w.inst).toNat with
    | some ty => exact map_w_step hty
    | none =>
        have hnone : ∀ wo, (step w wo : Option (R1CS Var (ZMod p))) = none := by
          intro wo
          cases hs : step w wo with
          | none => rfl
          | some cs =>
              obtain ⟨ty, hty'⟩ := exists_typeOf hs
              rw [hty] at hty'
              cases hty'
        rw [hnone, hnone]

/-- The idle step, whose circuit is built, and any other witness. -/
theorem step_independent_idle :
    ∃ cs : R1CS Var (ZMod prime521), step (idle : Draft prime521).witness false = some cs ∧
      (step (idle : Draft prime521).witness true).map R1CS.w = some cs.w ∧
      ∀ (w : Witness (Path prime521)) (cs' : R1CS Var (ZMod prime521)), step w false = some cs' →
        cs'.a = cs.a ∧ cs'.b = cs.b ∧ cs'.c = cs.c ∧ cs'.vars = cs.vars := by
  obtain ⟨cs, hcs⟩ := idle_built word_lt_prime521
  refine ⟨cs, hcs, ?_, fun w cs' h => step_independent.1 w _ cs' cs h hcs⟩
  rw [step_independent.2, hcs, Option.map_some]

end Independent

end NexusVm.Circuit
