import NexusVm.Circuit.Uniform

/-!
# The step circuit is well scoped

The scope check is evaluated on the circuit of one witness and carried over to
all others.  It gives the three uses of the matrices: a satisfying assignment fits
the gadgets (`step_sound`), values that fit the gadgets extend to a satisfying
assignment (`exists_sat_of_fits`), and a witness whose values are computed and
fit is accepted (`step_tracked`).
-/

namespace NexusVm.Circuit

open NexusVm.Builder

section Check

/-- The registers other than `x'0` get their value from the register selector. -/
def redoRegs : Var → Bool
  | .x' i => i != 0
  | _ => false

/-- The format that is set gets its value after all formats got one. -/
def redoType (ty : Ty) : Var → Bool
  | .type ty' => ty' == ty
  | _ => false

/-- Some witness, over a small field. -/
def sample : Witness (UncheckedMemory 3) :=
  { regs := ⟨0, fun _ => 0⟩, inst := 0x13, J := 0, shamt := 0, rs1 := 0, rs2 := 0, rd := 0
    I := 0, X := 0, Y := 0, Z := 0, PC := 0, pcProof := ⟨(0, 0)⟩, readProof := ⟨(0, 0)⟩
    writeProof := ⟨(0, 0)⟩ }

variable {p : ℕ} [Fact p.Prime]

/-- Names allocated in the end. -/
def mainNames : List Var :=
  ([.pc, .PC, .X, .Y, .I, .Z, .inst, .rd, .rs1, .rs2, .shamt, .opcode, .root, .ROOT,
    .lo .pcMem, .hi .pcMem, .lo .readMem, .hi .readMem, .lo .writeMem, .hi .writeMem,
    .lt .X .Y, .eq .X .Y, .ge .X .Y, .ne .X .Y, .slt .X .Y, .sge .X .Y,
    .lt .X .I, .eq .X .I, .ge .X .I, .ne .X .I, .slt .X .I, .sge .X .I] : List Var) ++
    (List.range 32).map .x ++ (List.range 32).map .x' ++
    (List.range' 1 RV32.maxJ).map (.is .J)

theorem isLocal_mainNames : ∀ n ∈ mainNames, isLocal n = false := by
  decide +kernel

theorem isJ_mem_mainNames (i : RV32) : Var.is .J i.indexJ ∈ mainNames := by
  have hj : i.indexJ ∈ List.range' 1 RV32.maxJ := by
    have := i.indexJ_mem
    simp [List.mem_range'_1]
    omega
  exact List.mem_append_right _ (List.mem_map_of_mem hj)

/-- Setting a format: all formats get a value first, `ty` then gets its own. -/
def typeScope (p : ℕ) [Fact p.Prime] (ty : Ty) (S : Scope) : Option (Scope × Scope) :=
  (Scope.steps (redoType ty) (typeBits : Ops p) S).bind fun T =>
    (Scope.steps Scope.noRedo (setVar (.type ty) 1 : Ops p) T).map fun T' => (T, T')

/-- The scopes after the inputs, the head, the format and the tail. -/
structure WellScoped (init head tail : Ops p) (S₁ S₂ S₃ S₄ : Scope) : Prop where
  init : Scope.steps redoRegs init .empty = some S₁
  head : Scope.steps Scope.noRedo head S₁ = some S₂
  type : ∀ ty, ∃ T, typeScope p ty S₂ = some (T, S₃) ∧ T.localAllocated = 0
  tail : Scope.steps Scope.noRedo tail S₃ = some S₄
  noLocals : S₁.localAllocated = 0 ∧ S₂.localAllocated = 0 ∧ S₃.localAllocated = 0
  complete : S₄.complete = true
  names : ∀ n ∈ mainNames, S₄.isAllocated n = true

/-- Whether the scopes of a circuit exist. -/
def scopeCheck (init head tail : Ops p) : Bool :=
  ((Scope.steps redoRegs init .empty).bind fun S₁ =>
    (Scope.steps Scope.noRedo head S₁).bind fun S₂ =>
      (typeScope p .R S₂).bind fun (_, S₃) =>
        (Scope.steps Scope.noRedo tail S₃).bind fun S₄ =>
          if (S₁.localAllocated = 0 ∧ S₂.localAllocated = 0 ∧ S₃.localAllocated = 0) ∧
              (Var.tys.all fun ty => (typeScope p ty S₂).any fun (T, T') =>
                T' = S₃ ∧ T.localAllocated = 0) ∧
              S₄.complete ∧ mainNames.all S₄.isAllocated then some ()
          else none).isSome

theorem wellScoped_of_scopeCheck {init head tail : Ops p} (h : scopeCheck init head tail = true) :
    ∃ S₁ S₂ S₃ S₄, WellScoped init head tail S₁ S₂ S₃ S₄ := by
  obtain ⟨_, h⟩ := Option.isSome_iff_exists.mp h
  simp only [Option.bind_eq_some_iff] at h
  obtain ⟨S₁, h₁, S₂, h₂, ⟨T₀, S₃⟩, -, S₄, h₄, h⟩ := h
  split_ifs at h with hc
  obtain ⟨hl, ht, hd, hn⟩ := hc
  refine ⟨S₁, S₂, S₃, S₄, h₁, h₂, fun ty => ?_, h₄, hl, hd, List.all_eq_true.mp hn⟩
  have hty : ty ∈ Var.tys := by cases ty <;> decide
  obtain ⟨⟨T, T'⟩, hT, hq⟩ := (Option.any_eq_true _ _).mp (List.all_eq_true.mp ht ty hty)
  obtain ⟨rfl, hT₀⟩ := of_decide_eq_true hq
  exact ⟨T, hT, hT₀⟩

theorem scopeCheck_sample :
    scopeCheck (initCs sample) (stepHead sample false) (stepTail sample false) = true := by
  -- appends to the right are walked once
  unfold stepTail stepHead load store alu misc br parseImm parseJ
  simp only [List.append_assoc]
  decide +kernel

/-- The check of the sample holds of every witness. -/
theorem exists_wellScoped {P : Type} [MemoryProof P p] (w : Witness P) :
    ∃ S₁ S₂ S₃ S₄,
      WellScoped (initCs w) (stepHead w false) (stepTail w false : Ops p) S₁ S₂ S₃ S₄ := by
  obtain ⟨S₁, S₂, S₃, S₄, h⟩ := wellScoped_of_scopeCheck scopeCheck_sample
  have htype : ∀ ty S, typeScope p ty S = typeScope 3 ty S := by
    intro ty S
    have hbits : Like (fun (_ : ZMod p) (_ : ZMod 3) => True) typeBits typeBits :=
      like_flatMap fun ty _ => like_setBit uniform_true
    have hset : Like (fun (_ : ZMod p) (_ : ZMod 3) => True) (setVar (.type ty) 1)
      (setVar (.type ty) 1) := like_setVar
    simp only [typeScope, steps_like hbits, steps_like hset]
  refine ⟨S₁, S₂, S₃, S₄, ?_, ?_, fun ty => ?_, ?_, h.noLocals, h.complete, h.names⟩
  · rw [← h.init]
    exact steps_like (R := fun _ _ => True) (like_initCs w sample)
  · rw [← h.head]
    exact steps_like (like_stepHead uniform_true w sample)
  · rw [htype]
    exact h.type ty
  · rw [← h.tail]
    exact steps_like (like_stepTail uniform_true w sample)

/-! ## The three uses of the matrices -/

variable {P : Type} [MemoryProof P p] {cs : R1CS Var (ZMod p)} {w : Witness P}

/-- A circuit that is built has a format. -/
theorem exists_typeOf {wo : Bool} (h : step w wo = some cs) :
    ∃ ty, typeOf (opcode w.inst).toNat = some ty := by
  cases hty : typeOf (opcode w.inst).toNat with
  | some ty => exact ⟨ty, rfl⟩
  | none =>
      rw [step, Option.bind_eq_some_iff] at h
      obtain ⟨cs₁, -, h⟩ := h
      have hset : (setType (opcode w.inst).toNat : Ops p) = [.check [] fun _ => false] := by
        simp only [setType, hty]
      rw [stepBody_eq, R1CS.run_append, Option.bind_eq_some_iff] at h
      obtain ⟨cs₂, -, h⟩ := h
      rw [R1CS.run_append, Option.bind_eq_some_iff, stepType, hset] at h
      obtain ⟨cs₃, h, -⟩ := h
      rw [R1CS.run_append, Option.bind_eq_some_iff] at h
      obtain ⟨cs₄, -, h⟩ := h
      simp [R1CS.run_cons, R1CS.exec] at h

/-- The whole program is well scoped. -/
theorem exists_steps {ty : Ty} (hty : typeOf (opcode w.inst).toNat = some ty) :
    ∃ S : Scope, Scope.steps Scope.noRedo (initCs w ++ stepBody w false : Ops p) .empty = some S ∧
      ∀ n ∈ mainNames, S.isAllocated n = true := by
  obtain ⟨S₁, S₂, S₃, S₄, hw⟩ := exists_wellScoped w
  obtain ⟨T, hT, -⟩ := hw.type ty
  simp only [typeScope, Option.bind_eq_some_iff, Option.map_eq_some_iff, Prod.mk.injEq] at hT
  obtain ⟨T', hbits, T'', hset, rfl, rfl⟩ := hT
  have hsetType : (setType (opcode w.inst).toNat : Ops p) = setVar (.type ty) 1 := by
    simp only [setType, hty]
  obtain ⟨U₁, h₁, b₁⟩ := (Scope.Below.refl (N := Var) _).steps hw.init
  obtain ⟨U₂, h₂, b₂⟩ := b₁.steps hw.head
  obtain ⟨U, h₃, b₃⟩ := b₂.steps hbits
  obtain ⟨U₃, h₄, b₄⟩ := b₃.steps hset
  obtain ⟨U₄, h₅, b₅⟩ := b₄.steps hw.tail
  refine ⟨U₄, ?_, fun n hn => by rw [b₅.isAllocated, hw.names n hn]⟩
  rw [stepBody_eq, stepType, hsetType, Scope.steps_append, h₁, Option.bind_some,
    Scope.steps_append, h₂, Option.bind_some, Scope.steps_append, Scope.steps_append, h₃,
    Option.bind_some, h₄, Option.bind_some, h₅]

/-- The circuit is built by one run from the empty system. -/
theorem run_of_step (h : step w false = some cs) :
    R1CS.run (initCs w ++ stepBody w false)
      { (default : R1CS Var (ZMod p)) with arity := arity } = some cs := by
  rw [step, Option.bind_eq_some_iff] at h
  obtain ⟨cs₁, h₁, h₂⟩ := h
  have hq : { cs₁ with witnessOnly := false } = cs₁ := by
    rw [← show cs₁.witnessOnly = false from R1CS.run_witnessOnly h₁]
  rw [R1CS.run_append, h₁, Option.bind_some, ← h₂, hq]

/-- **Soundness**: an assignment that satisfies the rows fits the gadgets. -/
theorem step_sound (h : step w false = some cs) {z : ℕ → ZMod p} (hz : z 0 = 1) (hsat : cs.Sat z) :
    Fits Op.Sat (fun n => z (cs.var n)) (stepBody w false) := by
  obtain ⟨ty, hty⟩ := exists_typeOf h
  obtain ⟨S, hS, -⟩ := exists_steps hty
  have halong := along_of_sat hz (matches_empty arity) hS (run_of_step h) rfl hsat
  exact halong.2.right

omit [MemoryProof P p] in
/-- Setting the format adds no row. -/
theorem holds_setType {σ : Var → ZMod p} {opc : ℕ} : Holds Op.Sat σ (setType opc) := by
  unfold setType
  cases typeOf opc <;> simp [setVar, setFieldVar, Op.Sat]

theorem sealFree_typeBits : sealFree (typeBits : Ops p) = true := by
  simp [typeBits, setBit, setBitFrom]

theorem sealFree_setType {opc : ℕ} : sealFree (setType opc : Ops p) = true := by
  unfold setType
  cases typeOf opc <;> rfl

theorem holds_initCs {σ : Var → ZMod p} (w : Witness P) : Holds Op.Sat σ (initCs w) := by
  simp [initCs, addProof, setVar, setFieldVar, Op.Sat]

theorem sealFree_initCs (w : Witness P) : sealFree (initCs w : Ops p) = true := by
  simp [initCs, addProof, setVar, setFieldVar]

/-- **Forging**: values that fit the gadgets of some witness extend to an
assignment that satisfies the rows of any other. -/
theorem exists_sat_of_fits {Q : Type} [MemoryProof Q p] (h : step w false = some cs)
    (w' : Witness Q) {ρ : Var → ZMod p} (hfit : Fits Op.Sat ρ (stepBody w' false)) :
    ∃ z, z 0 = 1 ∧ cs.Sat z ∧ ∀ n ∈ mainNames, z (cs.var n) = ρ n := by
  obtain ⟨ty, hty⟩ := exists_typeOf h
  obtain ⟨S, hS, hnames⟩ := exists_steps hty
  obtain ⟨l, hl⟩ := hfit
  have htype : ∀ l, Along Op.Sat ρ (stepType w' ++ stepTail w' false) l →
      Along Op.Sat ρ (stepType w ++ stepTail w false) l := by
    intro l hl
    rw [stepType, List.append_assoc, along_append sealFree_typeBits,
      along_append sealFree_setType] at hl ⊢
    exact ⟨hl.1, holds_setType, hl.2.2.like (like_stepTail uniform_eq w' w)⟩
  have hbody : Along Op.Sat ρ (stepBody w false) l := by
    rw [stepBody_eq] at hl ⊢
    exact along_like (like_stepHead uniform_eq w' w) htype hl
  have hall : Along Op.Sat ρ (initCs w ++ stepBody w false) l :=
    (along_append (sealFree_initCs w)).mpr ⟨holds_initCs w, hbody⟩
  have hrun := run_of_step h
  obtain ⟨z, hz, hsat, hval⟩ := exists_sat_of_along (z := fun _ => 1) (matches_empty arity) hS hrun
    rfl hall rfl (fun n j hj => by simp [default] at hj) (fun i hi => by simp [default] at hi)
  refine ⟨z, hz, hsat, fun n hn => ?_⟩
  have hloc := isLocal_mainNames n hn
  have hsome := ((matches_empty arity).run hS hrun).allocated n |>.mp (hnames n hn)
  obtain ⟨j, hj⟩ := Option.isSome_iff_exists.mp hsome
  rw [R1CS.var_eq hj]
  exact hval n j hloc hj

/-- **Completeness**: if what the builder computes is `ρ`, the circuit is built
with these values; if the rows fit `ρ`, the builder's own witness satisfies them. -/
theorem step_tracked {ty : Ty} {ρ : Var → ZMod p} (rows : Prop)
    (hty : typeOf (opcode w.inst).toNat = some ty)
    (hinit : Fits (Op.Tracked rows redoRegs) ρ (initCs w : Ops p))
    (hhead : Fits (Op.Tracked rows Scope.noRedo) ρ (stepHead w false : Ops p))
    (hbits : Fits (Op.Tracked rows (redoType ty)) ρ (typeBits : Ops p))
    (hset : Fits (Op.Tracked rows Scope.noRedo) ρ (setVar (.type ty) 1 : Ops p))
    (htail : Fits (Op.Tracked rows Scope.noRedo) ρ (stepTail w false : Ops p)) :
    ∃ cs, step w false = some cs ∧ cs.w.getD 0 0 = 1 ∧ (rows → cs.IsSat) ∧
      ∀ n ∈ mainNames, cs.value n = ρ n := by
  obtain ⟨S₁, S₂, S₃, S₄, hw⟩ := exists_wellScoped w
  obtain ⟨T, hT, hT₀⟩ := hw.type ty
  simp only [typeScope, Option.bind_eq_some_iff, Option.map_eq_some_iff, Prod.mk.injEq] at hT
  obtain ⟨T', hb, T'', hs, rfl, rfl⟩ := hT
  obtain ⟨l₁, hinit⟩ := hinit
  obtain ⟨l₂, hhead⟩ := hhead
  obtain ⟨l₃, hbits⟩ := hbits
  obtain ⟨l₄, hset⟩ := hset
  obtain ⟨l₅, htail⟩ := htail
  obtain ⟨cs₁, U₁, l, hr₁, h₁⟩ := (witnessed_empty rows arity ρ l₁).run hw.init hinit
  have hq : { cs₁ with witnessOnly := false } = cs₁ := by
    rw [← show cs₁.witnessOnly = false from R1CS.run_witnessOnly hr₁]
  obtain ⟨cs₂, U₂, l, hr₂, h₂⟩ := (h₁.relocal hw.noLocals.1 l₂).run hw.head hhead
  obtain ⟨cs₃, U₃, l, hr₃, h₃⟩ := (h₂.relocal hw.noLocals.2.1 l₃).run hb hbits
  obtain ⟨cs₄, U₄, l, hr₄, h₄⟩ := (h₃.relocal hT₀ l₄).run hs hset
  obtain ⟨cs₅, U₅, l, hr₅, h₅⟩ := (h₄.relocal hw.noLocals.2.2 l₅).run hw.tail htail
  have hsetType : (setType (opcode w.inst).toNat : Ops p) = setVar (.type ty) 1 := by
    simp only [setType, hty]
  refine ⟨cs₅, ?_, h₅.one, h₅.isSat hw.complete, fun n hn => ?_⟩
  · rw [step, hr₁, Option.bind_some, hq, stepBody_eq, stepType, hsetType, R1CS.run_append, hr₂,
      Option.bind_some, R1CS.run_append, R1CS.run_append, hr₃, Option.bind_some, hr₄,
      Option.bind_some, hr₅]
  · obtain ⟨j, hj⟩ := Option.isSome_iff_exists.mp ((h₅.agrees.allocated n).mp (hw.names n hn))
    have hl := isLocal_mainNames n hn
    have hU := (h₅.written n j hj).mp (Scope.isWritten_of_complete hw.complete hl (hw.names n hn))
    rw [R1CS.value, R1CS.var_eq hj, h₅.value n j hj hU, glue_global hl]

end Check

end NexusVm.Circuit
