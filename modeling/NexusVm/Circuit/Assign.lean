import NexusVm.Circuit.Scoped
import NexusVm.Circuit.Fitting

/-!
# Assignments of the step circuit

The two uses of `Fitting`.  Values that fit give, for the circuit of any
witness, an assignment that satisfies every row (`exists_sat`).  A witness whose
values are also genuine is accepted together with them (`step_computes`).
-/

namespace NexusVm.Circuit

open NexusVm.Builder

section Assign

variable {p : ℕ} [Fact p.Prime] {P Q : Type} [MemoryProof P p] [MemoryProof Q p]

theorem val_type (w : Witness P) (f : Forge) (ty : Ty) :
    (val w f (.type ty) : ZMod p) = if typeOf (opcOf w) = some ty then 1 else 0 := rfl

variable {f : Forge} {w : Witness P}

/-- An opcode that is tested has a format. -/
theorem exists_format (h : Loose w f) :
    ∃ ty, typeOf (opcOf w) = some ty := by
  rcases opcodes_cases h.opcode with h | h | h | h | h | h | h | h | h | h | h <;>
    exact ⟨_, by rw [h]; rfl⟩

/-- The formats get their values: first all of them `0`, then the right one `1`. -/
theorem typeBits_passes {redo : Var → Bool} {ty : Ty} (hty : typeOf (opcOf w) = some ty)
    (hr : redo (.type ty) = true) :
    Passes (Op.Honest redo) (val w f : Var → ZMod p) typeBits := by
  refine passes_flatMap fun ty' _ => ?_
  refine passes_of_holds rfl fun l => setBit_holds (v := decide (ty' = ty)) ?_ ?_
  · rw [glue_global rfl, val_type, hty]
    by_cases h : ty' = ty
    · simp [h]
    · simp [h, Ne.symm h]
  · by_cases h : ty' = ty
    · exact Or.inr (h ▸ hr)
    · exact Or.inl (by simp [h])

theorem setType_passes {redo : Var → Bool} {ty : Ty} (hty : typeOf (opcOf w) = some ty) :
    Passes (Op.Honest redo) (val w f : Var → ZMod p) (setVar (.type ty) 1) := by
  refine setVar_passes rfl ?_
  rw [val_type, hty, if_pos rfl]
  exact Nat.cast_one.symm

/-- **Values that fit are accepted** by the rows of the circuit of any witness. -/
theorem exists_sat (hp : 2 ^ 32 < p) {cs : R1CS Var (ZMod p)} (h : step w false = some cs)
    {w' : Witness Q} (hf : Fitting w' f) :
    ∃ z, z 0 = 1 ∧ cs.Sat z ∧ ∀ n ∈ mainNames, z (cs.var n) = val w' f n := by
  have hall : ∀ n, (fun _ : Var => true) n = true := fun _ => rfl
  obtain ⟨ty, hty⟩ := exists_format hf.toLoose
  have hset : (setType (opcode w'.inst).toNat : Ops p) = setVar (.type ty) 1 := by
    have hty' : typeOf (opcode w'.inst).toNat = some ty := hty
    simp only [setType, hty']
  have hmono : ∀ (σ : Var → ZMod p) (op : Op Var (ZMod p)),
      Op.Honest (fun _ => true) σ op → Op.Tracked True (fun _ => true) σ op :=
    fun σ op ho => ho.tracked True
  have hpass : Passes (Op.Tracked True fun _ => true) (val w' f) (stepBody w' false) := by
    rw [stepBody_eq, stepType, hset]
    exact ((stepHead_passes hp hf.toLoose).mono hmono).append
      ((((typeBits_passes hty rfl).append (setType_passes hty)).mono hmono).append
        (stepTail_passes hp hf.toLoose (Or.inr hall) fun _ => hf))
  exact exists_sat_of_fits h w' (hpass.fits.mono fun σ op ho => ho.2 trivial)

/-- The inputs of a genuine witness. -/
theorem initCs_passes (hg : Genuine w f) :
    Passes (Op.Honest redoRegs) (val w f : Var → ZMod p) (initCs w) := by
  have hfield : ∀ {n : Var} {v : ZMod p}, isLocal n = false → val w f n = v →
      Passes (Op.Honest redoRegs) (val w f) (setFieldVar n v) := by
    intro n v hl hv
    refine passes_of_holds rfl fun l => setFieldVar_honest.mpr (Or.inr ?_)
    rw [glue_global hl, hv]
  have hproof : ∀ {v : Var} {proof : P}, isLocal (Var.lo v) = false → isLocal (Var.hi v) = false →
      val w f (.lo v) = (MemoryProof.data proof).1 → val w f (.hi v) = (MemoryProof.data proof).2 →
      Passes (Op.Honest redoRegs) (val w f : Var → ZMod p) (addProof v proof) :=
    fun hl hh hlo hhi => (hfield hl hlo).append (hfield hh hhi)
  have hout : ∀ i ∈ List.range 32, Passes (Op.Honest redoRegs) (val w f : Var → ZMod p)
      (setVar (.x' i) (w.regs.x (Fin.ofNat 32 i))) := by
    intro i _
    refine passes_of_holds rfl fun l => setFieldVar_honest.mpr ?_
    by_cases hi : i = 0
    · subst hi
      refine Or.inr ?_
      show ((w.regs.x 0).toNat : ZMod p) = (f.x0.toNat : ZMod p)
      rw [hg.x0]
    · exact Or.inl (by simpa [redoRegs] using hi)
  unfold initCs
  refine .append (.append (.append (.append (.append (.append (.append (.append
    ?_ ?_) ?_) ?_) ?_) ?_) ?_) ?_) ?_
  · exact hfield rfl rfl
  · exact passes_flatMap fun i _ => hfield rfl rfl
  · exact hfield rfl rfl
  · exact hfield rfl rfl
  · exact passes_flatMap hout
  · exact hfield rfl rfl
  · exact hproof rfl rfl rfl rfl
  · exact hproof rfl rfl rfl rfl
  · exact hproof rfl rfl rfl rfl

/-- **The circuit of a genuine witness** is built with the witness's values.  If
the values also fit, the circuit is satisfied by the builder's own witness. -/
theorem step_computes (hp : 2 ^ 32 < p) (h : Loose w f) (hg : Genuine w f) (hJ : w.J ≠ 20) :
    ∃ cs : R1CS Var (ZMod p), step w false = some cs ∧ cs.w.getD 0 0 = 1 ∧
      (Fitting w f → cs.IsSat) ∧ ∀ n ∈ mainNames, cs.value n = val w f n := by
  obtain ⟨ty, hty⟩ := exists_format h
  have hmono : ∀ {redo : Var → Bool} (σ : Var → ZMod p) (op : Op Var (ZMod p)),
      Op.Honest redo σ op → Op.Tracked (Fitting w f) redo σ op := fun σ op ho => ho.tracked _
  refine step_tracked (Fitting w f) hty ((initCs_passes hg).fits.mono hmono)
    ((stepHead_passes hp h).fits.mono hmono) ((typeBits_passes hty ?_).fits.mono hmono)
    ((setType_passes hty).fits.mono hmono)
    (stepTail_passes hp h (Or.inl ⟨hg, hJ⟩) id).fits
  simp [redoType]

end Assign

end NexusVm.Circuit
