import NexusVm.Eval
import NexusVm.Rv32.Encoding

/-!
# The stages of a step

A successful `eval_inst` fetches, parses, executes and ends the step.  Only the
end of the step writes a register.
-/

namespace NexusVm

theorem regIdx_ne_zero {r : U32} (hr : r.toNat < 32) (h : r ≠ 0) : regIdx r ≠ 0 := by
  intro h0
  apply h
  have hval : (regIdx r).val = r.toNat % 32 := rfl
  rw [h0, Nat.mod_eq_of_lt hr] at hval
  exact BitVec.eq_of_toNat_eq hval.symm

section Frame

variable {M P : Type}

/-- The cycle tracker changes the queue of inputs and its own table only. -/
theorem handleProfileCycles_eq {B : Build} {vm vm' : NexusVM M P}
    (h : handleProfileCycles B vm = (.ok (), vm')) :
    ∃ syscalls tracker, vm' = { vm with syscalls := syscalls, cycleTracker := tracker } := by
  unfold handleProfileCycles startProfile endProfile at h
  dsimp only at h
  repeat' split at h
  all_goals first
    | (cases h; exact ⟨_, _, rfl⟩)
    | cases h

/-- The cycle tracker leaves registers, memory and result alone. -/
theorem handleProfileCycles_frame {B : Build} {vm vm' : NexusVM M P}
    (h : handleProfileCycles B vm = (.ok (), vm')) :
    vm'.regs = vm.regs ∧ vm'.mem = vm.mem ∧ vm'.inst = vm.inst ∧ vm'.Z = vm.Z := by
  obtain ⟨syscalls, tracker, rfl⟩ := handleProfileCycles_eq h
  exact ⟨rfl, rfl, rfl, rfl⟩

theorem NexusVM.getReg_eq_x {vm : NexusVM M P} (hx : vm.regs.x 0 = 0) (r : U32) :
    vm.getReg r = vm.regs.x (regIdx r) := by
  unfold getReg
  split_ifs with h
  · rw [h]
    exact hx.symm
  · rfl

theorem NexusVM.setReg_frame (vm : NexusVM M P) (r val : U32) :
    (vm.setReg r val).regs.x = (if r = 0 then vm.regs.x else
      Function.update vm.regs.x (regIdx r) val) ∧ (vm.setReg r val).mem = vm.mem := by
  unfold setReg
  split_ifs
  · exact ⟨rfl, rfl⟩
  · exact ⟨rfl, rfl⟩

/-- The end of a step changes the registers and the two counters only. -/
theorem finishInst_eq (vm : NexusVM M P) (next : Next) :
    ∃ regs steps cycles, finishInst vm next =
      { vm with regs := regs, traceLen := steps, cycleCount := cycles } := by
  obtain ⟨regs, hset⟩ : ∃ regs, vm.setReg next.RD vm.Z = { vm with regs := regs } := by
    unfold NexusVM.setReg
    split_ifs
    · exact ⟨_, rfl⟩
    · exact ⟨_, rfl⟩
  unfold finishInst
  rw [hset]
  exact ⟨_, _, _, rfl⟩

variable [Memory M P]

/-- What every instruction leaves alone until the step ends. -/
structure Framed (vm : NexusVM M P) (next : Next) (vm' : NexusVM M P) : Prop where
  regs : vm'.regs = vm.regs
  inst : vm'.inst = vm.inst
  dest : next.RD = vm.inst.inst.dest
  idle : (∃ rd, vm.inst.inst = .ebreak rd) ∨ vm.inst.inst = .unimp → vm'.Z = vm.Z

theorem framed_of_execInst {B : Build} {vm vm' : NexusVM M P} {next : Next}
    (h : execInst B vm = (.ok next, vm')) : Framed vm next vm' := by
  have hidle : ∀ {i : RV32} {q : Prop}, vm.inst.inst = i → (∀ rd, i ≠ .ebreak rd) → i ≠ .unimp →
      (∃ rd, vm.inst.inst = .ebreak rd) ∨ vm.inst.inst = .unimp → q := by
    rintro i q hi hebreak hunimp (⟨rd, hrd⟩ | hu)
    · exact absurd (hi.symm.trans hrd) (hebreak rd)
    · exact absurd (hi.symm.trans hu) hunimp
  unfold execInst at h
  cases hi : vm.inst.inst with
  | load lop rd rs1 imm =>
      rw [hi] at h
      dsimp only at h
      split at h
      · cases h
      · cases h
        exact ⟨rfl, rfl, by rw [hi]; rfl, hidle hi nofun nofun⟩
  | store sop rs1 rs2 imm =>
      rw [hi] at h
      dsimp only at h
      split at h
      · cases h
      · split at h
        · cases h
        · cases h
          exact ⟨rfl, rfl, by rw [hi]; rfl, hidle hi nofun nofun⟩
  | ecall rd =>
      rw [hi] at h
      dsimp only at h
      split at h
      · cases h
      · split at h
        · split at h
          · cases h
          · rename_i hprofile
            cases h
            obtain ⟨hregs, -, hinst, -⟩ := handleProfileCycles_frame hprofile
            exact ⟨hregs, hinst, by rw [hi]; rfl, hidle hi nofun nofun⟩
        · cases h
          exact ⟨rfl, rfl, by rw [hi]; rfl, hidle hi nofun nofun⟩
  | ebreak rd =>
      rw [hi] at h
      cases h
      exact ⟨rfl, rfl, by rw [hi]; rfl, fun _ => rfl⟩
  | unimp =>
      rw [hi] at h
      cases h
      exact ⟨rfl, rfl, by rw [hi]; rfl, fun _ => rfl⟩
  | _ =>
      rw [hi] at h
      cases h
      exact ⟨rfl, rfl, by rw [hi]; rfl, hidle hi nofun nofun⟩

/-- The stages of a successful step. -/
theorem stages_of_evalInst {B : Build} {vm vm' : NexusVM M P} (h : evalInst B vm = (.ok (), vm')) :
    ∃ word proof inst next vm₁, Memory.readInst vm.mem vm.regs.pc = .ok (word, proof) ∧
      parseInst vm.regs.pc (toLeBytes word) = .ok inst ∧
      execInst B (beginInst vm inst proof) = (.ok next, vm₁) ∧ vm' = finishInst vm₁ next := by
  unfold evalInst at h
  split at h
  · cases h
  · split at h
    · cases h
    · rename_i word proof hread
      split at h
      · cases h
      · rename_i inst hparse
        split at h
        · cases h
        · rename_i next vm₁ hexec
          cases h
          exact ⟨word, proof, inst, next, vm₁, hread, hparse, hexec, rfl⟩

end Frame

end NexusVm
