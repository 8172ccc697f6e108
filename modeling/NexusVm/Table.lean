import NexusVm.Memory.Alias
import NexusVm.Stages

/-!
# The instruction table

The machine of `docs/pages/specs/nexus-vm.mdx`: a program counter, one byte for
each address, and registers of which `x0` is always zero.  The table gives one
transition for each instruction; here they are stated over numbers, with no
reference to how the evaluator computes them.

Its rows for `ecall` and `ebreak` are system calls that return in `rd`.  What
the call of a state returns is a parameter of the transition; a call that fails
has no transition.  What calls do outside the machine (input, output, logs) is
not part of its state.
-/

namespace NexusVm

/-- The state of the specification. -/
@[ext] structure Machine where
  pc : U32
  mem : Flat
  x : Fin 32 → U32

namespace Table

/-- The condition of a branch. -/
def holds (bop : BOP) (x y : U32) : Bool :=
  match bop with
  | .beq => decide (x = y)
  | .bne => decide (x ≠ y)
  | .blt => decide (x.toInt < y.toInt)
  | .bge => decide (y.toInt ≤ x.toInt)
  | .bltu => decide (x.toNat < y.toNat)
  | .bgeu => decide (y.toNat ≤ x.toNat)

/-- The value of an operation modulo `2 ^ 32`; shifts take the amount modulo `32`. -/
def compute (aop : AOP) (x y : U32) : U32 :=
  match aop with
  | .add => BitVec.ofNat 32 (x.toNat + y.toNat)
  | .sub => BitVec.ofInt 32 (x.toInt - y.toInt)
  | .slt => if x.toInt < y.toInt then 1 else 0
  | .sltu => if x.toNat < y.toNat then 1 else 0
  | .sll => BitVec.ofNat 32 (x.toNat * 2 ^ (y.toNat % 32))
  | .srl => BitVec.ofNat 32 (x.toNat / 2 ^ (y.toNat % 32))
  | .sra => BitVec.ofInt 32 (x.toInt / 2 ^ (y.toNat % 32))
  | .and => BitVec.ofNat 32 (x.toNat &&& y.toNat)
  | .or => BitVec.ofNat 32 (x.toNat ||| y.toNat)
  | .xor => BitVec.ofNat 32 (x.toNat ^^^ y.toNat)

end Table

namespace Machine

def reg (s : Machine) (r : U32) : U32 := s.x (regIdx r)

/-- Registers after `R[rd]` is set; updates of `x0` are ignored. -/
def set (s : Machine) (rd val : U32) : Fin 32 → U32 :=
  if rd = 0 then s.x else Function.update s.x (regIdx rd) val

/-- Where an instruction jumps to, if it does. -/
def target (s : Machine) : RV32 → Option U32
  | .jal _ imm => some (s.pc + imm)
  | .jalr _ rs1 imm => some (s.reg rs1 + imm)
  | .br bop rs1 rs2 imm =>
      if Table.holds bop (s.reg rs1) (s.reg rs2) then some (s.pc + imm) else none
  | .unimp => some s.pc
  | _ => none

/-- Registers after an instruction; `ret` is what the system call that the
registers ask for returns, if it does. -/
def registers (s : Machine) (ret : Option U32) : RV32 → Option (Fin 32 → U32)
  | .lui rd imm => some (s.set rd imm)
  | .auipc rd imm => some (s.set rd (s.pc + imm))
  | .jal rd _ | .jalr rd _ _ => some (s.set rd (s.pc + 4))
  | .load lop rd rs1 imm => some (s.set rd (s.mem.value lop (s.reg rs1 + imm)))
  | .alui aop rd rs1 imm => some (s.set rd (Table.compute aop (s.reg rs1) imm))
  | .alu aop rd rs1 rs2 => some (s.set rd (Table.compute aop (s.reg rs1) (s.reg rs2)))
  | .ecall rd | .ebreak rd => ret.map (s.set rd)
  | .br .. | .store .. | .fence | .unimp => some s.x

/-- The store that an instruction performs. -/
def stored (s : Machine) : RV32 → Option Store
  | .store sop rs1 rs2 imm => some ⟨sop, s.reg rs1 + imm, s.reg rs2⟩
  | _ => none

/-- Memory after the store of an instruction, where `place` numbers the bytes
from the address on. -/
def memory (place : U32 → U32 → ℕ) (s : Machine) (i : RV32) : Flat :=
  match s.stored i with
  | none => s.mem
  | some st => s.mem.writeAt (place st.addr) st.sop st.val

/-- **The transition of the table.**  The next program counter, memory and
registers; there is none where the system call of the instruction fails. -/
def step (s : Machine) (ret : Option U32) (i : RV32) : Option Machine :=
  (s.registers ret i).map fun x =>
    { pc := (s.target i).getD (s.pc + 4), mem := s.memory place32 i, x := x }

/-- Jumps to `0` are honoured where the next instruction is at `0` as well. -/
def Honoured (s : Machine) (i : RV32) : Prop := s.target i = some 0 → s.pc + 4 = 0

/-- What the store writes to cells of other addresses is already there. -/
def Confined (place : U32 → U32 → ℕ) (s : Machine) (i : RV32) : Prop :=
  ∀ st ∈ s.stored i, ∀ b, place st.addr b < st.sop.width → st.sop.width ≤ place32 st.addr b →
    st.val.extractLsb' (8 * place st.addr b) 8 = s.mem b

/-- The system call of an `ebreak` returns what its destination holds already. -/
def Returned (s : Machine) (ret : Option U32) : RV32 → Prop
  | .ebreak rd => ∃ z ∈ ret, rd ≠ 0 → s.reg rd = z
  | _ => True

end Machine

/-- The specification's view of the virtual machine. -/
def NexusVM.machine {M P : Type} [Memory M P] (vm : NexusVM M P) : Machine where
  pc := vm.regs.pc
  mem := Memory.flat vm.mem
  x := vm.regs.x

theorem brOp_eq (bop : BOP) (x y : U32) : brOp bop x y = Table.holds bop x y := by
  cases bop with
  | beq => rfl
  | bne =>
      unfold brOp Table.holds
      rw [decide_not]
      rfl
  | blt => rfl
  | bge =>
      unfold brOp Table.holds BitVec.slt
      rw [← decide_not]
      exact decide_eq_decide.mpr not_lt
  | bltu => rfl
  | bgeu =>
      unfold brOp Table.holds BitVec.ult
      rw [← decide_not]
      exact decide_eq_decide.mpr not_lt

theorem ofBool_decide (q : Prop) [Decidable q] :
    (BitVec.ofBool (decide q)).setWidth 32 = if q then (1 : U32) else 0 := by
  by_cases h : q
  · rw [decide_eq_true h, if_pos h]
    rfl
  · rw [decide_eq_false h, if_neg h]
    rfl

theorem shamt_and (y : U32) : (y &&& 0x1f).toNat = y.toNat % 32 := by
  rw [BitVec.toNat_and]
  exact Nat.and_two_pow_sub_one_eq_mod y.toNat 5

theorem aluOp_eq (aop : AOP) (x y : U32) : aluOp aop x y = Table.compute aop x y := by
  unfold aluOp Table.compute
  rw [shamt_and]
  cases aop with
  | add => rw [BitVec.ofNat_add, BitVec.ofNat_toNat, BitVec.ofNat_toNat, add32,
      BitVec.setWidth_eq, BitVec.setWidth_eq]
  | sub =>
      apply BitVec.eq_of_toInt_eq
      rw [BitVec.toInt_ofInt, sub32, BitVec.toInt_sub]
  | slt => exact ofBool_decide _
  | sltu => exact ofBool_decide _
  | sll =>
      apply BitVec.eq_of_toNat_eq
      rw [BitVec.toNat_shiftLeft, BitVec.toNat_ofNat, Nat.shiftLeft_eq]
  | srl =>
      apply BitVec.eq_of_toNat_eq
      rw [BitVec.toNat_ushiftRight, BitVec.toNat_ofNat, Nat.shiftRight_eq_div_pow,
        Nat.mod_eq_of_lt (lt_of_le_of_lt (Nat.div_le_self _ _) x.isLt)]
  | sra =>
      show x.sshiftRight _ = _
      rw [BitVec.sshiftRight, Int.shiftRight_eq_div_pow]
      norm_cast
  | and =>
      apply BitVec.eq_of_toNat_eq
      rw [BitVec.toNat_and, BitVec.toNat_ofNat,
        Nat.mod_eq_of_lt (lt_of_le_of_lt Nat.and_le_left x.isLt)]
  | or =>
      apply BitVec.eq_of_toNat_eq
      rw [BitVec.toNat_or, BitVec.toNat_ofNat, Nat.mod_eq_of_lt (Nat.or_lt_two_pow x.isLt y.isLt)]
  | xor =>
      apply BitVec.eq_of_toNat_eq
      rw [BitVec.toNat_xor, BitVec.toNat_ofNat,
        Nat.mod_eq_of_lt (Nat.xor_lt_two_pow x.isLt y.isLt)]

/-! ## Memory -/

section Transition

variable {M P : Type} [Memory M P] {inv : M → Prop} {same : U32 → U32 → Prop}
  {place : U32 → U32 → ℕ}

/-- The bytes of an aligned store have the same place in every memory of lines. -/
theorem Memory.Lined.place_eq_place32 (hM : Lined M P inv same place) {a b : U32} {w : ℕ}
    (hw : w ∣ 4) (ha : a.toNat % w = 0) (hb : place32 a b < w) : place a b = place32 a b := by
  have hpaged := paged_lined 1
  obtain ⟨hline, hrange⟩ := (hpaged.place_lt hw ha).mp hb
  have heq : b = a + BitVec.ofNat 32 (place32 a b) := by
    rw [place32, BitVec.ofNat_toNat, BitVec.setWidth_eq, BitVec.add_comm, BitVec.sub_add_cancel]
  have hsame : same a b := by
    rw [heq]
    exact hM.same_add hw ha hb
  have hlt : place a b < w := (hM.place_lt hw ha).mpr ⟨hsame, hrange⟩
  rw [hM.place_eq hw ha hlt, hpaged.place_eq hw ha hb]

variable {s : Machine}

/-- A store changes the addressed bytes only, where the others that it writes
have these values already. -/
theorem Memory.Lined.memory_eq_iff (hM : Lined M P inv same place) {i : RV32}
    (ha : ∀ st ∈ s.stored i, st.addr.toNat % st.sop.width = 0) :
    s.memory place i = s.memory place32 i ↔ s.Confined place i := by
  unfold Machine.memory Machine.Confined
  cases hst : s.stored i with
  | none => simp
  | some st =>
      have hal := ha st hst
      simp only [Option.mem_some_iff, forall_eq', funext_iff]
      apply forall_congr'
      intro b
      rw [Flat.writeAt, Flat.writeAt]
      by_cases hb : place32 st.addr b < st.sop.width
      · have hplace := hM.place_eq_place32 st.sop.width_dvd hal hb
        rw [hplace]
        exact iff_of_true rfl fun _ hle => absurd hb (not_lt.mpr hle)
      · rw [if_neg hb]
        by_cases hb' : place st.addr b < st.sop.width
        · rw [if_pos hb']
          exact ⟨fun h _ _ => h, fun h => h hb' (not_lt.mp hb)⟩
        · rw [if_neg hb']
          exact iff_of_true rfl fun h => absurd h hb'

/-! ## Evaluation -/

/-- What the system call that the registers ask for returns, if it does. -/
def NexusVM.syscallResult (B : Build) (vm : NexusVM M P) : Option U32 :=
  (vm.syscalls.syscall B vm.regs.pc vm.regs.x vm.mem).1.toOption

/-- What the evaluation of an instruction has done before the step ends.  The
registers are the table's unless the call of an `ebreak` is missing. -/
structure Executed (place : U32 → U32 → ℕ) (s : Machine) (ret : Option U32) (i : RV32)
    (next : Next) (vm' : NexusVM M P) : Prop where
  target : next.PC = (s.target i).getD 0
  registers : s.registers ret i = some (s.set i.dest vm'.Z) ↔ s.Returned ret i
  aligned : ∀ st ∈ s.stored i, st.addr.toNat % st.sop.width = 0
  mem : Memory.flat vm'.mem = s.memory place i

theorem NexusVM.getReg_eq {vm : NexusVM M P} (hx : vm.regs.x 0 = 0) (r : U32) :
    vm.getReg r = vm.machine.reg r :=
  vm.getReg_eq_x hx r

variable {vm vm' : NexusVM M P}

variable {B : Build}

/-- **The target** that the `match` of `eval_inst` leaves; `0` stands for none. -/
theorem target_of_execInst {next : Next} (hx : vm.regs.x 0 = 0) (hpc : vm.inst.pc = vm.regs.pc)
    (h : execInst B vm = (.ok next, vm')) :
    next.PC = (vm.machine.target vm.inst.inst).getD 0 := by
  unfold execInst at h
  cases hi : vm.inst.inst with
  | jalr rd rs1 imm =>
      rw [hi] at h
      cases h
      dsimp only [Machine.target]
      rw [vm.getReg_eq hx]
      rfl
  | br bop rs1 rs2 imm =>
      rw [hi] at h
      cases h
      dsimp only [Machine.target]
      rw [vm.getReg_eq hx, vm.getReg_eq hx, brOp_eq]
      split_ifs <;> rfl
  | load lop rd rs1 imm =>
      rw [hi] at h
      dsimp only at h
      split at h
      · cases h
      · cases h
        rfl
  | store sop rs1 rs2 imm =>
      rw [hi] at h
      dsimp only at h
      split at h
      · cases h
      · split at h
        · cases h
        · cases h
          rfl
  | ecall rd =>
      rw [hi] at h
      dsimp only at h
      split at h
      · cases h
      · split at h
        · split at h
          · cases h
          · cases h
            rfl
        · cases h
          rfl
  | unimp =>
      rw [hi] at h
      cases h
      exact hpc
  | _ =>
      rw [hi] at h
      cases h
      rfl

/-- `ebreak` leaves the registers as they are. -/
theorem Machine.registers_ebreak {ret : Option U32} {rd : U32} :
    s.registers ret (.ebreak rd) = some s.x ↔ s.Returned ret (.ebreak rd) := by
  have hset : ∀ z, s.set rd z = s.x ↔ (rd ≠ 0 → s.reg rd = z) := by
    intro z
    unfold set
    split_ifs with hrd
    · exact iff_of_true rfl fun h => absurd hrd h
    · rw [Function.update_eq_self_iff, eq_comm]
      exact ⟨fun h _ => h, fun h => h hrd⟩
  simp only [registers, Returned, Option.map_eq_some_iff, Option.mem_def, hset]

/-- **The `match` of `eval_inst`** gives what the table gives, up to the system
call of `ebreak`. -/
theorem executed_of_execInst (hM : Memory.Lined M P inv same place) {next : Next}
    (hmem : inv vm.mem) (hx : vm.regs.x 0 = 0) (hpc : vm.inst.pc = vm.regs.pc)
    (h : execInst B vm = (.ok next, vm')) :
    Executed place vm.machine (vm.syscallResult B) vm.inst.inst next vm' := by
  have htarget := target_of_execInst hx hpc h
  unfold execInst at h
  cases hi : vm.inst.inst with
  | lui rd imm =>
      rw [hi] at h htarget
      cases h
      exact ⟨htarget, iff_of_true rfl trivial, nofun, rfl⟩
  | auipc rd imm =>
      rw [hi] at h htarget
      cases h
      exact ⟨htarget, iff_of_true rfl trivial, nofun, rfl⟩
  | jal rd imm =>
      rw [hi] at h htarget
      cases h
      exact ⟨htarget, iff_of_true rfl trivial, nofun, rfl⟩
  | jalr rd rs1 imm =>
      rw [hi] at h htarget
      cases h
      exact ⟨htarget, iff_of_true rfl trivial, nofun, rfl⟩
  | br bop rs1 rs2 imm =>
      rw [hi] at h htarget
      cases h
      exact ⟨htarget, iff_of_true rfl trivial, nofun, rfl⟩
  | load lop rd rs1 imm =>
      rw [hi] at h htarget
      dsimp only at h
      have hload := hM.load_eq hmem lop (add32 (vm.getReg rs1) imm)
      cases hrun : Memory.load vm.mem lop (add32 (vm.getReg rs1) imm) with
      | error e =>
          rw [hrun] at h
          cases h
      | ok r =>
          rw [hrun] at h hload
          cases h
          refine ⟨htarget, iff_of_true (congrArg some ?_) trivial, nofun, rfl⟩
          have hval : r.1 = (Memory.flat vm.mem).value lop (add32 (vm.getReg rs1) imm) := by
            unfold Flat.load at hload
            split_ifs at hload with ha
            · cases hload
            · exact Except.ok.inj hload
          dsimp only [RV32.dest]
          rw [hval, vm.getReg_eq hx]
          rfl
  | store sop rs1 rs2 imm =>
      rw [hi] at h htarget
      dsimp only at h
      split at h
      · cases h
      · split at h
        · cases h
        · rename_i hrun
          cases h
          obtain ⟨-, ha, hflat⟩ := hM.store_eq hmem hrun
          rw [vm.getReg_eq hx] at ha hflat
          rw [vm.getReg_eq hx] at hflat
          refine ⟨htarget, iff_of_true rfl trivial, ?_, hflat⟩
          rintro st ⟨⟩
          exact ha
  | alui aop rd rs1 imm =>
      rw [hi] at h htarget
      cases h
      refine ⟨htarget, iff_of_true (congrArg some ?_) trivial, nofun, rfl⟩
      dsimp only [RV32.dest]
      rw [aluOp_eq, vm.getReg_eq hx]
  | alu aop rd rs1 rs2 =>
      rw [hi] at h htarget
      cases h
      refine ⟨htarget, iff_of_true (congrArg some ?_) trivial, nofun, rfl⟩
      dsimp only [RV32.dest]
      rw [aluOp_eq, vm.getReg_eq hx, vm.getReg_eq hx]
  | fence =>
      rw [hi] at h htarget
      cases h
      exact ⟨htarget, iff_of_true rfl trivial, nofun, rfl⟩
  | ebreak rd =>
      rw [hi] at h htarget
      cases h
      exact ⟨htarget, Machine.registers_ebreak, nofun, rfl⟩
  | ecall rd =>
      rw [hi] at h htarget
      dsimp only at h
      cases hsys : vm.syscalls.syscall B vm.regs.pc vm.regs.x vm.mem with
      | mk res syscalls =>
          have hret : ∀ z, res = .ok z → vm.syscallResult B = some z := by
            rintro z rfl
            rw [NexusVM.syscallResult, hsys]
            rfl
          rw [hsys] at h
          cases res with
          | error e => cases h
          | ok z =>
              dsimp only at h
              rw [hret z rfl]
              split at h
              · split at h
                · cases h
                · rename_i hprofile
                  cases h
                  obtain ⟨-, hmem', -, hz⟩ := handleProfileCycles_frame hprofile
                  refine ⟨htarget, iff_of_true ?_ trivial, nofun, ?_⟩
                  · rw [hz]
                    rfl
                  · rw [hmem']
                    rfl
              · cases h
                exact ⟨htarget, iff_of_true rfl trivial, nofun, rfl⟩
  | unimp =>
      rw [hi] at h htarget
      cases h
      exact ⟨htarget, iff_of_true rfl trivial, nofun, rfl⟩

/-- The view after the end of a step. -/
theorem machine_finishInst (vm : NexusVM M P) (next : Next) :
    (finishInst vm next).machine =
      ⟨if next.PC = 0 then vm.inst.pc + vm.inst.len else next.PC, Memory.flat vm.mem,
        vm.machine.set next.RD vm.Z⟩ := by
  obtain ⟨hx, hmem⟩ := vm.setReg_frame next.RD vm.Z
  apply Machine.ext
  · rfl
  · show Memory.flat (vm.setReg next.RD vm.Z).mem = _
    rw [hmem]
  · exact hx

/-- Updates of `x0` are ignored. -/
theorem Machine.set_zero {r : U32} (hr : r.toNat < 32) (val : U32) :
    s.set r val 0 = s.x 0 := by
  unfold set
  split_ifs with h
  · rfl
  · exact Function.update_of_ne (regIdx_ne_zero hr h).symm _ _

/-- The evaluator takes a target of `0` for none. -/
theorem Machine.honoured_iff {i : RV32} :
    (if (s.target i).getD 0 = 0 then s.pc + 4 else (s.target i).getD 0) =
      (s.target i).getD (s.pc + 4) ↔ s.Honoured i := by
  unfold Honoured
  cases s.target i with
  | none =>
      rw [Option.getD_none, Option.getD_none, if_pos rfl]
      exact iff_of_true rfl nofun
  | some t =>
      rw [Option.getD_some, Option.getD_some, Option.some_inj]
      by_cases ht : t = 0
      · rw [if_pos ht, ht]
        exact ⟨fun h _ => h, fun h => h rfl⟩
      · rw [if_neg ht]
        exact iff_of_true rfl fun h => absurd h ht

/-- **A successful step is the transition of the table** exactly if it does not
jump to `0` from another address than the last, its store finds no other cell to
change, and an `ebreak` has nothing to return.  `x0` remains zero. -/
theorem evalInst_step_iff (hM : Memory.Lined M P inv same place) (hmem : inv vm.mem)
    (hx : vm.regs.x 0 = 0) {word : U32} {proof : P} {inst : Inst}
    (hread : Memory.readInst vm.mem vm.regs.pc = .ok (word, proof))
    (hparse : parseInst vm.regs.pc (toLeBytes word) = .ok inst)
    (hrun : evalInst B vm = (.ok (), vm')) :
    (vm.machine.step (vm.syscallResult B) inst.inst = some vm'.machine ∧ vm'.regs.x 0 = 0) ↔
      vm.machine.Honoured inst.inst ∧ vm.machine.Confined place inst.inst ∧
        vm.machine.Returned (vm.syscallResult B) inst.inst := by
  obtain ⟨word', proof', inst', next, vm₁, hread', hparse', hexec, rfl⟩ := stages_of_evalInst hrun
  rw [hread] at hread'
  cases hread'
  rw [hparse] at hparse'
  cases hparse'
  obtain ⟨hipc, hlen, hword⟩ := parseInst_eq_ok hparse
  have hmem' : inv (beginInst vm inst proof).mem := hmem
  have hex : Executed place vm.machine (vm.syscallResult B) inst.inst next vm₁ :=
    executed_of_execInst hM hmem' hx hipc hexec
  obtain ⟨hregs, hinst, hdest, -⟩ := framed_of_execInst hexec
  have hset : vm₁.machine.set next.RD vm₁.Z = vm.machine.set inst.inst.dest vm₁.Z := by
    rw [hdest, Machine.set, show vm₁.machine.x = vm.machine.x from congrArg Regs.x hregs]
    rfl
  have hmachine : (finishInst vm₁ next).machine =
      ⟨if (vm.machine.target inst.inst).getD 0 = 0 then vm.regs.pc + 4
        else (vm.machine.target inst.inst).getD 0,
        vm.machine.memory place inst.inst, vm.machine.set inst.inst.dest vm₁.Z⟩ := by
    rw [machine_finishInst, hset, hinst, hex.target, hex.mem]
    show (⟨if _ then inst.pc + inst.len else _, _, _⟩ : Machine) = _
    rw [hipc, hlen]
  have hzero : (finishInst vm₁ next).regs.x 0 = 0 := by
    have hx' : (finishInst vm₁ next).regs.x = vm₁.machine.set next.RD vm₁.Z :=
      congrArg Machine.x (machine_finishInst vm₁ next)
    have hlt : (beginInst vm inst proof).inst.inst.dest.toNat < 32 :=
      (parses_of_parseU32 hword).dest_lt
    rw [hx', hdest, Machine.set_zero hlt]
    exact (congrFun (congrArg Regs.x hregs) 0).trans hx
  rw [hmachine, ← Machine.honoured_iff, ← hM.memory_eq_iff hex.aligned, ← hex.registers,
    Machine.step, Option.map_eq_some_iff]
  constructor
  · rintro ⟨⟨x, hregisters, heq⟩, -⟩
    obtain ⟨hpc, hmemory, rfl⟩ := Machine.ext_iff.mp heq
    exact ⟨hpc.symm, hmemory.symm, hregisters⟩
  · rintro ⟨hpc, hmemory, hregisters⟩
    exact ⟨⟨_, hregisters, Machine.ext hpc.symm hmemory.symm rfl⟩, hzero⟩

end Transition

/-- A machine with a word in memory at its program counter. -/
def wordMachine (pc word : U32) : NexusVM (PagedMemory 7) (UncheckedMemory 7) :=
  .new pc (Memory.store (⟨Paged.empty⟩ : PagedMemory 7) .sw pc word).2 ⟨(0, 0)⟩

/-- `addi x1, x0, 5` at `0`. -/
theorem evalInst_step_iff_addi : ∃ vm', evalInst ⟨true⟩ (wordMachine 0 0x00500093) = (.ok (), vm') ∧
    (wordMachine 0 0x00500093).machine.step none (.alui .add 1 0 5) = some vm'.machine ∧
    vm'.regs.x 0 = 0 := by
  refine ⟨(evalInst ⟨true⟩ (wordMachine 0 0x00500093)).2, rfl, ?_⟩
  have hread : Memory.readInst (wordMachine 0 0x00500093).mem 0 = .ok (0x00500093, ⟨_, _⟩) := rfl
  have hparse : parseInst 0 (toLeBytes 0x00500093) =
    .ok ⟨0, 4, 0x00500093, .alui .add 1 0 5⟩ := rfl
  have hrun : evalInst ⟨true⟩ (wordMachine 0 0x00500093) = (.ok (), _) := rfl
  exact (evalInst_step_iff (paged_lined 7) trivial rfl hread hparse hrun).mpr
    ⟨nofun, nofun, trivial⟩

/-- **A jump to `0`** is not taken: `jal x0, 0` at `0` goes on to `4`. -/
theorem jump_zero_not_taken : ∃ vm', evalInst ⟨true⟩ (wordMachine 0 0x6f) = (.ok (), vm') ∧
    vm'.inst.inst = .jal 0 0 ∧ vm'.regs.pc = 4 ∧
    ((wordMachine 0 0x6f).machine.step none (.jal 0 0)).map Machine.pc = some 0 :=
  ⟨_, rfl, rfl, rfl, rfl⟩

/-- `ebreak x10` with the number of a read in `x18` reads nothing: `x10` stays `0`,
where the table has the answer of an empty input. -/
example : ∃ vm', evalInst ⟨true⟩ { wordMachine 0 0x00100573 with
      regs := ⟨0, Function.update 0 18 2⟩ } = (.ok (), vm') ∧ vm'.inst.inst = .ebreak 10 ∧
    vm'.regs.x 10 = 0 ∧
    ({ wordMachine 0 0x00100573 with
      regs := ⟨0, Function.update 0 18 2⟩ } : NexusVM _ _).syscallResult ⟨true⟩ = some (-1) :=
  ⟨_, rfl, rfl, rfl, rfl⟩

end NexusVm
