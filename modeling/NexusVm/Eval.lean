import NexusVm.Rv32.Parse
import NexusVm.Syscalls

/-!
# The virtual machine

`vm/src/eval.rs`: the state of the machine and the evaluation of one
instruction.  Evaluation mutates the state in place, so every stage returns
the state also when it fails.
-/

namespace NexusVm

/-- Virtual machine state over a memory `M` with proofs `P`. -/
structure NexusVM (M P : Type) where
  regs : Regs
  syscalls : Syscalls
  /-- current instruction -/
  inst : Inst
  /-- internal result register -/
  Z : U32
  instructionSets : Finset InstructionSet
  mem : M
  pcProof : P
  readProof : Option P
  writeProof : Option P
  /-- number of executed instructions -/
  traceLen : ℕ
  /-- maximum (inclusive) number of instructions, counting `unimp` -/
  maxTraceLen : Option ℕ
  cycleCount : ℕ
  /-- cycle tracker: label to (cycle count, counter) -/
  cycleTracker : String → Option (ℕ × U32)

def add32 (a b : U32) : U32 := a + b

def sub32 (a b : U32) : U32 := a - b

def brOp (bop : BOP) (x y : U32) : Bool :=
  match bop with
  | .beq => x == y
  | .bne => x != y
  | .blt => x.slt y
  | .bge => !x.slt y
  | .bltu => x.ult y
  | .bgeu => !x.ult y

def aluOp (aop : AOP) (x y : U32) : U32 :=
  let shamt := (y &&& 0x1f).toNat
  match aop with
  | .add => add32 x y
  | .sub => sub32 x y
  | .slt => (BitVec.ofBool (x.slt y)).setWidth 32
  | .sltu => (BitVec.ofBool (x.ult y)).setWidth 32
  | .sll => x <<< shamt
  | .srl => x >>> shamt
  | .sra => x.sshiftRight shamt
  | .and => x &&& y
  | .or => x ||| y
  | .xor => x ^^^ y

namespace NexusVM

variable {M P : Type}

/-- A machine with cleared registers; `proof` is the default proof. -/
def new (pc : U32) (mem : M) (proof : P) : NexusVM M P :=
  { regs := ⟨pc, fun _ => 0⟩, syscalls := default, inst := default, Z := 0,
    instructionSets := ∅, mem := mem, pcProof := proof, readProof := none, writeProof := none,
    traceLen := 0, maxTraceLen := none, cycleCount := 0, cycleTracker := fun _ => none }

def getReg (vm : NexusVM M P) (r : U32) : U32 := if r = 0 then 0 else vm.regs.x (regIdx r)

def setReg (vm : NexusVM M P) (r val : U32) : NexusVM M P :=
  if r = 0 then vm
  else { vm with regs := { vm.regs with x := Function.update vm.regs.x (regIdx r) val } }

end NexusVM

section Profile

variable {M P : Type}

/-- Rust's `a - b` on `u32`. -/
def Build.sub (B : Build) (a b : U32) : Except NexusVMError U32 :=
  if B.overflowChecks && decide (a.toNat < b.toNat) then .error .panic else .ok (a - b)

/-- Rust's `str::from_utf8`. -/
def fromUtf8 (bytes : List U8) : Option String :=
  String.fromUTF8? ⟨(bytes.map fun b => UInt8.ofNat b.toNat).toArray⟩

def startProfile (B : Build) (vm : NexusVM M P) (fnName : String) :
    Except NexusVMError Unit × NexusVM M P :=
  let (clk, counter) := (vm.cycleTracker fnName).getD (vm.cycleCount, 0)
  match B.add counter 1 with
  | .error e =>
      (.error e, { vm with
        cycleTracker := Function.update vm.cycleTracker fnName (some (clk, counter)) })
  | .ok counter' =>
      (.ok (), { vm with
        cycleTracker := Function.update vm.cycleTracker fnName (some (clk, counter')) })

def endProfile (B : Build) (vm : NexusVM M P) (fnName : String) :
    Except NexusVMError Unit × NexusVM M P :=
  match vm.cycleTracker fnName with
  | none => (.error .invalidProfileLabel, vm)
  | some (clk, counter) =>
      match B.sub counter 1 with
      | .error e => (.error e, vm)
      | .ok counter' =>
          let clk' := if counter' = 0 then vm.cycleCount - clk else clk
          (.ok (), { vm with
            cycleTracker := Function.update vm.cycleTracker fnName (some (clk', counter')) })

def handleProfileCycles (B : Build) (vm : NexusVM M P) :
    Except NexusVMError Unit × NexusVM M P :=
  let (bytes, syscalls) := vm.syscalls.getLabel
  let vm := { vm with syscalls := syscalls }
  match bytes.bind fromUtf8 with
  | none => (.error .invalidProfileLabel, vm)
  | some label =>
      match (label.splitOn "#").getLast? with
      | none => (.error .invalidProfileLabel, vm)
      | some fnName =>
          match label.toList.head? with
          | some '^' => startProfile B vm fnName
          | some '$' => endProfile B vm fnName
          | _ => (.error .invalidProfileLabel, vm)

/-! ## Evaluation -/

variable [Memory M P]

/-- What an instruction leaves for the end of the step: the destination
register `RD` and the jump target `PC`, of which `0` means none. -/
structure Next where
  RD : U32
  PC : U32
deriving DecidableEq

/-- The `match` of `eval_inst` over the current instruction. -/
def execInst (B : Build) (vm : NexusVM M P) : Except NexusVMError Next × NexusVM M P :=
  match vm.inst.inst with
  | .lui rd imm => (.ok ⟨rd, 0⟩, { vm with Z := imm })
  | .auipc rd imm => (.ok ⟨rd, 0⟩, { vm with Z := add32 vm.regs.pc imm })
  | .jal rd imm => (.ok ⟨rd, add32 vm.regs.pc imm⟩, { vm with Z := add32 vm.regs.pc 4 })
  | .jalr rd rs1 imm =>
      let X := vm.getReg rs1
      (.ok ⟨rd, add32 X imm⟩, { vm with Z := add32 vm.regs.pc 4 })
  | .br bop rs1 rs2 imm =>
      let X := vm.getReg rs1
      let Y := vm.getReg rs2
      (.ok ⟨0, if brOp bop X Y then add32 vm.regs.pc imm else 0⟩, vm)
  | .load lop rd rs1 imm =>
      let X := vm.getReg rs1
      let addr := add32 X imm
      match Memory.load vm.mem lop addr with
      | .error e => (.error e, vm)
      | .ok (val, proof) => (.ok ⟨rd, 0⟩, { vm with readProof := some proof, Z := val })
  | .store sop rs1 rs2 imm =>
      let X := vm.getReg rs1
      let Y := vm.getReg rs2
      let addr := add32 X imm
      let lop : LOP := match sop with
        | .sb => .lb
        | .sh => .lh
        | .sw => .lw
      match Memory.load vm.mem lop addr with
      | .error e => (.error e, vm)
      | .ok (_, proof) =>
          let vm := { vm with readProof := some proof }
          match Memory.store vm.mem sop addr Y with
          | (.error e, mem') => (.error e, { vm with mem := mem' })
          | (.ok proof, mem') => (.ok ⟨0, 0⟩, { vm with writeProof := some proof, mem := mem' })
  | .alui aop rd rs1 imm =>
      let X := vm.getReg rs1
      (.ok ⟨rd, 0⟩, { vm with Z := aluOp aop X imm })
  | .alu aop rd rs1 rs2 =>
      let X := vm.getReg rs1
      let Y := vm.getReg rs2
      (.ok ⟨rd, 0⟩, { vm with Z := aluOp aop X Y })
  | .fence => (.ok ⟨0, 0⟩, vm)
  | .ebreak _ => (.ok ⟨0, 0⟩, vm)
  | .ecall rd =>
      match vm.syscalls.syscall B vm.regs.pc vm.regs.x vm.mem with
      | (.error e, syscalls) => (.error e, { vm with syscalls := syscalls })
      | (.ok z, syscalls) =>
          let vm := { vm with syscalls := syscalls, Z := z }
          if vm.regs.x 18 = SyscallCode.profileCycles.toU32 then
            match handleProfileCycles B vm with
            | (.error e, vm) => (.error e, vm)
            | (.ok (), vm) => (.ok ⟨rd, 0⟩, vm)
          else (.ok ⟨rd, 0⟩, vm)
  | .unimp => (.ok ⟨0, vm.inst.pc⟩, vm)

/-- Cycles per instruction kind. -/
def cyclesOf : RV32 → ℕ
  | .load .. | .store .. => 3
  | .br .. => 2
  | .lui .. | .auipc .. | .jal .. | .jalr .. | .alui .. | .alu .. => 1
  | .ecall _ => 4
  | .ebreak _ => 4
  | _ => 0

/-- The end of `eval_inst`: next program counter, register write, counters. -/
def finishInst (vm : NexusVM M P) (next : Next) : NexusVM M P :=
  let PC := if next.PC = 0 then add32 vm.inst.pc vm.inst.len else next.PC
  let vm' := vm.setReg next.RD vm.Z
  { vm' with
    regs := { vm'.regs with pc := PC }
    traceLen := vm.traceLen + 1
    cycleCount := vm.cycleCount + cyclesOf vm.inst.inst }

/-- The little-endian bytes of a word. -/
def toLeBytes (word : U32) : List U8 :=
  [word.extractLsb' 0 8, word.extractLsb' 8 8, word.extractLsb' 16 8, word.extractLsb' 24 8]

/-- The micro-architecture state at the start of an instruction. -/
def beginInst (vm : NexusVM M P) (inst : Inst) (proof : P) : NexusVM M P :=
  { vm with
    inst := inst, Z := 0, pcProof := proof, readProof := none, writeProof := none
    instructionSets := insert inst.inst.instructionSet vm.instructionSets }

/-- Evaluate the next instruction. -/
def evalInst (B : Build) (vm : NexusVM M P) : Except NexusVMError Unit × NexusVM M P :=
  if vm.maxTraceLen.any fun maxTraceLen => decide (maxTraceLen ≤ vm.traceLen) then
    (.error (.maxTraceLengthExceeded vm.traceLen), vm)
  else
    match Memory.readInst vm.mem vm.regs.pc with
    | .error e => (.error e, vm)
    | .ok (word, proof) =>
        match parseInst vm.regs.pc (toLeBytes word) with
        | .error e => (.error e, vm)
        | .ok inst =>
            match execInst B (beginInst vm inst proof) with
            | (.error e, vm') => (.error e, vm')
            | (.ok next, vm') => (.ok (), finishInst vm' next)

end Profile

end NexusVm
