import NexusVm.Eval

/-!
# Traces for Jolt

`jolt/src/trace.rs` and `jolt/src/convert.rs`: the machine is run up to `unimp`, and each
step leaves a row.  A row is begun before the step, with the registers that are read and
what a load will yield, and ended after it, with the register that was written and what a
store left behind.
-/

namespace NexusVm

/-- The destination register of an instruction. -/
def RV32.rd : RV32 → Option U32
  | .lui rd _ => some rd
  | .auipc rd _ => some rd
  | .jal rd _ => some rd
  | .jalr rd _ _ => some rd
  | .alui _ rd _ _ => some rd
  | .alu _ rd _ _ => some rd
  | .load _ rd _ _ => some rd
  | .ecall rd => some rd
  | .ebreak rd => some rd
  | _ => none

/-- The first source register. -/
def RV32.rs1 : RV32 → Option U32
  | .jalr _ rs1 _ => some rs1
  | .br _ rs1 _ _ => some rs1
  | .load _ _ rs1 _ => some rs1
  | .store _ rs1 _ _ => some rs1
  | .alui _ _ rs1 _ => some rs1
  | .alu _ _ rs1 _ => some rs1
  | _ => none

/-- The second source register. -/
def RV32.rs2 : RV32 → Option U32
  | .br _ _ rs2 _ => some rs2
  | .store _ _ rs2 _ => some rs2
  | .alu _ _ _ rs2 => some rs2
  | _ => none

/-- The immediate. -/
def RV32.imm : RV32 → Option U32
  | .lui _ imm => some imm
  | .auipc _ imm => some imm
  | .jal _ imm => some imm
  | .jalr _ _ imm => some imm
  | .br _ _ _ imm => some imm
  | .load _ _ _ imm => some imm
  | .store _ _ _ imm => some imm
  | .alui _ _ _ imm => some imm
  | _ => none

namespace Jolt

/-- The `u64` of the source. -/
abbrev U64 := BitVec 64

/-- The opcodes of Jolt that instructions are converted to. -/
inductive RV32IM
  | lui | auipc | jal | jalr
  | beq | bne | blt | bge | bltu | bgeu
  | lb | lh | lw | lbu | lhu
  | sb | sh | sw
  | addi | slli | slti | sltiu | xori | srli | srai | ori | andi
  | add | sub | sll | slt | sltu | xor | srl | sra | or | and
  | fence | ecall | ebreak | unimpl
deriving DecidableEq, Repr

structure ELFInstruction where
  address : U64
  opcode : RV32IM
  rs1 : Option U64
  rs2 : Option U64
  rd : Option U64
  imm : Option U32
  virtualSequenceIndex : Option ℕ
deriving DecidableEq

structure RegisterState where
  rs1Val : Option U64
  rs2Val : Option U64
  rdPostVal : Option U64
deriving DecidableEq

inductive MemoryState
  | read (address value : U64)
  | write (address postValue : U64)
deriving DecidableEq

structure RVTraceRow where
  instruction : ELFInstruction
  registerState : RegisterState
  memoryState : Option MemoryState
deriving DecidableEq

/-- The errors of the crate that a trace may end with. -/
inductive Error
  | vm (e : NexusVMError)
  | unsupported (inst : RV32)
deriving DecidableEq

/-! ## Conversion and the trace -/

namespace Convert

def rv32Opcode : RV32 → RV32IM
  | .lui .. => .lui
  | .auipc .. => .auipc
  | .jal .. => .jal
  | .jalr .. => .jalr
  | .br .beq .. => .beq
  | .br .bne .. => .bne
  | .br .blt .. => .blt
  | .br .bge .. => .bge
  | .br .bltu .. => .bltu
  | .br .bgeu .. => .bgeu
  | .load .lb .. => .lb
  | .load .lh .. => .lh
  | .load .lw .. => .lw
  | .load .lbu .. => .lbu
  | .load .lhu .. => .lhu
  | .store .sb .. => .sb
  | .store .sh .. => .sh
  | .store .sw .. => .sw
  | .alui .add .. => .addi
  | .alui .sub .. => .addi -- does not exist
  | .alui .sll .. => .slli
  | .alui .slt .. => .slti
  | .alui .sltu .. => .sltiu
  | .alui .xor .. => .xori
  | .alui .srl .. => .srli
  | .alui .sra .. => .srai
  | .alui .or .. => .ori
  | .alui .and .. => .andi
  | .alu .add .. => .add
  | .alu .sub .. => .sub
  | .alu .sll .. => .sll
  | .alu .slt .. => .slt
  | .alu .sltu .. => .sltu
  | .alu .xor .. => .xor
  | .alu .srl .. => .srl
  | .alu .sra .. => .sra
  | .alu .or .. => .or
  | .alu .and .. => .and
  | .fence => .fence
  | .ecall _ => .ecall
  | .ebreak _ => .ebreak
  | .unimp => .unimpl

def inst (inst : Inst) : ELFInstruction where
  address := inst.pc.setWidth 64
  opcode := rv32Opcode inst.inst
  rs1 := inst.inst.rs1.map (BitVec.setWidth 64)
  rs2 := inst.inst.rs2.map (BitVec.setWidth 64)
  rd := inst.inst.rd.map (BitVec.setWidth 64)
  imm := inst.inst.imm
  virtualSequenceIndex := none

end Convert

section Trace

variable {M P : Type} [Memory M P]

/-- The memory access of a row, before the step. -/
def memoryState (vm : NexusVM M P) (inst : Inst) : Except Error (Option MemoryState) :=
  match inst.inst with
  | .load lop _ rs1 imm =>
      let x := vm.getReg rs1
      let addr := add32 x imm
      match Memory.load vm.mem lop addr with
      | .error _ => .error (.vm .panic)
      | .ok (value, _) => .ok (some (.read (addr.setWidth 64) (value.setWidth 64)))
  | .store _ rs1 _ imm =>
      let x := vm.getReg rs1
      let addr := add32 x imm
      -- the value is updated after `eval_inst`
      .ok (some (.write (addr.setWidth 64) 0))
  | _ => .ok none

def initTraceRow (vm : NexusVM M P) (inst : Inst) (elfInst : ELFInstruction) :
    Except Error RVTraceRow := do
  let memoryState ← memoryState vm inst
  return {
    instruction := elfInst
    registerState := {
      rs1Val := elfInst.rs1.map fun rs1 => (vm.getReg (rs1.setWidth 32)).setWidth 64
      rs2Val := elfInst.rs2.map fun rs2 => (vm.getReg (rs2.setWidth 32)).setWidth 64
      rdPostVal := none }
    memoryState := memoryState }

/-- The store address of an instruction, with the load of its width. -/
def storeAddr (vm : NexusVM M P) (nextInst : Inst) : Option (LOP × U32) :=
  match nextInst.inst with
  | .store sop rs1 _ imm =>
      let lop : LOP := match sop with
        | .sb => .lb
        | .sh => .lh
        | .sw => .lw
      let x := vm.getReg rs1
      let addr := add32 x imm
      some (lop, addr)
  | _ => none

def updateRowPostEval (vm : NexusVM M P) (row : RVTraceRow) (storeAddr : Option (LOP × U32)) :
    Except Error RVTraceRow :=
  let row := match row.instruction.rd with
    | some rd => { row with registerState := { row.registerState with
        rdPostVal := some ((vm.getReg (rd.setWidth 32)).setWidth 64) } }
    | none => row
  match storeAddr with
  | none => .ok row
  | some (lop, storeAddr) =>
      match Memory.load vm.mem lop storeAddr with
      | .error _ => .error (.vm .panic)
      | .ok (newValue, _) =>
          match row.memoryState with
          | some (.write address _) =>
              .ok { row with memoryState := some (.write address (newValue.setWidth 64)) }
          | _ => .error (.vm .panic)

/-- What the loop does with an instruction other than `unimp`. -/
def traceInst (B : Build) (vm : NexusVM M P) (nextInst : Inst) :
    Except Error (RVTraceRow × NexusVM M P) := do
  let storeAddr := storeAddr vm nextInst
  let inst := Convert.inst nextInst
  let row ← initTraceRow vm nextInst inst
  match evalInst B vm with
  | (.error e, _) => .error (.vm e)
  | (.ok (), vm) =>
      if .rv32Nexus ∈ vm.instructionSets then .error (.unsupported nextInst.inst)
      else do
        let row ← updateRowPostEval vm row storeAddr
        return (row, vm)

/-- The loop of `trace`, for at most `fuel` rounds. -/
def traceLoop (B : Build) : ℕ → NexusVM M P → List RVTraceRow →
    Option (Except Error (List RVTraceRow))
  | 0, _, _ => none
  | fuel + 1, vm, trace =>
      match Memory.load vm.mem .lw vm.regs.pc with
      | .error e => some (.error (.vm e))
      | .ok (slice, _) =>
          match parseInst vm.regs.pc (toLeBytes slice) with
          | .error e => some (.error (.vm e))
          | .ok nextInst =>
              if nextInst.inst = .unimp then some (.ok trace)
              else
                match traceInst B vm nextInst with
                | .error e => some (.error e)
                | .ok (row, vm) => traceLoop B fuel vm (trace ++ [row])

/-- Trace the execution of a machine. -/
def trace (B : Build) (fuel : ℕ) (vm : NexusVM M P) : Option (Except Error (List RVTraceRow)) :=
  traceLoop B fuel vm []

end Trace

end Jolt

end NexusVm
