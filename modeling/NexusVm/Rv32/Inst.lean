import Mathlib.Data.ZMod.Basic

/-!
# RV32 instructions

The abstract syntax of `vm/src/rv32.rs`: operation kinds, instructions and the
index `J` by which the step circuit names each kind of instruction.
-/

namespace NexusVm

/-- The `u32` of the source. -/
abbrev U32 := BitVec 32

/-- Branch instruction type. -/
inductive BOP
  | beq | bne | blt | bge | bltu | bgeu
deriving DecidableEq, Repr

/-- Load instruction type. -/
inductive LOP
  | lb | lh | lw | lbu | lhu
deriving DecidableEq, Repr

/-- Store instruction type. -/
inductive SOP
  | sb | sh | sw
deriving DecidableEq, Repr

/-- ALU instruction type. -/
inductive AOP
  | add | sub | slt | sltu | sll | srl | sra | or | and | xor
deriving DecidableEq, Repr

inductive InstructionSet
  | rv32i | rv32Nexus
deriving DecidableEq, Repr

/-- RV32 instructions.  `ecall` and `ebreak` carry the return register of the
RV32Nexus extension. -/
inductive RV32
  | lui (rd imm : U32)
  | auipc (rd imm : U32)
  | jal (rd imm : U32)
  | jalr (rd rs1 imm : U32)
  | br (bop : BOP) (rs1 rs2 imm : U32)
  | load (lop : LOP) (rd rs1 imm : U32)
  | store (sop : SOP) (rs1 rs2 imm : U32)
  | alui (aop : AOP) (rd rs1 imm : U32)
  | alu (aop : AOP) (rd rs1 rs2 : U32)
  | fence
  | ecall (rd : U32)
  | ebreak (rd : U32)
  | unimp
deriving DecidableEq, Repr

instance : Inhabited RV32 := ⟨.unimp⟩

/-- A parsed RV32 instruction: where it was found, its length in bytes, and
the 32-bit word it was parsed from. -/
structure Inst where
  pc : U32
  len : U32
  word : U32
  inst : RV32
deriving DecidableEq, Repr, Inhabited

namespace RV32

/-- The maximum `J` value. -/
def maxJ : ℕ := 42

def instructionSet : RV32 → InstructionSet
  | ecall _ | ebreak _ => .rv32Nexus
  | _ => .rv32i

/-- The `J` index of an instruction. -/
def indexJ : RV32 → ℕ
  | lui .. => 1
  | auipc .. => 2
  | jal .. => 3
  | jalr .. => 4
  | br .beq .. => 5
  | br .bne .. => 6
  | br .blt .. => 7
  | br .bge .. => 8
  | br .bltu .. => 9
  | br .bgeu .. => 10
  | load .lb .. => 11
  | load .lh .. => 12
  | load .lw .. => 13
  | load .lbu .. => 14
  | load .lhu .. => 15
  | store .sb .. => 16
  | store .sh .. => 17
  | store .sw .. => 18
  | alui .add .. => 19
  | alui .sub .. => 20 -- does not exist
  | alui .sll .. => 21
  | alui .slt .. => 22
  | alui .sltu .. => 23
  | alui .xor .. => 24
  | alui .srl .. => 25
  | alui .sra .. => 26
  | alui .or .. => 27
  | alui .and .. => 28
  | alu .add .. => 29
  | alu .sub .. => 30
  | alu .sll .. => 31
  | alu .slt .. => 32
  | alu .sltu .. => 33
  | alu .xor .. => 34
  | alu .srl .. => 35
  | alu .sra .. => 36
  | alu .or .. => 37
  | alu .and .. => 38
  | fence => 39
  | ecall _ => 40
  | ebreak _ => 41
  | unimp => 42

/-- Every index lies in `1 ..= MAX_J`. -/
theorem indexJ_mem (i : RV32) : 1 ≤ i.indexJ ∧ i.indexJ ≤ maxJ := by
  cases i with
  | br bop => cases bop <;> simp [indexJ, maxJ]
  | load lop => cases lop <;> simp [indexJ, maxJ]
  | store sop => cases sop <;> simp [indexJ, maxJ]
  | alui aop => cases aop <;> simp [indexJ, maxJ]
  | alu aop => cases aop <;> simp [indexJ, maxJ]
  | _ => simp [indexJ, maxJ]

end RV32

/-- Errors of VM initialisation and execution.  `panic` stands for a Rust
panic (failed assertion, `unwrap` of `None`, arithmetic overflow under
overflow checks), which is not a value of the source's error type. -/
inductive NexusVMError
  | partialInstruction (pc : U32)
  | invalidSize (pc size : U32)
  | invalidInstruction (pc word : U32)
  | unknownECall (pc code : U32)
  | misaligned (addr : U32)
  | hashError (msg : String)
  | maxTraceLengthExceeded (len : ℕ)
  | invalidProfileLabel
  | panic
deriving DecidableEq, Repr

end NexusVm
