import NexusVm.Memory.Basic

/-!
# System calls

`vm/src/syscalls.rs`.  Bytes that go to standard output leave the model.
-/

namespace NexusVm

/-- ISA defined registers. -/
@[ext] structure Regs where
  pc : U32
  x : Fin 32 → U32
deriving DecidableEq

/-- Index of a register operand.  Operands are five-bit fields of a word. -/
def regIdx (r : U32) : Fin 32 := Fin.ofNat 32 r.toNat

/-- Information related to the syscall implementation. -/
structure Syscalls where
  toStdout : Bool
  logBuffer : List (List U8)
  input : List U8
  output : List U8
  label : List (List U8)
deriving DecidableEq

instance : Inhabited Syscalls := ⟨⟨false, [], [], [], []⟩⟩

inductive SyscallCode
  | writeLog | readFromPrivateInput | writeToOutput | profileCycles
deriving DecidableEq, Repr

namespace SyscallCode

def toU32 : SyscallCode → U32
  | writeLog => 1
  | readFromPrivateInput => 2
  | writeToOutput => 3
  | profileCycles => 5

def tryFrom (pc syscode : U32) : Except NexusVMError SyscallCode :=
  match syscode.toNat with
  | 1 => .ok writeLog
  | 2 => .ok readFromPrivateInput
  | 3 => .ok writeToOutput
  | 5 => .ok profileCycles
  | _ => .error (.unknownECall pc syscode)

end SyscallCode

namespace Syscalls

variable {M P : Type} [Memory M P]

/-- Remove and return the last label. -/
def getLabel (s : Syscalls) : Option (List U8) × Syscalls :=
  (s.label.getLast?, { s with label := s.label.dropLast })

def writelog (B : Build) (s : Syscalls) (source len : U32) (memory : M) :
    Except NexusVMError U32 × Syscalls :=
  match Memory.loadN B memory source len with
  | .error e => (.error e, s)
  | .ok nxt => (.ok 0, if s.toStdout then s else { s with logBuffer := s.logBuffer ++ [nxt] })

/-- Next byte of the private input, or `u32::MAX`. -/
def readFromPrivateInput (s : Syscalls) : Except NexusVMError U32 × Syscalls :=
  match s.input with
  | [] => (.ok 0xffffffff, s)
  | b :: input => (.ok (b.setWidth 32), { s with input := input })

def writeToOutput (B : Build) (s : Syscalls) (source len : U32) (memory : M) :
    Except NexusVMError U32 × Syscalls :=
  match Memory.loadN B memory source len with
  | .error e => (.error e, s)
  | .ok buf => (.ok 0, { s with output := s.output ++ buf })

def profileCycles (B : Build) (s : Syscalls) (source len : U32) (memory : M) :
    Except NexusVMError U32 × Syscalls :=
  match Memory.loadN B memory source len with
  | .error e => (.error e, s)
  | .ok buf => (.ok SyscallCode.profileCycles.toU32, { s with label := s.label ++ [buf] })

/-- Handle the syscall that the registers describe. -/
def syscall (B : Build) (s : Syscalls) (pc : U32) (regs : Fin 32 → U32) (memory : M) :
    Except NexusVMError U32 × Syscalls :=
  match SyscallCode.tryFrom pc (regs 18) with
  | .error e => (.error e, s)
  | .ok .writeLog => s.writelog B (regs 11) (regs 12) memory
  | .ok .readFromPrivateInput => s.readFromPrivateInput
  | .ok .writeToOutput => s.writeToOutput B (regs 11) (regs 12) memory
  | .ok .profileCycles => s.profileCycles B (regs 11) (regs 12) memory

end Syscalls

end NexusVm
