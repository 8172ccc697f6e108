import NexusVm.Builder.Program

/-!
# Variable names of the step circuit

The source names variables by formatted strings.  Here each format is one
constructor with the formatted parts as its arguments; the string of a name
`v` is written `{v}` below.
-/

namespace NexusVm.Circuit

open NexusVm.Builder

/-- Instruction formats, as in `type={ty}` and `imm{ty}`. -/
inductive Ty
  | R | I | S | B | U | J | A
deriving DecidableEq, Repr

inductive Var
  -- registers, roots, and the three opened cache lines
  | pc | PC | root | ROOT
  /-- `x{i}` -/
  | x (i : ℕ)
  /-- `x'{i}` -/
  | x' (i : ℕ)
  | pcMem | readMem | writeMem
  /-- `{v}_lo` -/
  | lo (v : Var)
  /-- `{v}_hi` -/
  | hi (v : Var)
  -- instruction
  | X | Y | I | Z | rd | rs1 | rs2 | shamt | inst | opcode | J | four
  | f3 | f7 | f7sub32 | lowA | lowY
  /-- `type={ty}` -/
  | type (ty : Ty)
  /-- `imm{ty}` -/
  | imm (ty : Ty)
  -- derived names
  /-- `{v}_{i}` -/
  | bit (v : Var) (i : ℕ)
  /-- `{v}={k}` -/
  | is (v : Var) (k : ℕ)
  /-- `pc+4` -/
  | pc4
  /-- `{u}+{v}` -/
  | plus (u v : Var)
  /-- `{u}-{v}` -/
  | minus (u v : Var)
  /-- `{u}&{v}` -/
  | conj (u v : Var)
  /-- `{u}<{v}` -/
  | lt (u v : Var)
  /-- `{u}={v}` -/
  | eq (u v : Var)
  /-- `{u}>={v}` -/
  | ge (u v : Var)
  /-- `{u}!={v}` -/
  | ne (u v : Var)
  /-- `{u}<s{v}` -/
  | slt (u v : Var)
  /-- `{u}>=s{v}` -/
  | sge (u v : Var)
  /-- `{v}{k}` -/
  | cat (v : Var) (k : ℕ)
  /-- `{v}_{bits}_{i}` -/
  | unit (v : Var) (bits i : ℕ)
  /-- `{v}_sb` -/
  | sb (v : Var)
  /-- `{v}_sv` -/
  | sv (v : Var)
  /-- `Z{j}` -/
  | ZJ (j : ℕ)
  /-- `PC{j}` -/
  | PCJ (j : ℕ)
  /-- `JZ{j}` -/
  | JZ (j : ℕ)
  /-- `JPC{j}` -/
  | JPC (j : ℕ)
  /-- `J={j},w{bits}` -/
  | Jw (j bits : ℕ)
  -- locals
  /-- `x-{i}` -/
  | xk (i : ℕ)
  /-- `l{i}` -/
  | l (i : ℕ)
  /-- `r{i}` -/
  | r (i : ℕ)
  /-- `cx{i}` -/
  | cx (i : ℕ)
  /-- `rsx{i}` -/
  | rsx (i : ℕ)
  /-- `z{i}` -/
  | z (i : ℕ)
  /-- `ti{ty}` -/
  | ti (ty : Ty)
  /-- `is_shift` -/
  | isShift
  | a1 | a2
  /-- `shamt_i` -/
  | shamtI
  /-- `shamt_r` -/
  | shamtR
  /-- `f3=0a` -/
  | f30a
  /-- `f3=0b` -/
  | f30b
  /-- `f3=5a` -/
  | f35a
  /-- `f3=5b` -/
  | f35b
  | ecall
  /-- `O` -/
  | O
  | ds
  /-- `Xs*Ys` -/
  | XsYs
  | sltl | sltr | left | right
  /-- `{result}_left`, where the source formats the column of `result` -/
  | chooseL (v : Var)
  /-- `{result}_right`, likewise -/
  | chooseR (v : Var)
  /-- `out{i}` -/
  | out (i : ℕ)
  /-- `SZ{i}` -/
  | SZ (i : ℕ)
deriving DecidableEq, Repr

namespace Var

/-- The names that the source only ever allocates with `new_local_var`. -/
def isLocalVar : Var → Bool
  | xk _ | l _ | r _ | cx _ | rsx _ | z _ | ti _ | isShift | a1 | a2 | shamtI | shamtR => true
  | f30a | f30b | f35a | f35b | ecall | O | ds | XsYs | sltl | sltr | left | right => true
  | chooseL _ | chooseR _ | out _ | SZ _ => true
  | _ => false

end Var

end NexusVm.Circuit
