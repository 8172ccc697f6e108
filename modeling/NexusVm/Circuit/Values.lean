import NexusVm.Circuit.LoadStore

/-!
# Values of the step circuit

The values of all global names, computed from the witness of a step and from
the few choices that no row ties to it (`Forge`).  `Fitting` says when the rows
accept these values, `Genuine` when they are those that the builder computes.
-/

namespace NexusVm.Circuit

open NexusVm.Builder

/-- What the rows leave open: the value of `x'0`, the unsigned and the equality
flag of both comparisons, and the unit of a line for each width. -/
structure Forge where
  x0 : U32
  ltXY : Bool
  eqXY : Bool
  ltXI : Bool
  eqXI : Bool
  unit : ℕ → ℕ

section Values

variable {p : ℕ} [Fact p.Prime] {P : Type} [MemoryProof P p]

/-- The signed comparison that goes with an unsigned one. -/
def signedFlag (x y : U32) (lt : Bool) : Bool := (x.msb != y.msb) != lt

/-- The difference that goes with an unsigned comparison. -/
def diff (x y : U32) (lt : Bool) : ZMod p :=
  (x.toNat : ZMod p) - (y.toNat : ZMod p) + ((0x100000000 : ℕ) : ZMod p) * flag lt

/-- The half of an opened line that bit 4 of the address selects. -/
def lineHalf (w : Witness P) (proof : P) : ZMod p :=
  if (w.X + w.I).getLsbD 4 then (MemoryProof.data proof).2 else (MemoryProof.data proof).1

/-- The unit of a line for a width. -/
def chosen (w : Witness P) (f : Forge) (proof : P) (width : ℕ) : ℕ :=
  unitOf (lineHalf w proof) width (f.unit width)

/-- `Z{j}`. -/
def zVal (w : Witness P) (f : Forge) : ℕ → ZMod p
  | 1 => w.I.toNat
  | 2 => (w.regs.pc + w.I).toNat
  | 3 | 4 => (w.regs.pc + 4).toNat
  | 11 => signExtend 7 (chosen w f w.readProof 8)
  | 12 => signExtend 15 (chosen w f w.readProof 16)
  | 13 => chosen w f w.readProof 32
  | 14 => chosen w f w.readProof 8
  | 15 => chosen w f w.readProof 16
  | 19 => (w.X + w.I).toNat
  | 20 => diff w.X w.I f.ltXI
  | 21 => (w.X <<< w.shamt.toNat).toNat
  | 22 => flag (signedFlag w.X w.I f.ltXI)
  | 23 => flag f.ltXI
  | 24 => (w.X ^^^ w.I).toNat
  | 25 => (w.X >>> w.shamt.toNat).toNat
  | 26 => (w.X.sshiftRight w.shamt.toNat).toNat
  | 27 => (w.X ||| w.I).toNat
  | 28 => (w.X &&& w.I).toNat
  | 29 => (w.X + w.Y).toNat
  | 30 => diff w.X w.Y f.ltXY
  | 31 => (w.X <<< w.shamt.toNat).toNat
  | 32 => flag (signedFlag w.X w.Y f.ltXY)
  | 33 => flag f.ltXY
  | 34 => (w.X ^^^ w.Y).toNat
  | 35 => (w.X >>> w.shamt.toNat).toNat
  | 36 => (w.X.sshiftRight w.shamt.toNat).toNat
  | 37 => (w.X ||| w.Y).toNat
  | 38 => (w.X &&& w.Y).toNat
  | 40 => w.Z.toNat
  | _ => 0

/-- Whether branch `j` is taken. -/
def taken (w : Witness P) (f : Forge) : ℕ → Bool
  | 5 => f.eqXY
  | 6 => !f.eqXY
  | 7 => signedFlag w.X w.Y f.ltXY
  | 8 => !signedFlag w.X w.Y f.ltXY
  | 9 => f.ltXY
  | 10 => !f.ltXY
  | _ => false

/-- `PC{j}`. -/
def pcVal (w : Witness P) (f : Forge) (j : ℕ) : U32 :=
  if j = 3 ∨ taken w f j then w.regs.pc + w.I
  else if j = 4 then w.X + w.I
  else if j = 42 then w.regs.pc
  else w.regs.pc + 4

/-- The names whose value is a word. -/
def wordOf (w : Witness P) (f : Forge) : Var → U32
  | .pc => w.regs.pc
  | .PC => w.PC
  | .x i => w.regs.x (Fin.ofNat 32 i)
  | .x' i => if i = 0 then f.x0 else if i = w.rd.toNat then w.Z else w.regs.x (Fin.ofNat 32 i)
  | .X => w.X
  | .Y => w.Y
  | .I => w.I
  | .Z => w.Z
  | .rd => w.rd
  | .rs1 => w.rs1
  | .rs2 => w.rs2
  | .shamt => w.shamt
  | .inst => w.inst
  | .opcode => opcode w.inst
  | .four => 4
  | .f3 => funct3 w.inst
  | .f7 => funct7 w.inst
  | .lowA => NexusVm.shamt w.inst
  | .lowY => w.Y &&& 0x1f
  | .imm .I => immI w.inst
  | .imm .S => immS w.inst
  | .imm .B => immB w.inst
  | .imm .U => immU w.inst
  | .imm .J => immJ w.inst
  | .imm .A => immA w.inst
  | .pc4 => w.regs.pc + 4
  | .plus .pc .I => w.regs.pc + w.I
  | .plus .X .Y => w.X + w.Y
  | .plus .X .I => w.X + w.I
  | .conj .X .Y => w.X &&& w.Y
  | .conj .X .I => w.X &&& w.I
  | .ZJ 24 => w.X ^^^ w.I
  | .ZJ 27 => w.X ||| w.I
  | .ZJ 34 => w.X ^^^ w.Y
  | .ZJ 37 => w.X ||| w.Y
  | .PCJ j => pcVal w f j
  | _ => 0

/-- The numbers that selectors are about. -/
def indexOf (w : Witness P) (f : Forge) : Var → ℕ
  | .J => w.J
  | .cat (.plus .X .I) width => f.unit width
  | v => (wordOf w f v).toNat

/-- The names that hold half a line. -/
def halfOf (w : Witness P) : Var → ZMod p
  | .readMem => lineHalf w w.readProof
  | .writeMem => lineHalf w w.writeProof
  | _ => 0

/-- The value of every global name. -/
def val (w : Witness P) (f : Forge) : Var → ZMod p
  | .root => MemoryProof.commit w.pcProof
  | .ROOT => MemoryProof.commit w.writeProof
  | .lo .pcMem => (MemoryProof.data w.pcProof).1
  | .hi .pcMem => (MemoryProof.data w.pcProof).2
  | .lo .readMem => (MemoryProof.data w.readProof).1
  | .hi .readMem => (MemoryProof.data w.readProof).2
  | .lo .writeMem => (MemoryProof.data w.writeProof).1
  | .hi .writeMem => (MemoryProof.data w.writeProof).2
  | .J => w.J
  | .f7sub32 => ((funct7 w.inst).toNat : ZMod p) - 32
  | .type ty => if typeOf (opcode w.inst).toNat = some ty then 1 else 0
  | .is v k => if k = indexOf w f v then 1 else 0
  | .minus .X .Y => diff w.X w.Y f.ltXY
  | .minus .X .I => diff w.X w.I f.ltXI
  | .lt .X .Y => flag f.ltXY
  | .lt .X .I => flag f.ltXI
  | .eq .X .Y => flag f.eqXY
  | .eq .X .I => flag f.eqXI
  | .ge .X .Y => flag !f.ltXY
  | .ge .X .I => flag !f.ltXI
  | .ne .X .Y => flag !f.eqXY
  | .ne .X .I => flag !f.eqXI
  | .slt .X .Y => flag (signedFlag w.X w.Y f.ltXY)
  | .slt .X .I => flag (signedFlag w.X w.I f.ltXI)
  | .sge .X .Y => flag !(signedFlag w.X w.Y f.ltXY)
  | .sge .X .I => flag !(signedFlag w.X w.I f.ltXI)
  | .readMem => lineHalf w w.readProof
  | .writeMem => lineHalf w w.writeProof
  | .bit .readMem i => flag ((lineHalf w w.readProof).val.testBit i)
  | .bit .writeMem i => flag ((lineHalf w w.writeProof).val.testBit i)
  | .bit v i => flag ((wordOf w f v).getLsbD i)
  | .unit v width i => (unitOf (halfOf w v) width i : ℕ)
  | .cat (.plus .X .I) width => (f.unit width : ℕ)
  | .cat .readMem width => chosen w f w.readProof width
  | .cat .writeMem width => chosen w f w.writeProof width
  | .sb (.cat .readMem width) => flag ((chosen w f w.readProof width).testBit (width - 1))
  | .sv (.cat .readMem width) => ((chosen w f w.readProof width % 2 ^ (width - 1) : ℕ) : ZMod p)
  | .ZJ j => zVal w f j
  | .JZ j => if j = w.J then (w.Z.toNat : ZMod p) else 0
  | .JPC j => if j = w.J then (w.PC.toNat : ZMod p) else 0
  | .Jw j width => if j = w.J then (chosen w f w.writeProof width : ZMod p) else 0
  | v => (wordOf w f v).toNat

end Values

end NexusVm.Circuit
