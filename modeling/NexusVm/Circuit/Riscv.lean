import NexusVm.Circuit.R1cs
import NexusVm.Trace
import Mathlib.Algebra.Field.ZMod

/-!
# The step circuit

`vm/src/circuit/riscv.rs`: the constraint system of one VM step, built from
the witness of that step.  The source works over the scalar field of BN254;
here the field is `ZMod p` for any prime `p`.
-/

namespace NexusVm.Circuit

open NexusVm.Builder

/-- The arity of the step circuit. -/
def arity : ℕ := 34

section Riscv

variable {p : ℕ} [Fact p.Prime]

/-- Builder calls over `ZMod p`. -/
abbrev Ops (p : ℕ) : Type := List (Op Var (ZMod p))

def addProof {P : Type} [MemoryProof P p] (pre : Var) (proof : P) : Ops p :=
  setFieldVar (.lo pre) (MemoryProof.data proof).1 ++
    setFieldVar (.hi pre) (MemoryProof.data proof).2

def initCs {P : Type} [MemoryProof P p] (w : Witness P) : Ops p :=
  -- inputs
  setVar .pc w.regs.pc ++
    (List.range 32).flatMap (fun i => setVar (.x i) (w.regs.x (Fin.ofNat 32 i))) ++
    setFieldVar .root (MemoryProof.commit w.pcProof) ++
    -- outputs
    setVar .PC w.PC ++
    (List.range 32).flatMap (fun i => setVar (.x' i) (w.regs.x (Fin.ofNat 32 i))) ++
    setFieldVar .ROOT (MemoryProof.commit w.writeProof) ++
    -- memory contents
    addProof .pcMem w.pcProof ++ addProof .readMem w.readProof ++ addProof .writeMem w.writeProof

def selectXY (wo : Bool) (rs1 rs2 : U32) : Ops p :=
  loadReg wo .rs1 .X rs1.toNat ++ loadReg wo .rs2 .Y rs2.toNat

def selectZ (wo : Bool) (rd : U32) : Ops p := [.newVar .Z] ++ storeReg wo .rd .Z rd.toNat

/-- The format that an opcode selects. -/
def typeOf (opc : ℕ) : Option Ty :=
  match opc with
  | 0b0110111 | 0b0010111 => some .U
  | 0b1101111 => some .J
  | 0b1100111 => some .I
  | 0b1100011 => some .B
  | 0b0000011 => some .I
  | 0b0100011 => some .S
  | 0b0010011 => some .A
  | 0b0110011 => some .R
  | 0b0001111 => some .R
  | 0b1110011 => some .R
  | _ => none

/-- The opcodes that `opcode` is tested against. -/
def opcodes : List ℕ :=
  [opcLui, opcAuipc, opcJal, opcJalr, opcBr, opcLoad, opcStore, opcAlui, opcAlu, opcFence, opcEcall]

def typeBits : Ops p :=
  [Ty.R, .I, .S, .B, .U, .J, .A].flatMap fun ty => setBit (.type ty) false

/-- The `match` on the opcode, which panics on an invalid one. -/
def setType (opc : ℕ) : Ops p :=
  match typeOf opc with
  | some ty => setVar (.type ty) 1
  | none => [.check [] fun _ => false]

def parseOpcRows : Ops p :=
  [ -- type=I
    add (.type .I) (.is .opcode opcJalr) (.is .opcode opcLoad),
    -- type=U
    add (.type .U) (.is .opcode opcLui) (.is .opcode opcAuipc),
    -- type=R
    sumRow (.type .R) ([opcAlu, opcFence, opcEcall].map (.is .opcode)),
    -- parse inst
    .constraint (powRow 1 (bitNames .inst 0 7)) [.const 1] [.put .opcode 1],
    -- parse rd; ecall is not skipped, its `rd` is used by RV32Nexus
    .constraint (powRow 1 (bitNames .inst 7 5))
      (.const 1 :: [opcBr, opcStore].map fun op => .put (.is .opcode op) (-1)) [.put .rd 1],
    -- parse rs1
    .constraint (powRow 1 (bitNames .inst 15 5))
      (.const 1 :: [opcLui, opcAuipc, opcJal, opcEcall].map fun op => .put (.is .opcode op) (-1))
      [.put .rs1 1],
    -- parse rs2
    .constraint (powRow 1 (bitNames .inst 20 5))
      ([opcBr, opcStore, opcAlu].map fun op => .put (.is .opcode op) 1) [.put .rs2 1]]

def parseOpcBody (wo : Bool) : Ops p :=
  setEq (.type .J) (.is .opcode opcJal) ++ setEq (.type .B) (.is .opcode opcBr) ++
    setEq (.type .S) (.is .opcode opcStore) ++ setEq (.type .A) (.is .opcode opcAlui) ++
    if wo then [] else parseOpcRows

def parseOpc (wo : Bool) (inst : U32) : Ops p :=
  toBits .inst inst ++ typeBits ++ setType (opcode inst).toNat ++
    member wo .opcode (opcode inst).toNat opcodes ++ parseOpcBody wo ++ [Op.sealLocals]

/-- A row for one immediate: the low bits from `names`, and the sign bit. -/
def immRow (ty : Ty) (pow : ZMod p) (names : List Var) (sign : ZMod p) : Op Var (ZMod p) :=
  .constraint (powRow pow names ++ [.put (.bit .inst 31) sign]) [.const 1] [.put (.imm ty) 1]

def parseImmRows : Ops p :=
  [ -- immA
    add .isShift (.is .f3 1) (.is .f3 5),
    mul .a1 .isShift .lowA,
    .constraint [.const 1, .put .isShift (-1)] [.put (.imm .I) 1] [.put .a2 1],
    add (.imm .A) .a1 .a2,
    -- I is one of the immediates
    sumRow .I ([Ty.I, .S, .B, .U, .J, .A].map .ti),
    -- parse lowA
    .constraint (powRow 1 (bitNames .inst 20 5)) [.const 1] [.put .lowA 1],
    -- function3
    .constraint (powRow 1 (bitNames .inst 12 3)) [.const 1] [.put .f3 1],
    -- function7
    .constraint (powRow 1 (bitNames .inst 25 7)) [.const 1] [.put .f7 1],
    -- f7 - 32
    addi .f7 .f7sub32 32,
    immRow .I 1 (bitNames .inst 20 11) 0xfffff800,
    immRow .S 1 (bitNames .inst 7 5 ++ bitNames .inst 25 6) 0xfffff800,
    immRow .B 2 (bitNames .inst 8 4 ++ bitNames .inst 25 6 ++ [.bit .inst 7]) 0xfffff000,
    .constraint (powRow (2 ^ 12) (bitNames .inst 12 20)) [.const 1] [.put (.imm .U) 1],
    immRow .J 2 (bitNames .inst 21 10 ++ [.bit .inst 20] ++ bitNames .inst 12 8) 0xfff00000]

/-- `parse_imm` between its selector and its seal. -/
def parseImmBody (wo : Bool) : Ops p :=
  -- zero non-active immediates
  [Ty.I, .S, .B, .U, .J, .A].flatMap (fun ty =>
      setLocalVar (.ti ty) [.type ty, .imm ty] fun σ => σ (.type ty) * σ (.imm ty)) ++
    -- compute immA
    setLocalVar .isShift [.is .f3 1, .is .f3 5] (fun σ => σ (.is .f3 1) + σ (.is .f3 5)) ++
    setLocalVar .a1 [.isShift, .lowA] (fun σ => σ .isShift * σ .lowA) ++
    setLocalVar .a2 [.isShift, .imm .I] (fun σ => (1 - σ .isShift) * σ (.imm .I)) ++
    if wo then [] else parseImmRows

def parseImm (wo : Bool) (inst : U32) : Ops p :=
  setVar (.imm .I) (immI inst) ++ setVar (.imm .S) (immS inst) ++ setVar (.imm .B) (immB inst) ++
    setVar (.imm .U) (immU inst) ++ setVar (.imm .J) (immJ inst) ++ setVar (.imm .A) (immA inst) ++
    setVar .lowA (shamt inst) ++ setVar .f7 (funct7 inst) ++
    ([.newVar .f7sub32, .set .f7sub32 [.f7] fun σ => σ .f7 - 32] : Ops p) ++
    -- function 3
    selector wo .f3 8 (funct3 inst).toNat ++ parseImmBody wo ++ [Op.sealLocals]

def parseShamtBody (wo : Bool) (Y : U32) : Ops p :=
  setVar .lowY (Y &&& 0x1f) ++
    setLocalVar .shamtI [.is .opcode 19, .lowA] (fun σ => σ (.is .opcode 19) * σ .lowA) ++
    setLocalVar .shamtR [.is .opcode 51, .lowY] (fun σ => σ (.is .opcode 51) * σ .lowY) ++
    if wo then []
    else
      [.constraint (powRow 1 (bitNames .Y 0 5)) [.const 1] [.put .lowY 1],
        mul .shamtI (.is .opcode 19) .lowA,
        mul .shamtR (.is .opcode 51) .lowY,
        add .shamt .shamtI .shamtR]

def parseShamt (wo : Bool) (Y : U32) : Ops p := parseShamtBody wo Y ++ [Op.sealLocals]

/-- Selector `J=j` is set exactly for opcode `opc` when the flag `f` is. -/
def mulJ (j opc : ℕ) (f : Var) : Op Var (ZMod p) := mul (.is .J j) (.is .opcode opc) f

def nandJ (j : ℕ) (f : Var) : Op Var (ZMod p) := nand (.is .J j) f

def setEqJ (j opc : ℕ) : Ops p := setEq (.is .J j) (.is .opcode opc)

def parseJJumps : Ops p :=
  setEqJ 1 55 ++ -- lui
    setEqJ 2 23 ++ -- auipc
    setEqJ 3 111 ++ -- jal
    setEqJ 4 103 ++ -- jalr
    [nand .f3 (.is .opcode 103),
      mulJ 5 99 (.is .f3 0), -- beq
      mulJ 6 99 (.is .f3 1), -- bne
      mulJ 7 99 (.is .f3 4), -- blt
      mulJ 8 99 (.is .f3 5), -- bge
      mulJ 9 99 (.is .f3 6), -- bltu
      mulJ 10 99 (.is .f3 7)] -- bgeu

def parseJMemory : Ops p :=
  [mulJ 11 3 (.is .f3 0), -- lb
    mulJ 12 3 (.is .f3 1), -- lh
    mulJ 13 3 (.is .f3 2), -- lw
    mulJ 14 3 (.is .f3 4), -- lbu
    mulJ 15 3 (.is .f3 5), -- lhu
    mulJ 16 35 (.is .f3 0), -- sb
    mulJ 17 35 (.is .f3 1), -- sh
    mulJ 18 35 (.is .f3 2)] -- sw

def parseJAlui : Ops p :=
  [mulJ 19 19 (.is .f3 0)] ++ -- addi
    setVar (.is .J 20) 0 ++ -- subi does not exist
    [mulJ 21 19 (.is .f3 1), -- slli
      nandJ 21 .f7, -- imm[11:5] = 0 if slli
      mulJ 22 19 (.is .f3 2), -- slti
      mulJ 23 19 (.is .f3 3), -- sltui
      mulJ 24 19 (.is .f3 4), -- xori
      mulJ 25 19 .f35a, -- srli
      nandJ 25 .f7, -- imm[11:5] = 0 if srli
      mulJ 26 19 .f35b, -- srai
      nandJ 26 .f7sub32, -- imm[11:5] = 32 if srai
      mulJ 27 19 (.is .f3 6), -- ori
      mulJ 28 19 (.is .f3 7)] -- andi

def parseJAlu : Ops p :=
  [mulJ 29 51 .f30a, -- add
    nandJ 29 .f7,
    mulJ 30 51 .f30b, -- sub
    nandJ 30 .f7sub32,
    mulJ 31 51 (.is .f3 1), -- sll
    nandJ 31 .f7,
    mulJ 32 51 (.is .f3 2), -- slt
    nandJ 32 .f7,
    mulJ 33 51 (.is .f3 3), -- sltu
    nandJ 33 .f7,
    mulJ 34 51 (.is .f3 4), -- xor
    nandJ 34 .f7,
    mulJ 35 51 .f35a, -- srl
    nandJ 35 .f7,
    mulJ 36 51 .f35b, -- sra
    nandJ 36 .f7sub32,
    mulJ 37 51 (.is .f3 6), -- or
    nandJ 37 .f7,
    mulJ 38 51 (.is .f3 7), -- and
    nandJ 38 .f7]

def parseJMisc : Ops p :=
  setEqJ 39 15 ++ -- fence
    setLocalVar .ecall [.bit .inst 12, .bit .inst 20]
      (fun σ => (1 - σ (.bit .inst 12)) * (1 - σ (.bit .inst 20))) ++
    [.constraint [.const 1, .put (.bit .inst 12) (-1)] [.const 1, .put (.bit .inst 20) (-1)]
        [.put .ecall 1],
      mulJ 40 115 .ecall, -- ecall
      mulJ 41 115 (.bit .inst 20), -- ebreak
      mulJ 42 115 (.bit .inst 12), -- unimp
      -- one of the `J=j` holds
      .constraint ((List.range' 1 RV32.maxJ).map fun j => .put (.is .J j) 1) [.const 1] [.const 1]]

/-- The values of `f3=0a`, `f3=0b`, `f3=5a` and `f3=5b`: `f3` and bit 30 of the word. -/
def parseJFlags : Ops p :=
  [.newLocalVar .f30a, .newLocalVar .f30b, .newLocalVar .f35a, .newLocalVar .f35b,
    .set .f30a [.is .f3 0, .bit .inst 30] fun σ => σ (.is .f3 0) * (1 - σ (.bit .inst 30)),
    .set .f30b [.is .f3 0, .bit .inst 30] fun σ => σ (.is .f3 0) * σ (.bit .inst 30),
    .set .f35a [.is .f3 5, .bit .inst 30] fun σ => σ (.is .f3 5) * (1 - σ (.bit .inst 30)),
    .set .f35b [.is .f3 5, .bit .inst 30] fun σ => σ (.is .f3 5) * σ (.bit .inst 30),
    .constraint [.const 1, .put (.bit .inst 30) (-1)] [.put (.is .f3 0) 1] [.put .f30a 1],
    mul .f30b (.is .f3 0) (.bit .inst 30),
    .constraint [.const 1, .put (.bit .inst 30) (-1)] [.put (.is .f3 5) 1] [.put .f35a 1],
    mul .f35b (.is .f3 5) (.bit .inst 30)]

def parseJBody (J : ℕ) : Ops p :=
  setFieldVar .J (J : ZMod p) ++
    (List.range' 1 RV32.maxJ).flatMap (fun j => setBit (.is .J j) (j == J)) ++
    -- used by ALU instructions
    parseJFlags ++ parseJJumps ++ parseJMemory ++ parseJAlui ++ parseJAlu ++ parseJMisc

def parseJ (J : ℕ) : Ops p := parseJBody J ++ [Op.sealLocals]

/-! ## Addition and comparison, instructions and shifts and bit operations -/

def addCirBody (z x y : Var) (xv yv : U32) : Ops p :=
  let O : ZMod p := (0x100000000 : ℕ)
  setVar z (xv + yv) ++
    -- note, this is advice
    setLocalVar .O [] (fun _ => if 2 ^ 32 ≤ xv.toNat + yv.toNat then 0 - O else 0) ++
    ([ -- check o * (o + O) == 0
      .constraint [.const O, .put .O 1] [.put .O 1] [],
      -- x + y + o = z
      .constraint [.put x 1, .put y 1, .put .O 1] [.const 1] [.put z 1]] : Ops p)

def addCir (z x y : Var) (xv yv : U32) : Ops p := addCirBody z x y xv yv ++ [Op.sealLocals]

/-- The difference and the unsigned flags of `sub_cir`. -/
def subCirFlags (z x y : Var) (xv yv : U32) : Ops p :=
  setBit (.lt x y) (xv.ult yv) ++ setVar z (xv - yv) ++
    ([ -- x - y + O*o = z
      .constraint [.put x 1, .put y (-1), .put (.lt x y) ((0x100000000 : ℕ) : ZMod p)] [.const 1]
        [.put z 1]] : Ops p) ++
    setBit (.eq x y) (xv == yv) ++
    ([ -- X=Y * Z = 0
      .constraint [.put z 1] [.put (.eq x y) 1] []] : Ops p) ++
    setBit (.ge x y) (!xv.ult yv) ++
    ([ -- X<Y + X>=Y = 1
      .constraint [.put (.lt x y) 1, .put (.ge x y) 1] [.const 1] [.const 1]] : Ops p) ++
    setBit (.ne x y) (xv != yv) ++
    ([ -- X=Y + X!=Y = 1
      .constraint [.put (.eq x y) 1, .put (.ne x y) 1] [.const 1] [.const 1]] : Ops p)

/-- The signed flags of `sub_cir`: invert `<` if the signs differ. -/
def subCirSigned (x y : Var) (xv yv : U32) : Ops p :=
  let lt := xv.ult yv
  let ds := xv.msb != yv.msb
  setBit (.slt x y) (xv.slt yv) ++ setBit (.sge x y) (!xv.slt yv) ++
    ([.constraint [.const 1, .put (.slt x y) (-1)] [.const 1] [.put (.sge x y) 1],
      -- different signs
      .newLocalVar .ds] : Ops p) ++
    setBit .ds ds ++
    setLocalVar .XsYs [] (fun _ => if xv.msb && yv.msb then 1 else 0) ++
    [mul .XsYs (.bit x 31) (.bit y 31),
      -- X_31 + Y_31 - 2 X_31 Y_31 = ds
      .constraint [.put (.bit x 31) 1, .put (.bit y 31) 1, .put .XsYs (-2)] [.const 1]
        [.put .ds 1],
      -- slt = ds (1 - lt) + (1 - ds) lt
      .newLocalVar .sltl] ++
    setBit .sltl (ds && !lt) ++
    ([.constraint [.put .ds 1] [.const 1, .put (.lt x y) (-1)] [.put .sltl 1],
      .newLocalVar .sltr] : Ops p) ++
    setBit .sltr (!ds && lt) ++
    ([.constraint [.const 1, .put .ds (-1)] [.put (.lt x y) 1] [.put .sltr 1],
      .constraint [.put .sltl 1, .put .sltr 1] [.const 1] [.put (.slt x y) 1]] : Ops p)

/-- As `addCir`, but also computes the condition flags. -/
def subCir (z x y : Var) (xv yv : U32) : Ops p :=
  subCirFlags z x y xv yv ++ subCirSigned x y xv yv ++ [Op.sealLocals]

variable {P : Type}

def luiCs (w : Witness P) : Ops p :=
  let J := (RV32.lui 0 0).indexJ
  setVar (.ZJ J) w.I ++ setEq (.PCJ J) .pc4

def auipcCs : Ops p :=
  let J := (RV32.auipc 0 0).indexJ
  setEq (.ZJ J) (.plus .pc .I) ++ setEq (.PCJ J) .pc4

def jalCs : Ops p :=
  let J := (RV32.jal 0 0).indexJ
  setEq (.ZJ J) .pc4 ++ setEq (.PCJ J) (.plus .pc .I)

def jalrCs : Ops p :=
  let J := (RV32.jalr 0 0 0).indexJ
  setEq (.ZJ J) .pc4 ++ setEq (.PCJ J) (.plus .X .I)

def addCs (w : Witness P) : Ops p :=
  addCir (.plus .X .Y) .X .Y w.X w.Y ++ setEq (.ZJ (RV32.alu .add 0 0 0).indexJ) (.plus .X .Y)

def addiCs (w : Witness P) : Ops p :=
  addCir (.plus .X .I) .X .I w.X w.I ++ setEq (.ZJ (RV32.alui .add 0 0 0).indexJ) (.plus .X .I)

def subCs (w : Witness P) : Ops p :=
  subCir (.minus .X .Y) .X .Y w.X w.Y ++ setEq (.ZJ (RV32.alu .sub 0 0 0).indexJ) (.minus .X .Y)

def subiCs (w : Witness P) : Ops p :=
  subCir (.minus .X .I) .X .I w.X w.I ++ setEq (.ZJ (RV32.alui .sub 0 0 0).indexJ) (.minus .X .I)

def sltCs : Ops p :=
  setEq (.ZJ (RV32.alui .slt 0 0 0).indexJ) (.slt .X .I) ++
    setEq (.ZJ (RV32.alui .sltu 0 0 0).indexJ) (.lt .X .I) ++
    setEq (.ZJ (RV32.alu .slt 0 0 0).indexJ) (.slt .X .Y) ++
    setEq (.ZJ (RV32.alu .sltu 0 0 0).indexJ) (.lt .X .Y)

/-- `shift_right` and `shift_left` share everything but the values and the
terms of the row that defines the output of each amount. -/
def shiftBody (output : Var) (I : ℕ) (value : ℕ → U32)
    (terms : ℕ → List (Term Var (ZMod p))) : Ops p :=
  setVar output (value I) ++
    (List.range 32).flatMap (fun amt =>
      -- potential outputs
      (if amt = 0 then ([.newLocalVar (.out 0)] : Ops p) ++ setEq (.out 0) .X
        else setLocalVar (.out amt) [] (fun _ => ((value amt).toNat : ZMod p)) ++
          ([.constraint (terms amt) [.const 1] [.put (.out amt) 1]] : Ops p)) ++
      -- final output products
      setLocalVar (.SZ amt) [] (fun _ => if amt = I then ((value amt).toNat : ZMod p) else 0) ++
      [mul (.SZ amt) (.is .shamt amt) (.out amt)]) ++
    [sumRow output ((List.range 32).map .SZ)]

def shiftRightTerms (arith : Bool) (amt : ℕ) : List (Term Var (ZMod p)) :=
  (List.range 32).flatMap fun bit =>
    if bit + amt < 32 then [.put (.bit .X (bit + amt)) ((2 ^ bit : ℕ) : ZMod p)]
    else if arith then [.acc (.bit .X 31) ((2 ^ bit : ℕ) : ZMod p)]
    else []

def shiftRight (output : Var) (X : U32) (I : ℕ) (arith : Bool) : Ops p :=
  shiftBody output I (fun amt => if arith then X.sshiftRight amt else X >>> amt)
    (shiftRightTerms arith) ++ [Op.sealLocals]

def shiftLeftTerms (amt : ℕ) : List (Term Var (ZMod p)) :=
  (List.range 32).flatMap fun bit =>
    if amt ≤ bit then [.put (.bit .X (bit - amt)) ((2 ^ bit : ℕ) : ZMod p)] else []

def shiftLeft (output : Var) (X : U32) (I : ℕ) : Ops p :=
  shiftBody output I (fun amt => X <<< amt) shiftLeftTerms ++ [Op.sealLocals]

def shift (wo : Bool) (w : Witness P) : Ops p :=
  let I := w.shamt.toNat
  selector wo .shamt 32 I ++
    shiftLeft (.ZJ (RV32.alui .sll 0 0 0).indexJ) w.X I ++
    shiftRight (.ZJ (RV32.alui .srl 0 0 0).indexJ) w.X I false ++
    shiftRight (.ZJ (RV32.alui .sra 0 0 0).indexJ) w.X I true ++
    shiftLeft (.ZJ (RV32.alu .sll 0 0 0).indexJ) w.X I ++
    shiftRight (.ZJ (RV32.alu .srl 0 0 0).indexJ) w.X I false ++
    shiftRight (.ZJ (RV32.alu .sra 0 0 0).indexJ) w.X I true

def bitop (output y : Var) (z : U32) (adj : ZMod p) : Ops p :=
  toBits output z ++
    (List.range 32).flatMap fun i =>
      setBit (.bit output i) (z.getLsbD i) ++
        [.constraint [.put (.bit .X i) 1, .put (.bit y i) 1, .put (.bit (.conj .X y) i) adj]
          [.const 1] [.put (.bit output i) 1]]

def bitops (w : Witness P) : Ops p :=
  let XY := w.X &&& w.Y
  let XI := w.X &&& w.I
  -- and
  toBits (.conj .X .Y) XY ++ toBits (.conj .X .I) XI ++
    (List.range 32).flatMap (fun i =>
      setBit (.bit (.conj .X .Y) i) (XY.getLsbD i) ++
        [mul (.bit (.conj .X .Y) i) (.bit .X i) (.bit .Y i)] ++
        setBit (.bit (.conj .X .I) i) (XI.getLsbD i) ++
        [mul (.bit (.conj .X .I) i) (.bit .X i) (.bit .I i)]) ++
    setEq (.ZJ (RV32.alui .and 0 0 0).indexJ) (.conj .X .I) ++
    setEq (.ZJ (RV32.alu .and 0 0 0).indexJ) (.conj .X .Y) ++
    -- or
    bitop (.ZJ (RV32.alui .or 0 0 0).indexJ) .I (w.X ||| w.I) (-1) ++
    bitop (.ZJ (RV32.alu .or 0 0 0).indexJ) .Y (w.X ||| w.Y) (-1) ++
    -- xor
    bitop (.ZJ (RV32.alui .xor 0 0 0).indexJ) .I (w.X ^^^ w.I) (-2) ++
    bitop (.ZJ (RV32.alu .xor 0 0 0).indexJ) .Y (w.X ^^^ w.Y) (-2)

def alu (wo : Bool) (w : Witness P) : Ops p :=
  let start := (RV32.alui .add 0 0 0).indexJ
  let stop := (RV32.alu .and 0 0 0).indexJ
  addCs w ++ addiCs w ++ subCs w ++ subiCs w ++ sltCs ++ shift wo w ++ bitops w ++
    (List.range' start (stop + 1 - start)).flatMap fun j => setEq (.PCJ j) .pc4

/-! ## Branches, loads and stores, other instructions and the whole step -/

def branchBody (J : ℕ) (cond inverse : Var) : Ops p :=
  let pcI := Var.plus .pc .I
  ([ -- "{cond_name} is not a boolean value"
    .check [cond] fun σ => σ cond == 0 || σ cond == 1] : Ops p) ++
    -- PC = cond (pc + I) + !cond (pc + 4)
    setLocalVar .left [cond, pcI, .pc4] (fun σ => if σ cond = 0 then 0 else σ pcI) ++
    [mul .left cond pcI] ++
    setLocalVar .right [cond, pcI, .pc4] (fun σ => if σ cond = 0 then σ .pc4 else 0) ++
    [mul .right inverse .pc4] ++
    ([.newVar (.PCJ J),
      .set (.PCJ J) [cond, pcI, .pc4] fun σ => if σ cond = 0 then σ .pc4 else σ pcI,
      add (.PCJ J) .left .right] : Ops p) ++
    -- output
    setVar (.ZJ J) 0 ++ ([.constraint [.put (.ZJ J) 1] [.const 1] []] : Ops p)

def branch (J : ℕ) (cond inverse : Var) : Ops p := branchBody J cond inverse ++ [Op.sealLocals]

def br : Ops p :=
  branch (RV32.br .beq 0 0 0).indexJ (.eq .X .Y) (.ne .X .Y) ++
    branch (RV32.br .bne 0 0 0).indexJ (.ne .X .Y) (.eq .X .Y) ++
    branch (RV32.br .blt 0 0 0).indexJ (.slt .X .Y) (.sge .X .Y) ++
    branch (RV32.br .bge 0 0 0).indexJ (.sge .X .Y) (.slt .X .Y) ++
    branch (RV32.br .bltu 0 0 0).indexJ (.lt .X .Y) (.ge .X .Y) ++
    branch (RV32.br .bgeu 0 0 0).indexJ (.ge .X .Y) (.lt .X .Y)

/-- Leaves its two local variables to the next seal. -/
def choose (wo : Bool) (result bit yes no : Var) : Ops p :=
  let li := Var.chooseL result
  let ri := Var.chooseR result
  let reads := [bit, yes, no]
  ([.newVar result, .newLocalVar li, .newLocalVar ri,
    .set result reads fun σ => if σ bit = 1 then σ yes else σ no,
    .set li reads fun σ => if σ bit = 1 then σ yes else 0,
    .set ri reads fun σ => if σ bit = 1 then 0 else σ no] : Ops p) ++
    if wo then []
    else
      [ -- li = bit * left
        .constraint [.put bit 1] [.put yes 1] [.put li 1],
        -- ri = (1 - bit) * right
        .constraint [.const 1, .put bit (-1)] [.put no 1] [.put ri 1],
        .constraint [.put li 1, .put ri 1] [.const 1] [.put result 1]]

/-- Unit `i` of `width` bits of a scalar's 128-bit representation. -/
def unitOf (x : ZMod p) (width i : ℕ) : ℕ := x.val / 2 ^ (width * i) % 2 ^ width

def split128 (scalar : Var) (widths : List ℕ) : Ops p :=
  ([.check [scalar] fun σ => decide ((σ scalar).val < 2 ^ 128)] : Ops p) ++
    (List.range 128).flatMap (fun i =>
      setBitFrom (.bit scalar i) [scalar] fun σ => (σ scalar).val.testBit i) ++
    ([.constraint (powRow 1 (bitNames scalar 0 128)) [.const 1] [.put scalar 1]] : Ops p) ++
    widths.flatMap fun width =>
      (List.range (128 / width)).flatMap fun i =>
        [.newVar (.unit scalar width i),
          .set (.unit scalar width i) [scalar] fun σ => (unitOf (σ scalar) width i : ZMod p),
          .constraint (powRow 1 (bitNames scalar (i * width) width)) [.const 1]
            [.put (.unit scalar width i) 1]]

/-- The loop over `widths` of `load_select`. -/
def loadWidths (wo : Bool) (addrName name : Var) : List ℕ → ℕ → ℕ → Ops p
  | [], _, _ => []
  | width :: widths, addr, count =>
      loadArray wo (.cat addrName width) (.cat name width) (.unit name width) count addr ++
        loadWidths wo addrName name widths (addr / 2) (count / 2)

def loadSelect (wo : Bool) (addrName name : Var) (addr : U32) (wordOnly : Bool) : Ops p :=
  let widths := if wordOnly then [32] else [8, 16, 32]
  let low := (addr &&& 0xf).toNat
  choose wo name (.bit addrName 4) (.hi name) (.lo name) ++ split128 name widths ++
    if wordOnly then loadWidths wo addrName name widths (low / 4) 4
    else loadWidths wo addrName name widths low 16

/-- `sx8` and `sx16`: sign extension from `n + 1` bits. -/
def sx (wo : Bool) (n : ℕ) (output input : Var) : Ops p :=
  let sb (x : ZMod p) : Bool := x.val.testBit n
  let sv (x : ZMod p) : ℕ := x.val % 2 ^ n
  let top : ℕ := 2 ^ 32 - 2 ^ n
  setBitFrom (.sb input) [input] (fun σ => sb (σ input)) ++
    ([.newVar (.sv input), .set (.sv input) [input] fun σ => (sv (σ input) : ZMod p),
      .newVar output,
      .set output [input] fun σ =>
        ((if sb (σ input) then top ||| sv (σ input) else sv (σ input) : ℕ) : ZMod p)] : Ops p) ++
    if wo then []
    else
      [ -- input = sv + sb * 2^n
        .constraint [.put (.sv input) 1, .put (.sb input) ((2 ^ n : ℕ) : ZMod p)] [.const 1]
          [.put input 1],
        .constraint [.put (.sv input) 1, .put (.sb input) (top : ZMod p)] [.const 1]
          [.put output 1]]

def sx8 (wo : Bool) (output input : Var) : Ops p := sx wo 7 output input

def sx16 (wo : Bool) (output input : Var) : Ops p := sx wo 15 output input

def load (wo : Bool) (w : Witness P) : Ops p :=
  let addr := w.X + w.I
  let lw := (RV32.load .lw 0 0 0).indexJ
  let lhu := (RV32.load .lhu 0 0 0).indexJ
  let lbu := (RV32.load .lbu 0 0 0).indexJ
  let lb := (RV32.load .lb 0 0 0).indexJ
  let lh := (RV32.load .lh 0 0 0).indexJ
  toBits (.plus .X .I) addr ++ loadSelect wo (.plus .X .I) .readMem addr false ++
    setEq (.ZJ lw) (.cat .readMem 32) ++ setEq (.PCJ lw) .pc4 ++
    setEq (.ZJ lhu) (.cat .readMem 16) ++ setEq (.PCJ lhu) .pc4 ++
    setEq (.ZJ lbu) (.cat .readMem 8) ++ setEq (.PCJ lbu) .pc4 ++
    sx8 wo (.ZJ lb) (.cat .readMem 8) ++ setEq (.PCJ lb) .pc4 ++
    sx16 wo (.ZJ lh) (.cat .readMem 16) ++ setEq (.PCJ lh) .pc4

/-- `store_word`, `store_half` and `store_byte`: relate the low bits of `Y` and
the stored unit, by the row `a * b`, only when the instruction is this one. -/
def storeUnit (wo : Bool) (J width : ℕ) (a b : List (Term Var (ZMod p))) : Ops p :=
  let target := Var.Jw J width
  let mem := Var.cat .writeMem width
  setVar (.ZJ J) 0 ++ setEq (.PCJ J) .pc4 ++
    ([.newVar target, .set target [.is .J J, mem] fun σ => σ (.is .J J) * σ mem] : Ops p) ++
    if wo then [] else [mul target (.is .J J) mem, .constraint a b [.put target 1]]

def storeWord (wo : Bool) : Ops p :=
  let J := (RV32.store .sw 0 0 0).indexJ
  storeUnit wo J 32 [.put (.is .J J) 1] [.put .Y 1]

def storeHalf (wo : Bool) : Ops p :=
  let J := (RV32.store .sh 0 0 0).indexJ
  storeUnit wo J 16 (powRow 1 (bitNames .Y 0 16)) [.put (.is .J J) 1]

def storeByte (wo : Bool) : Ops p :=
  let J := (RV32.store .sb 0 0 0).indexJ
  storeUnit wo J 8 (powRow 1 (bitNames .Y 0 8)) [.put (.is .J J) 1]

def store (wo : Bool) (w : Witness P) : Ops p :=
  loadSelect wo (.plus .X .I) .writeMem (w.X + w.I) false ++ storeWord wo ++ storeHalf wo ++
    storeByte wo

def ecall (w : Witness P) : Ops p :=
  let J := (RV32.ecall 0).indexJ
  setVar (.ZJ J) w.Z ++ setEq (.PCJ J) .pc4

def nop (J : ℕ) : Ops p := setVar (.ZJ J) 0 ++ setEq (.PCJ J) .pc4

def misc : Ops p :=
  let J := RV32.unimp.indexJ
  nop RV32.fence.indexJ ++ nop (RV32.ebreak 0).indexJ ++
    -- unimp is special
    setVar (.ZJ J) 0 ++ setEq (.PCJ J) .pc

/-- Constrain `Z` and `PC` according to the instruction index. -/
def selectJ (w : Witness P) : Ops p :=
  (List.range' 1 RV32.maxJ).flatMap (fun j =>
      setVar (.JZ j) (if j = w.J then w.Z else 0) ++ [mul (.JZ j) (.is .J j) (.ZJ j)] ++
        setVar (.JPC j) (if j = w.J then w.PC else 0) ++ [mul (.JPC j) (.is .J j) (.PCJ j)]) ++
    [sumRow .Z ((List.range' 1 RV32.maxJ).map .JZ), sumRow .PC ((List.range' 1 RV32.maxJ).map .JPC)]

/-- The calls of `step` after `init_cs`, gadget by gadget. -/
def stepGadgets (w : Witness P) (wo : Bool) : List (Ops p) :=
  [selectXY wo w.rs1 w.rs2,
    -- check that registers are 32-bit numbers
    toBits .pc w.regs.pc, toBits .X w.X, toBits .Y w.Y, toBits .I w.I, toBits .Z w.Z,
    toBits .PC w.PC,
    -- control function
    setVar .rd w.rd, setVar .rs1 w.rs1, setVar .rs2 w.rs2, setVar .shamt w.shamt,
    parseOpc wo w.inst, parseImm wo w.inst, parseShamt wo w.Y, parseJ w.J,
    -- possible values for PC
    setVar .four 4, addCir .pc4 .pc .four w.regs.pc 4,
    addCir (.plus .pc .I) .pc .I w.regs.pc w.I,
    alu wo w, luiCs w, auipcCs, jalCs, jalrCs, br, load wo w, store wo w, ecall w, misc,
    selectJ w, selectZ wo w.rd]

def stepBody (w : Witness P) (wo : Bool) : Ops p := (stepGadgets w wo).flatten

/-- The step circuit of a witness; `none` is a panic. -/
def step [MemoryProof P p] (w : Witness P) (wo : Bool) : Option (R1CS Var (ZMod p)) :=
  (R1CS.run (initCs w) { (default : R1CS Var (ZMod p)) with arity := arity }).bind fun cs =>
    R1CS.run (stepBody w wo) { cs with witnessOnly := wo }

end Riscv

end NexusVm.Circuit
