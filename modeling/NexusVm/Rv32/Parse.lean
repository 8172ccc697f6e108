import NexusVm.Rv32.Inst

/-!
# Instruction parsing

`vm/src/rv32/parse.rs`: the field and immediate extractors, the decoder
`parseU32` of a 32-bit word, and `parseInst`, which reads one instruction from
a byte array.
-/

namespace NexusVm

/-- Bits `start ..= end` of a word, moved down to bit 0. -/
def bits (val : U32) (start stop : ℕ) : U32 :=
  (val <<< (31 - stop)) >>> (31 - stop + start)

def opcode (word : U32) : U32 := bits word 0 6
def funct3 (word : U32) : U32 := bits word 12 14
def funct7 (word : U32) : U32 := bits word 25 31
def shamt (word : U32) : U32 := bits word 20 24
def rd (word : U32) : U32 := bits word 7 11
def rs1 (word : U32) : U32 := bits word 15 19
def rs2 (word : U32) : U32 := bits word 20 24

def signed (word : U32) : Bool := word &&& 0x80000000#32 != 0

def immI (word : U32) : U32 :=
  (if signed word then 0xfffff800#32 else 0) ||| bits word 20 30

def immS (word : U32) : U32 :=
  (if signed word then 0xfffff800#32 else 0) ||| (bits word 25 30 <<< 5) ||| bits word 7 11

def immB (word : U32) : U32 :=
  (if signed word then 0xfffff000#32 else 0) ||| (bits word 7 7 <<< 11) |||
    (bits word 25 30 <<< 5) ||| (bits word 8 11 <<< 1)

def immU (word : U32) : U32 := word &&& 0xfffff000#32

def immJ (word : U32) : U32 :=
  (if signed word then 0xfff00000#32 else 0) ||| (bits word 12 19 <<< 12) |||
    (bits word 20 20 <<< 11) ||| (bits word 21 30 <<< 1)

/-- The immediate of an ALU instruction: the shift amount for shifts. -/
def immA (word : U32) : U32 :=
  match (funct3 word).toNat with
  | 0b001 | 0b101 => shamt word
  | _ => immI word

def bop (word : U32) : Option BOP :=
  match (funct3 word).toNat with
  | 0b000 => some .beq
  | 0b001 => some .bne
  | 0b100 => some .blt
  | 0b101 => some .bge
  | 0b110 => some .bltu
  | 0b111 => some .bgeu
  | _ => none

def lop (word : U32) : Option LOP :=
  match (funct3 word).toNat with
  | 0b000 => some .lb
  | 0b001 => some .lh
  | 0b010 => some .lw
  | 0b100 => some .lbu
  | 0b101 => some .lhu
  | _ => none

def sop (word : U32) : Option SOP :=
  match (funct3 word).toNat with
  | 0b000 => some .sb
  | 0b001 => some .sh
  | 0b010 => some .sw
  | _ => none

def aop (word : U32) : Option AOP :=
  match (funct3 word).toNat, (funct7 word).toNat with
  | 0b000, 0b0100000 => some .sub
  | 0b000, 0b0000000 => some .add
  | 0b001, 0b0000000 => some .sll
  | 0b010, 0b0000000 => some .slt
  | 0b011, 0b0000000 => some .sltu
  | 0b100, 0b0000000 => some .xor
  | 0b101, 0b0000000 => some .srl
  | 0b101, 0b0100000 => some .sra
  | 0b110, 0b0000000 => some .or
  | 0b111, 0b0000000 => some .and
  | _, _ => none

/-- As `aop` for immediate operations; only the shifts restrict `imm[11:5]`. -/
def aopi (word : U32) : Option AOP :=
  match (funct3 word).toNat, (funct7 word).toNat with
  | 0b000, _ => some .add
  | 0b001, 0b0000000 => some .sll
  | 0b010, _ => some .slt
  | 0b011, _ => some .sltu
  | 0b100, _ => some .xor
  | 0b101, 0b0000000 => some .srl
  | 0b101, 0b0100000 => some .sra
  | 0b110, _ => some .or
  | 0b111, _ => some .and
  | _, _ => none

/-! ## Opcodes -/

def opcLui : ℕ := 0b0110111
def opcAuipc : ℕ := 0b0010111
def opcJal : ℕ := 0b1101111
def opcJalr : ℕ := 0b1100111
def opcBr : ℕ := 0b1100011
def opcLoad : ℕ := 0b0000011
def opcStore : ℕ := 0b0100011
def opcAlui : ℕ := 0b0010011
def opcAlu : ℕ := 0b0110011
def opcFence : ℕ := 0b0001111
/-- Also captures `ebreak` and `unimp`. -/
def opcEcall : ℕ := 0b1110011

/-- Parse a 32-bit word as an instruction.  The arms are the `OPC_` constants
above, written out so that they are patterns. -/
def parseU32 (word : U32) : Option RV32 :=
  match (opcode word).toNat with
  | 0b0110111 => some (.lui (rd word) (immU word))
  | 0b0010111 => some (.auipc (rd word) (immU word))
  | 0b1101111 => some (.jal (rd word) (immJ word))
  | 0b1100111 =>
      if funct3 word = 0 then some (.jalr (rd word) (rs1 word) (immI word)) else none
  | 0b1100011 => (bop word).map fun b => .br b (rs1 word) (rs2 word) (immB word)
  | 0b0000011 => (lop word).map fun l => .load l (rd word) (rs1 word) (immI word)
  | 0b0100011 => (sop word).map fun s => .store s (rs1 word) (rs2 word) (immS word)
  | 0b0010011 => (aopi word).map fun a => .alui a (rd word) (rs1 word) (immA word)
  | 0b0110011 => (aop word).map fun a => .alu a (rd word) (rs1 word) (rs2 word)
  | 0b0001111 => some .fence
  | 0b1110011 =>
      match (word >>> 12).toNat with
      | 0x00000 => some (.ecall (rd word))
      | 0x00100 => some (.ebreak (rd word))
      | 0xc0001 => some .unimp
      | _ => none
  | _ => none

/-- Instruction size from the first two bytes. -/
def instSize (b0 b1 : BitVec 8) : U32 :=
  let ax (b n : BitVec 8) : Bool := (b &&& n) ^^^ n != 0
  if ax b0 0b00000011#8 then 2
  else if ax b0 0b00011111#8 then 4
  else if ax b0 0b00111111#8 then 6
  else if ax b0 0b01111111#8 then 8
  else if ax b1 0b01110000#8 then
    (10#8 + 2#8 * ((b1 >>> 4) &&& 0b111#8)).setWidth 32
  else 0

/-- RV32i `ecall` and `ebreak` become their RV32Nexus forms, returning in `x10`. -/
def translateNexus (word : U32) : U32 :=
  if word = 0x00000073#32 ∨ word = 0x00100073#32 then word ||| (0b1010#32 <<< 7) else word

/-- Parse a single instruction from a byte array. -/
def parseInst (pc : U32) (mem : List (BitVec 8)) : Except NexusVMError Inst :=
  match mem with
  | b0 :: b1 :: rest =>
      let sz := instSize b0 b1
      if mem.length < sz.toNat then .error (.partialInstruction pc)
      else if sz ≠ 4 then .error (.invalidSize pc sz)
      else match rest with
        | b2 :: b3 :: _ =>
            let word := translateNexus
              ((b3.setWidth 32 <<< 24) ||| (b2.setWidth 32 <<< 16) |||
                (b1.setWidth 32 <<< 8) ||| b0.setWidth 32)
            match parseU32 word with
            | none => .error (.invalidInstruction pc word)
            | some inst => .ok { pc := pc, len := sz, word := word, inst := inst }
        | _ => .error .panic -- `mem[2]`, `mem[3]`: excluded by the size test
  | _ => .error (.partialInstruction pc)

end NexusVm
