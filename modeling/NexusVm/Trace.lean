import NexusVm.Eval

/-!
# Program traces

`vm/src/trace.rs`: recording a run of the machine in blocks of `k` steps, and
rebuilding the witness of each step by iterating over a block.
-/

namespace NexusVm

/-- A program step. -/
structure Step (P : Type) where
  /-- encoded instruction -/
  inst : U32
  /-- result of instruction evaluation -/
  Z : U32
  /-- next program counter, for jump and branch instructions -/
  PC : Option U32
  pcProof : P
  readProof : Option P
  writeProof : Option P

/-- A sequence of program steps with the register file it starts from. -/
structure Block (P : Type) where
  regs : Regs
  steps : List (Step P)

/-- A program trace. -/
structure Trace (P : Type) where
  k : ℕ
  start : ℕ
  blocks : List (Block P)

/-- Witness for a single VM step. -/
structure Witness (P : Type) where
  regs : Regs
  inst : U32
  J : ℕ
  shamt : U32
  rs1 : U32
  rs2 : U32
  rd : U32
  I : U32
  X : U32
  Y : U32
  Z : U32
  PC : U32
  pcProof : P
  readProof : P
  writeProof : P

section Record

variable {M P : Type} [Memory M P]

/-- Generate a step by evaluating the next instruction. -/
def step (B : Build) (vm : NexusVM M P) : Except NexusVMError (Step P) × NexusVM M P :=
  let pc := vm.regs.pc
  match evalInst B vm with
  | (.error e, vm) => (.error e, vm)
  | (.ok (), vm) =>
      match B.add pc 4 with
      | .error e => (.error e, vm)
      | .ok pc4 =>
          (.ok
            { inst := vm.inst.word, Z := vm.Z
              PC := if vm.regs.pc = pc4 then none else some vm.regs.pc
              pcProof := vm.pcProof, readProof := vm.readProof, writeProof := vm.writeProof },
            vm)

/-- The loop of `k_step`. -/
def steps (B : Build) : ℕ → NexusVM M P → Except NexusVMError (List (Step P)) × NexusVM M P
  | 0, vm => (.ok [], vm)
  | k + 1, vm =>
      match step B vm with
      | (.error e, vm) => (.error e, vm)
      | (.ok s, vm) =>
          match steps B k vm with
          | (.error e, vm) => (.error e, vm)
          | (.ok ss, vm) => (.ok (s :: ss), vm)

/-- Generate a block by evaluating `k` steps. -/
def kStep (B : Build) (vm : NexusVM M P) (k : ℕ) : Except NexusVMError (Block P) × NexusVM M P :=
  match steps B k vm with
  | (.error e, vm') => (.error e, vm')
  | (.ok ss, vm') => (.ok { regs := vm.regs, steps := ss }, vm')

/-- Rust's `usize::next_power_of_two`. -/
def nextPowerOfTwo (n : ℕ) : ℕ := if n ≤ 1 then 1 else 2 ^ (Nat.log2 (n - 1) + 1)

/-- The loop of `trace`, which runs until `unimp`; `none` is lack of fuel. -/
def traceLoop (B : Build) (k : ℕ) (pow : Bool) :
    ℕ → List (Block P) → NexusVM M P → Option (Except NexusVMError (List (Block P)) × NexusVM M P)
  | 0, _, _ => none
  | fuel + 1, blocks, vm =>
      match kStep B vm k with
      | (.error e, vm) => some (.error e, vm)
      | (.ok block, vm) =>
          let blocks := blocks ++ [block]
          let count := blocks.length
          if vm.inst.inst = .unimp ∧ (pow = true → nextPowerOfTwo count = count + 1) then
            some (.ok blocks, vm)
          else traceLoop B k pow fuel blocks vm

/-- Generate a program trace with `k` steps per block. -/
def trace (B : Build) (fuel : ℕ) (vm : NexusVM M P) (k : ℕ) (pow : Bool) :
    Option (Except NexusVMError (Trace P) × NexusVM M P) :=
  (traceLoop B k pow fuel [] vm).map fun (res, vm) =>
    (res.map fun blocks => { k := k, start := 0, blocks := blocks }, vm)

end Record

/-! ## Replay -/

section Replay

variable {P : Type}

/-- The fields of an instruction word that `parse_alt` fills in. -/
structure Fields where
  rd : U32 := 0
  rs1 : U32 := 0
  rs2 : U32 := 0
  I : U32 := 0
  shamt : U32 := 0

def parseAlt (regs : Regs) (word : U32) : Fields :=
  match (opcode word).toNat with
  | 0b0110111 => { rd := rd word, I := immU word }
  | 0b0010111 => { rd := rd word, I := immU word }
  | 0b1101111 => { rd := rd word, I := immJ word }
  | 0b1100111 => { rd := rd word, rs1 := rs1 word, I := immI word }
  | 0b1100011 => { rs1 := rs1 word, rs2 := rs2 word, I := immB word }
  | 0b0000011 => { rd := rd word, rs1 := rs1 word, I := immI word }
  | 0b0100011 => { rs1 := rs1 word, rs2 := rs2 word, I := immS word }
  | 0b0010011 =>
      { rd := rd word, rs1 := rs1 word, I := immA word, shamt := immA word &&& 0x1f }
  | 0b0110011 =>
      { rd := rd word, rs1 := rs1 word, rs2 := rs2 word
        shamt := regs.x (regIdx (rs2 word)) &&& 0x1f }
  | 0b1110011 => { rd := rd word }
  | _ => {}

/-- An iterator over the steps that remain of a block. -/
structure BlockIter (P : Type) where
  regs : Regs
  rest : List (Step P)

def Block.iter (b : Block P) : BlockIter P := { regs := b.regs, rest := b.steps }

/-- Rebuild the witness of one step; the source unwraps the parsed instruction. -/
def witnessOf (B : Build) (regs : Regs) (s : Step P) : Except NexusVMError (Witness P) :=
  match parseU32 s.inst with
  | none => .error .panic
  | some inst => do
      let w := parseAlt regs s.inst
      let PC ← match s.PC with
        | some pc => pure pc
        | none => B.add regs.pc 4
      let readProof := s.readProof.getD s.pcProof
      pure
        { regs := regs, inst := s.inst, J := inst.indexJ, shamt := w.shamt
          rs1 := w.rs1, rs2 := w.rs2, rd := w.rd, I := w.I
          X := regs.x (regIdx w.rs1), Y := regs.x (regIdx w.rs2), Z := s.Z, PC := PC
          pcProof := s.pcProof, readProof := readProof
          writeProof := s.writeProof.getD readProof }

/-- The register file after a step. -/
def Witness.nextRegs (w : Witness P) : Regs :=
  { pc := w.PC
    x := if w.rd.toNat > 0 then Function.update w.regs.x (regIdx w.rd) w.Z else w.regs.x }

/-- `Iterator::next`. -/
def BlockIter.next (B : Build) (it : BlockIter P) :
    Except NexusVMError (Option (Witness P × BlockIter P)) :=
  match it.rest with
  | [] => .ok none
  | s :: rest => (witnessOf B it.regs s).map fun w => some (w, { regs := w.nextRegs, rest := rest })

/-- All witnesses of a block, with the register file after the last one. -/
def replay (B : Build) : Regs → List (Step P) → Except NexusVMError (List (Witness P) × Regs)
  | regs, [] => .ok ([], regs)
  | regs, s :: ss => do
      let w ← witnessOf B regs s
      let (ws, final) ← replay B w.nextRegs ss
      pure (w :: ws, final)

end Replay

end NexusVm
