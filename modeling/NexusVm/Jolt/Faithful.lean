import NexusVm.Jolt.Trace
import NexusVm.Memory.Alias
import NexusVm.Rv32.Codec
import NexusVm.TraceShape

/-!
# Jolt traces are faithful

Each row of a trace says what its step has done, so that the writes of the rows replay the
run from its first state.
-/

namespace NexusVm

namespace Jolt

/-- The instruction with an opcode and operands. -/
def RV32IM.toInst (rd rs1 rs2 imm : U32) : RV32IM → RV32
  | .lui => .lui rd imm
  | .auipc => .auipc rd imm
  | .jal => .jal rd imm
  | .jalr => .jalr rd rs1 imm
  | .beq => .br .beq rs1 rs2 imm
  | .bne => .br .bne rs1 rs2 imm
  | .blt => .br .blt rs1 rs2 imm
  | .bge => .br .bge rs1 rs2 imm
  | .bltu => .br .bltu rs1 rs2 imm
  | .bgeu => .br .bgeu rs1 rs2 imm
  | .lb => .load .lb rd rs1 imm
  | .lh => .load .lh rd rs1 imm
  | .lw => .load .lw rd rs1 imm
  | .lbu => .load .lbu rd rs1 imm
  | .lhu => .load .lhu rd rs1 imm
  | .sb => .store .sb rs1 rs2 imm
  | .sh => .store .sh rs1 rs2 imm
  | .sw => .store .sw rs1 rs2 imm
  | .addi => .alui .add rd rs1 imm
  | .slli => .alui .sll rd rs1 imm
  | .slti => .alui .slt rd rs1 imm
  | .sltiu => .alui .sltu rd rs1 imm
  | .xori => .alui .xor rd rs1 imm
  | .srli => .alui .srl rd rs1 imm
  | .srai => .alui .sra rd rs1 imm
  | .ori => .alui .or rd rs1 imm
  | .andi => .alui .and rd rs1 imm
  | .add => .alu .add rd rs1 rs2
  | .sub => .alu .sub rd rs1 rs2
  | .sll => .alu .sll rd rs1 rs2
  | .slt => .alu .slt rd rs1 rs2
  | .sltu => .alu .sltu rd rs1 rs2
  | .xor => .alu .xor rd rs1 rs2
  | .srl => .alu .srl rd rs1 rs2
  | .sra => .alu .sra rd rs1 rs2
  | .or => .alu .or rd rs1 rs2
  | .and => .alu .and rd rs1 rs2
  | .fence => .fence
  | .ecall => .ecall rd
  | .ebreak => .ebreak rd
  | .unimpl => .unimp

/-- The register of an operand. -/
def operand (r : Option U64) : U32 := (r.getD 0).setWidth 32

/-- The instruction that a converted one stands for. -/
def ELFInstruction.toInst (i : ELFInstruction) : RV32 :=
  i.opcode.toInst (operand i.rd) (operand i.rs1) (operand i.rs2) (i.imm.getD 0)

theorem setWidth_setWidth (r : U32) : (r.setWidth 64).setWidth 32 = r := by
  rw [BitVec.setWidth_setWidth_of_le _ (by decide), BitVec.setWidth_eq]

theorem operand_some (r : U32) : operand (some (r.setWidth 64)) = r := setWidth_setWidth r

/-- **Conversion loses nothing**, but for the immediate subtraction, which does not exist. -/
theorem toInst_convert {i : Inst} (h : ∀ rd rs1 imm, i.inst ≠ .alui .sub rd rs1 imm) :
    (Convert.inst i).toInst = i.inst := by
  unfold ELFInstruction.toInst Convert.inst
  dsimp only
  cases hi : i.inst with
  | br bop rs1 rs2 imm =>
      cases bop <;>
        simp [Convert.rv32Opcode, RV32IM.toInst, RV32.rs1, RV32.rs2, RV32.imm, operand_some]
  | load lop rd rs1 imm =>
      cases lop <;>
        simp [Convert.rv32Opcode, RV32IM.toInst, RV32.rd, RV32.rs1, RV32.imm, operand_some]
  | store sop rs1 rs2 imm =>
      cases sop <;>
        simp [Convert.rv32Opcode, RV32IM.toInst, RV32.rs1, RV32.rs2, RV32.imm, operand_some]
  | alui aop rd rs1 imm =>
      cases aop with
      | sub => exact absurd hi (h rd rs1 imm)
      | _ => simp [Convert.rv32Opcode, RV32IM.toInst, RV32.rd, RV32.rs1, RV32.imm, operand_some]
  | alu aop rd rs1 rs2 =>
      cases aop <;>
        simp [Convert.rv32Opcode, RV32IM.toInst, RV32.rd, RV32.rs1, RV32.rs2, operand_some]
  | _ =>
      simp [Convert.rv32Opcode, RV32IM.toInst, RV32.rd, RV32.rs1, RV32.imm, operand_some]

section Rows

variable {M P : Type} [Memory M P]

/-- The memory access of an instruction in a machine, as a row has it. -/
def Accesses (vm : NexusVM M P) (i : RV32) (state : Option MemoryState) : Prop :=
  match i with
  | .load lop _ rs1 imm => ∃ value proof,
      Memory.load vm.mem lop (vm.getReg rs1 + imm) = .ok (value, proof) ∧
        state = some (.read ((vm.getReg rs1 + imm).setWidth 64) (value.setWidth 64))
  | .store sop rs1 rs2 imm => ∃ postValue,
      state = some (.write ((vm.getReg rs1 + imm).setWidth 64) postValue) ∧
        postValue.setWidth (8 * sop.width) = (vm.getReg rs2).setWidth (8 * sop.width)
  | _ => state = none

/-- **The row of a step** from `vm` to `vm'`. -/
structure RowOf (vm vm' : NexusVM M P) (row : RVTraceRow) : Prop where
  address : row.instruction.address = vm.regs.pc.setWidth 64
  toInst : row.instruction.toInst = vm'.inst.inst
  rd : row.instruction.rd = vm'.inst.inst.rd.map (BitVec.setWidth 64)
  rs1 : row.instruction.rs1 = vm'.inst.inst.rs1.map (BitVec.setWidth 64)
  rs2 : row.instruction.rs2 = vm'.inst.inst.rs2.map (BitVec.setWidth 64)
  imm : row.instruction.imm = vm'.inst.inst.imm
  rs1Val : row.registerState.rs1Val =
    vm'.inst.inst.rs1.map fun r => (vm.getReg r).setWidth 64
  rs2Val : row.registerState.rs2Val =
    vm'.inst.inst.rs2.map fun r => (vm.getReg r).setWidth 64
  rdPostVal : row.registerState.rdPostVal =
    vm'.inst.inst.rd.map fun r => if r = 0 then 0 else (vm'.regs.x (regIdx r)).setWidth 64
  memory : Accesses vm vm'.inst.inst row.memoryState

/-- Registers after the write of a row. -/
def RVTraceRow.writeReg (x : Fin 32 → U32) (row : RVTraceRow) : Fin 32 → U32 :=
  match row.instruction.rd, row.registerState.rdPostVal with
  | some rd, some val =>
      if rd = 0 then x else Function.update x (regIdx (rd.setWidth 32)) (val.setWidth 32)
  | _, _ => x

/-- The store of a row. -/
def RVTraceRow.stored (row : RVTraceRow) : Option Store :=
  match row.instruction.toInst, row.memoryState with
  | .store sop _ _ _, some (.write address val) =>
      some ⟨sop, address.setWidth 32, val.setWidth 32⟩
  | _, _ => none

/-! ## One step -/

/-- What an instruction has done to the memory. -/
def Touches (vm vm' : NexusVM M P) (i : RV32) : Prop :=
  match i with
  | .load lop _ rs1 imm => vm'.mem = vm.mem ∧
      ∃ out, Memory.load vm.mem lop (add32 (vm.getReg rs1) imm) = .ok out
  | .store sop rs1 rs2 imm => ∃ path,
      Memory.store vm.mem sop (add32 (vm.getReg rs1) imm) (vm.getReg rs2) = (.ok path, vm'.mem)
  | _ => vm'.mem = vm.mem

/-- What an instruction of the base set leaves before the step ends. -/
structure Acted (vm vm' : NexusVM M P) : Prop where
  sets : vm'.instructionSets = vm.instructionSets
  touches : Touches vm vm' vm.inst.inst

variable {vm vm' : NexusVM M P} {B : Build}

theorem acted_of_execInst {next : Next} (hset : vm.inst.inst.instructionSet = .rv32i)
    (h : execInst B vm = (.ok next, vm')) :
    Acted vm vm' := by
  unfold execInst at h
  cases hi : vm.inst.inst with
  | load lop rd rs1 imm =>
      rw [hi] at h
      dsimp only at h
      split at h
      · cases h
      · rename_i val proof hload
        cases h
        refine ⟨rfl, ?_⟩
        rw [hi]
        exact ⟨rfl, _, hload⟩
  | store sop rs1 rs2 imm =>
      rw [hi] at h
      dsimp only at h
      split at h
      · cases h
      · split at h
        · cases h
        · rename_i path mem' hstore
          cases h
          refine ⟨rfl, ?_⟩
          rw [hi]
          exact ⟨path, hstore⟩
  | ecall rd =>
      rw [hi] at hset
      cases hset
  | _ =>
      rw [hi] at h
      cases h
      refine ⟨rfl, ?_⟩
      rw [hi]
      exact rfl

/-- **What a step of the base set has done.** -/
structure Performed (vm vm' : NexusVM M P) : Prop where
  sets : vm'.instructionSets = insert .rv32i vm.instructionSets
  x : vm'.regs.x = if vm'.inst.inst.dest = 0 then vm.regs.x else
    Function.update vm.regs.x (regIdx vm'.inst.inst.dest) vm'.Z
  parse : parseU32 vm'.inst.word = some vm'.inst.inst
  touches : Touches vm vm' vm'.inst.inst

theorem performed_of_evalInst (h : evalInst B vm = (.ok (), vm'))
    (hset : vm'.inst.inst.instructionSet = .rv32i) :
    Performed vm vm' := by
  have hstepped := stepped_of_evalInst h
  obtain ⟨word, proof, inst, next, vm₁, -, hparse, hexec, rfl⟩ := stages_of_evalInst h
  have hframed := framed_of_execInst hexec
  obtain ⟨hinst, hmem, -⟩ := finishInst_frame vm₁ next
  have hinst' : (finishInst vm₁ next).inst = inst := hinst.trans hframed.inst
  rw [hinst'] at hset
  have hacted := acted_of_execInst hset hexec
  have hsets : (finishInst vm₁ next).instructionSets = vm₁.instructionSets := by
    show (vm₁.setReg next.RD vm₁.Z).instructionSets = _
    unfold NexusVM.setReg
    split_ifs
    · rfl
    · rfl
  constructor
  · rw [hsets, hacted.sets, ← hset]
    rfl
  · exact hstepped.x
  · exact hstepped.parse
  · have htouches : Touches vm vm₁ inst.inst := hacted.touches
    rw [hinst']
    unfold Touches at htouches ⊢
    rw [hmem]
    exact htouches

/-- The row of a step, with a given memory access. -/
def rowAt (vm vm' : NexusVM M P) (state : Option MemoryState) : RVTraceRow where
  instruction := Convert.inst vm'.inst
  registerState :=
    { rs1Val := vm'.inst.inst.rs1.map fun r => (vm.getReg r).setWidth 64
      rs2Val := vm'.inst.inst.rs2.map fun r => (vm.getReg r).setWidth 64
      rdPostVal := vm'.inst.inst.rd.map fun r => (vm'.getReg r).setWidth 64 }
  memoryState := state

omit [Memory M P] in
theorem map_operand (vm : NexusVM M P) (r : Option U32) :
    ((r.map (BitVec.setWidth 64)).map fun r => (vm.getReg (r.setWidth 32)).setWidth 64) =
      r.map fun r => (vm.getReg r).setWidth 64 := by
  cases r with
  | none => rfl
  | some r =>
      show some ((vm.getReg ((r.setWidth 64).setWidth 32)).setWidth 64) = _
      rw [setWidth_setWidth]
      rfl

variable {state : Option MemoryState}

theorem initTraceRow_eq (h : memoryState vm vm'.inst = .ok state) :
    initTraceRow vm vm'.inst (Convert.inst vm'.inst) = .ok
      { instruction := Convert.inst vm'.inst
        registerState := { (rowAt vm vm' state).registerState with rdPostVal := none }
        memoryState := state } := by
  unfold initTraceRow
  rw [h]
  unfold Convert.inst
  dsimp only [rowAt]
  rw [map_operand, map_operand]
  rfl

/-- The end of a row that is no store. -/
theorem updateRowPostEval_none (vm vm' : NexusVM M P) (state : Option MemoryState) :
    updateRowPostEval vm'
      { instruction := Convert.inst vm'.inst
        registerState := { (rowAt vm vm' state).registerState with rdPostVal := none }
        memoryState := state } none = .ok (rowAt vm vm' state) := by
  unfold updateRowPostEval rowAt Convert.inst
  dsimp only
  cases vm'.inst.inst.rd with
  | none => rfl
  | some rd =>
      dsimp only [Option.map_some]
      rw [setWidth_setWidth]

/-- The end of the row of a store. -/
theorem updateRowPostEval_some {lop : LOP} {addr value : U32} {proof : P} (address : U64)
    (h : Memory.load vm'.mem lop addr = .ok (value, proof)) (hrd : vm'.inst.inst.rd = none) :
    updateRowPostEval vm'
      { instruction := Convert.inst vm'.inst
        registerState := { (rowAt vm vm' none).registerState with rdPostVal := none }
        memoryState := some (.write address 0) } (some (lop, addr)) =
      .ok (rowAt vm vm' (some (.write address (value.setWidth 64)))) := by
  unfold updateRowPostEval rowAt Convert.inst
  rw [hrd]
  dsimp only [Option.map_none]
  rw [h]

/-- What is executed is not the immediate subtraction. -/
theorem ne_alui_sub {word : U32} {i : RV32} (h : parseU32 word = some i) (rd rs1 imm : U32) :
    i ≠ .alui .sub rd rs1 imm := by
  rintro rfl
  cases parses_of_parseU32 h with
  | alui hopc ha => exact (aopi_eq_some.mp ha).1 rfl

theorem rowOf_rowAt (h : Performed vm vm') (hpc : vm'.inst.pc = vm.regs.pc)
    (haccess : Accesses vm vm'.inst.inst state) :
    RowOf vm vm' (rowAt vm vm' state) := by
  constructor
  · exact congrArg (BitVec.setWidth 64) hpc
  · exact toInst_convert (ne_alui_sub h.parse)
  · rfl
  · rfl
  · rfl
  · rfl
  · rfl
  · rfl
  · show Option.map _ _ = Option.map _ _
    congr 1
    funext r
    unfold NexusVM.getReg
    split_ifs
    · rfl
    · rfl
  · exact haccess

variable {inv : M → Prop} {same : U32 → U32 → Prop} {place : U32 → U32 → ℕ}

/-- The round of the loop that traces a step, from its beginnings. -/
theorem traceInst_eq {state state' : Option MemoryState}
    (heval : evalInst B vm = (.ok (), vm')) (hfresh : .rv32Nexus ∉ vm'.instructionSets)
    (hstate : memoryState vm vm'.inst = .ok state)
    (hupdate : updateRowPostEval vm'
      { instruction := Convert.inst vm'.inst
        registerState := { (rowAt vm vm' state).registerState with rdPostVal := none }
        memoryState := state } (storeAddr vm vm'.inst) = .ok (rowAt vm vm' state')) :
    traceInst B vm vm'.inst = .ok (rowAt vm vm' state', vm') := by
  unfold traceInst
  dsimp only
  rw [initTraceRow_eq hstate, heval]
  show (if InstructionSet.rv32Nexus ∈ vm'.instructionSets then _ else _) = _
  rw [if_neg hfresh, hupdate]
  rfl

/-- **Each step leaves its row.** -/
theorem exists_row (hM : Memory.Lined M P inv same place) (hmem : inv vm.mem)
    (heval : evalInst B vm = (.ok (), vm')) (hset : vm'.inst.inst.instructionSet = .rv32i)
    (hfresh : .rv32Nexus ∉ vm.instructionSets) :
    ∃ row, traceInst B vm vm'.inst = .ok (row, vm') ∧ RowOf vm vm' row := by
  have hperf := performed_of_evalInst heval hset
  have hpc := (ran_of_evalInst heval).pc
  have hfresh' : .rv32Nexus ∉ vm'.instructionSets := by
    rw [hperf.sets, Finset.mem_insert, not_or]
    exact ⟨nofun, hfresh⟩
  have htouches := hperf.touches
  -- an instruction without memory access
  have hplain : memoryState vm vm'.inst = .ok none → storeAddr vm vm'.inst = none →
      Accesses vm vm'.inst.inst none →
      ∃ row, traceInst B vm vm'.inst = .ok (row, vm') ∧ RowOf vm vm' row := by
    intro hstate haddr haccess
    refine ⟨_, traceInst_eq heval hfresh' hstate ?_, rowOf_rowAt hperf hpc haccess⟩
    rw [haddr]
    exact updateRowPostEval_none vm vm' none
  cases hi : vm'.inst.inst with
  | load lop rd rs1 imm =>
      rw [hi] at htouches
      obtain ⟨-, ⟨value, proof⟩, hload⟩ := htouches
      have hstate : memoryState vm vm'.inst = .ok (some (.read
          ((add32 (vm.getReg rs1) imm).setWidth 64) (value.setWidth 64))) := by
        unfold memoryState
        rw [hi]
        dsimp only
        rw [hload]
      have haddr : storeAddr vm vm'.inst = none := by
        unfold storeAddr
        rw [hi]
      refine ⟨rowAt vm vm' (some (.read ((add32 (vm.getReg rs1) imm).setWidth 64)
        (value.setWidth 64))), traceInst_eq heval hfresh' hstate ?_, rowOf_rowAt hperf hpc ?_⟩
      · rw [haddr]
        exact updateRowPostEval_none vm vm' _
      · rw [hi]
        exact ⟨value, proof, hload, rfl⟩
  | store sop rs1 rs2 imm =>
      rw [hi] at htouches
      obtain ⟨path, hstore⟩ := htouches
      obtain ⟨value, proof, hload, hlow⟩ := hM.load_store hmem hstore
      have hstate : memoryState vm vm'.inst = .ok (some (.write
          ((add32 (vm.getReg rs1) imm).setWidth 64) 0)) := by
        unfold memoryState
        rw [hi]
      have haddr : storeAddr vm vm'.inst = some (sop.lop, add32 (vm.getReg rs1) imm) := by
        unfold storeAddr
        rw [hi]
        cases sop with
        | sb => rfl
        | sh => rfl
        | sw => rfl
      refine ⟨rowAt vm vm' (some (.write ((add32 (vm.getReg rs1) imm).setWidth 64)
        (value.setWidth 64))), traceInst_eq heval hfresh' hstate ?_, rowOf_rowAt hperf hpc ?_⟩
      · rw [haddr]
        exact updateRowPostEval_some _ hload (by rw [hi]; rfl)
      · rw [hi]
        refine ⟨value.setWidth 64, rfl, ?_⟩
        rw [← hlow]
        cases sop with
        | sb => exact BitVec.setWidth_setWidth_of_le _ (by decide)
        | sh => exact BitVec.setWidth_setWidth_of_le _ (by decide)
        | sw => exact BitVec.setWidth_setWidth_of_le _ (by decide)
  | _ =>
      apply hplain
      · unfold memoryState
        rw [hi]
      · unfold storeAddr
        rw [hi]
      · rw [hi]
        exact rfl

/-! ## Replaying a row and runs -/

theorem dest_eq {i : RV32} (h : i.instructionSet = .rv32i) : i.dest = i.rd.getD 0 := by
  cases i with
  | ebreak rd => cases h
  | _ => rfl

omit [Memory M P] in
theorem setWidth_eq_zero {r : U32} : r.setWidth 64 = (0 : U64) ↔ r = 0 := by
  constructor
  · intro h
    rw [← setWidth_setWidth r, h]
    rfl
  · rintro rfl
    rfl

/-- The register write of a row is that of its step. -/
theorem RowOf.writeReg {row : RVTraceRow} (h : RowOf vm vm' row) (hperf : Performed vm vm')
    (hset : vm'.inst.inst.instructionSet = .rv32i) :
    row.writeReg vm.regs.x = vm'.regs.x := by
  have hx := hperf.x
  rw [dest_eq hset] at hx
  unfold RVTraceRow.writeReg
  rw [h.rd, h.rdPostVal]
  cases hrd : vm'.inst.inst.rd with
  | none =>
      rw [hrd] at hx
      exact hx.symm
  | some r =>
      rw [hrd] at hx
      dsimp only [Option.map_some]
      by_cases hr : r = 0
      · rw [if_pos (setWidth_eq_zero.mpr hr), hx]
        exact (if_pos hr).symm
      · have hx' : vm'.regs.x = Function.update vm.regs.x (regIdx r) vm'.Z := hx.trans (if_neg hr)
        rw [if_neg (mt setWidth_eq_zero.mp hr), if_neg hr, setWidth_setWidth, setWidth_setWidth,
          hx', Function.update_self]

/-- The store of a row does to the memory what its step has done. -/
theorem RowOf.storeAll {row : RVTraceRow} (h : RowOf vm vm' row) (hperf : Performed vm vm')
    (stores : List Store) :
    Memory.storeAll vm.mem (row.stored.toList ++ stores) = Memory.storeAll vm'.mem stores := by
  have htouches := hperf.touches
  have haccess := h.memory
  unfold RVTraceRow.stored
  rw [h.toInst]
  cases hi : vm'.inst.inst with
  | store sop rs1 rs2 imm =>
      rw [hi] at htouches haccess
      obtain ⟨path, hstore⟩ := htouches
      obtain ⟨postValue, hstate, hlow⟩ := haccess
      have hwidth : 8 * sop.width ≤ 32 := by
        cases sop <;> decide
      rw [hstate]
      dsimp only
      show Memory.storeAll vm.mem (_ :: stores) = _
      rw [Memory.storeAll]
      dsimp only
      rw [setWidth_setWidth, Memory.store_congr vm.mem _
        ((BitVec.setWidth_setWidth_of_le _ hwidth).trans hlow)]
      have hstore' : Memory.store vm.mem sop (vm.getReg rs1 + imm) (vm.getReg rs2) = _ := hstore
      rw [hstore']
  | load lop rd rs1 imm =>
      rw [hi] at htouches
      rw [htouches.1]
      rfl
  | _ =>
      rw [hi] at htouches
      have hmem : vm'.mem = vm.mem := htouches
      rw [hmem]
      rfl

theorem Performed.keeps_inv (hM : Memory.Lined M P inv same place) (h : Performed vm vm')
    (hmem : inv vm.mem) : inv vm'.mem := by
  have htouches := h.touches
  cases hi : vm'.inst.inst with
  | store sop rs1 rs2 imm =>
      rw [hi] at htouches
      obtain ⟨path, hstore⟩ := htouches
      exact (hM.store_eq hmem hstore).1
  | load lop rd rs1 imm =>
      rw [hi] at htouches
      rw [htouches.1]
      exact hmem
  | _ =>
      rw [hi] at htouches
      have hsame : vm'.mem = vm.mem := htouches
      rw [hsame]
      exact hmem

/-- The rows of a run. -/
inductive Traced (B : Build) : NexusVM M P → List RVTraceRow → NexusVM M P → Prop
  | nil (vm : NexusVM M P) : Traced B vm [] vm
  | cons {vm vm₁ vm' : NexusVM M P} {row : RVTraceRow} {rows : List RVTraceRow}
      (eval : evalInst B vm = (.ok (), vm₁)) (base : vm₁.inst.inst.instructionSet = .rv32i)
      (row_of : RowOf vm vm₁ row) (rest : Traced B vm₁ rows vm') : Traced B vm (row :: rows) vm'

variable {rows : List RVTraceRow}

/-- **Replaying the rows of a run** ends with its registers and its memory. -/
theorem Traced.replay (h : Traced B vm rows vm') :
    rows.foldl RVTraceRow.writeReg vm.regs.x = vm'.regs.x ∧
      Memory.storeAll vm.mem (rows.filterMap RVTraceRow.stored) = .ok vm'.mem := by
  induction h with
  | nil vm => exact ⟨rfl, rfl⟩
  | @cons vm vm₁ vm' row rows eval base row_of _ ih =>
      have hperf := performed_of_evalInst eval base
      constructor
      · rw [List.foldl_cons, row_of.writeReg hperf base]
        exact ih.1
      · have hsplit : (row :: rows).filterMap RVTraceRow.stored =
            row.stored.toList ++ rows.filterMap RVTraceRow.stored := by
          rw [List.filterMap_cons]
          cases row.stored with
          | none => rfl
          | some s => rfl
        rw [hsplit, row_of.storeAll hperf]
        exact ih.2

/-- The rows of a run, one by one. -/
theorem Traced.get (h : Traced B vm rows vm') {i : ℕ} (hi : i < rows.length) :
    ∃ row, rows[i]? = some row ∧ RowOf (stateAt B i vm) (stateAt B (i + 1) vm) row := by
  induction h generalizing i with
  | nil vm => exact absurd hi (Nat.not_lt_zero i)
  | @cons vm vm₁ vm' row rows eval base row_of _ ih =>
      have hone : stateAt B 1 vm = vm₁ := congrArg Prod.snd eval
      cases i with
      | zero =>
          refine ⟨row, rfl, ?_⟩
          rw [Nat.zero_add, hone]
          exact row_of
      | succ i =>
          obtain ⟨row', hget, hrow⟩ := ih (Nat.lt_of_succ_lt_succ hi)
          refine ⟨row', hget, ?_⟩
          rwa [Nat.add_comm (i + 1) 1, Nat.add_comm i 1, stateAt_add B 1 (1 + i),
            stateAt_add B 1 i, hone, Nat.add_comm 1 i]

/-- **The machine reaches `unimp` after `n` steps** without error, and without using an
instruction of the Nexus set. -/
structure ReachesUnimp (B : Build) (vm : NexusVM M P) (n : ℕ) : Prop where
  runs : RunsOk B vm n
  unimp : ∃ inst, Fetches (stateAt B n vm) inst ∧ inst.inst = .unimp
  first : ∀ i < n, (stateAt B (i + 1) vm).inst.inst ≠ .unimp
  base : ∀ i < n, (stateAt B (i + 1) vm).inst.inst.instructionSet = .rv32i
  fresh : .rv32Nexus ∉ vm.instructionSets

variable {vm : NexusVM M P}

theorem ReachesUnimp.tail {n : ℕ} (h : ReachesUnimp B vm (n + 1)) :
    ReachesUnimp B (stateAt B 1 vm) n := by
  have hnext : ∀ i, stateAt B i (stateAt B 1 vm) = stateAt B (i + 1) vm := fun i => by
    rw [← stateAt_add, Nat.add_comm]
  constructor
  · intro i hi
    rw [hnext, hnext]
    exact h.runs (i + 1) (Nat.succ_lt_succ hi)
  · rw [hnext]
    exact h.unimp
  · intro i hi
    rw [hnext]
    exact h.first (i + 1) (Nat.succ_lt_succ hi)
  · intro i hi
    rw [hnext]
    exact h.base (i + 1) (Nat.succ_lt_succ hi)
  · have hsets :=
      (performed_of_evalInst (h.runs 0 (Nat.succ_pos n)) (h.base 0 (Nat.succ_pos n))).sets
    rw [hsets, Finset.mem_insert, not_or]
    exact ⟨nofun, h.fresh⟩

/-- The loop traces a run up to `unimp`. -/
theorem traceLoop_eq (hM : Memory.Lined M P inv same place) (hmem : inv vm.mem) {n : ℕ}
    (h : ReachesUnimp B vm n) :
    ∃ rows, Traced B vm rows (stateAt B n vm) ∧ rows.length = n ∧
      ∀ fuel, n < fuel → ∀ trace, traceLoop B fuel vm trace = some (.ok (trace ++ rows)) := by
  induction n generalizing vm with
  | zero =>
      refine ⟨[], .nil vm, rfl, ?_⟩
      intro fuel hfuel trace
      obtain ⟨fuel, rfl⟩ := Nat.exists_eq_add_of_lt hfuel
      obtain ⟨inst, ⟨word, proof, hread, hparse⟩, hunimp⟩ := h.unimp
      have hload : Memory.load vm.mem .lw vm.regs.pc = .ok (word, proof) := hread
      have hparse' : parseInst vm.regs.pc (toLeBytes word) = .ok inst := hparse
      rw [traceLoop, hload]
      dsimp only
      rw [hparse']
      dsimp only
      rw [if_pos hunimp, List.append_nil]
  | succ n ih =>
      have heval := h.runs 0 (Nat.succ_pos n)
      have hbase := h.base 0 (Nat.succ_pos n)
      have hone : stateAt B (0 + 1) vm = stateAt B 1 vm := rfl
      rw [hone] at heval hbase
      have hstart : stateAt B 0 vm = vm := rfl
      rw [hstart] at heval
      have hperf := performed_of_evalInst heval hbase
      obtain ⟨row, htrace, hrow⟩ := exists_row hM hmem heval hbase h.fresh
      obtain ⟨rows, htraced, hlen, hloop⟩ := ih (hperf.keeps_inv hM hmem) h.tail
      refine ⟨row :: rows, ?_, congrArg Nat.succ hlen, ?_⟩
      · rw [Nat.add_comm, stateAt_add]
        exact .cons heval hbase hrow htraced
      · intro fuel hfuel trace
        cases fuel with
        | zero => exact absurd hfuel (Nat.not_lt_zero _)
        | succ fuel =>
            obtain ⟨word, proof, hread, hparse⟩ := (ran_of_evalInst heval).fetches
            have hload : Memory.load vm.mem .lw vm.regs.pc = .ok (word, proof) := hread
            rw [traceLoop, hload]
            dsimp only
            rw [hparse]
            dsimp only
            rw [if_neg (h.first 0 (Nat.succ_pos n)), htrace]
            dsimp only
            rw [hloop fuel (Nat.lt_of_succ_lt_succ hfuel), List.append_assoc, List.singleton_append]

/-- **The trace is faithful**: it has a row for each step of the run up to `unimp`, and the
writes of the rows replay the run. -/
theorem trace_faithful (hM : Memory.Lined M P inv same place) (hmem : inv vm.mem) {n : ℕ}
    (h : ReachesUnimp B vm n) :
    ∃ rows, (∀ fuel, n < fuel → trace B fuel vm = some (.ok rows)) ∧ rows.length = n ∧
      (∀ i < n, ∃ row, rows[i]? = some row ∧
        RowOf (stateAt B i vm) (stateAt B (i + 1) vm) row) ∧
      rows.foldl RVTraceRow.writeReg vm.regs.x = (stateAt B n vm).regs.x ∧
      Memory.storeAll vm.mem (rows.filterMap RVTraceRow.stored) = .ok (stateAt B n vm).mem := by
  obtain ⟨rows, htraced, hlen, hloop⟩ := traceLoop_eq hM hmem h
  refine ⟨rows, ?_, hlen, ?_, htraced.replay⟩
  · intro fuel hfuel
    exact hloop fuel hfuel []
  · intro i hi
    exact htraced.get (hi.trans_eq hlen.symm)

end Rows

/-- `addi x5, x0, -1; sb x5, 100(x0); unimp`. -/
theorem trace_faithful_store : ∃ rows,
    (∀ fuel, 2 < fuel → trace ⟨true⟩ fuel
      (programMachine [0xfff00293, 0x06500223, 0xc0001073]) = some (.ok rows)) ∧
    rows.length = 2 ∧ rows.foldl RVTraceRow.writeReg (fun _ => 0) 5 = 0xffffffff := by
  have hreaches : ReachesUnimp ⟨true⟩
      (programMachine [0xfff00293, 0x06500223, 0xc0001073]) 2 := by
    constructor
    · apply runsOk_of_fst
      intro i hi
      interval_cases i <;> decide +kernel
    · exact ⟨_, ⟨_, _, rfl, rfl⟩, rfl⟩
    · intro i hi
      interval_cases i <;> decide +kernel
    · intro i hi
      interval_cases i <;> decide +kernel
    · exact Finset.notMem_empty _
  obtain ⟨rows, hrun, hlen, -, hx, -⟩ := trace_faithful (paged_lined 7) trivial hreaches
  have hfive : (stateAt ⟨true⟩ 2
      (programMachine [0xfff00293, 0x06500223, 0xc0001073])).regs.x 5 = 0xffffffff := by
    decide +kernel
  exact ⟨rows, hrun, hlen, (congrFun hx 5).trans hfive⟩

end Jolt

end NexusVm
