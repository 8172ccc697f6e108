import NexusVm.Stages
import NexusVm.Trace

/-!
# Replay of a trace

The iterator over a block decodes each word again and updates its own register
file.  It runs along with the machine as long as no `ebreak` or `unimp` has a
destination field: the machine leaves that register alone, and the replay clears
it.
-/

namespace NexusVm

namespace RV32

/-- The first source register, if there is one. -/
def source1 : RV32 → Option U32
  | jalr _ rs1 _ | br _ rs1 _ _ | load _ _ rs1 _ | store _ rs1 _ _ | alui _ _ rs1 _ |
    alu _ _ rs1 _ => some rs1
  | lui .. | auipc .. | jal .. | fence | ecall _ | ebreak _ | unimp => none

/-- The second source register, if there is one. -/
def source2 : RV32 → Option U32
  | br _ _ rs2 _ | store _ _ rs2 _ | alu _ _ _ rs2 => some rs2
  | lui .. | auipc .. | jal .. | jalr .. | load .. | alui .. | fence | ecall _ | ebreak _ |
    unimp => none

/-- Instructions that wait: they have no result. -/
def Waits (i : RV32) : Prop := (∃ rd, i = ebreak rd) ∨ i = unimp

end RV32

/-- **The fields of the replay** are the operands of the instruction, but for the
destination of an instruction that waits. -/
structure Fields.Match (w : Fields) (word : U32) (i : RV32) : Prop where
  source1 : ∀ r ∈ i.source1, w.rs1 = r
  source2 : ∀ r ∈ i.source2, w.rs2 = r
  dest : ¬ i.Waits → w.rd = i.dest
  waits : i.Waits → w.rd = NexusVm.rd word ∧ i.dest = 0

/-- The fields that the replay fills in. -/
def RV32.fields (regs : Regs) (word : U32) : RV32 → Fields
  | .lui rd imm | .auipc rd imm | .jal rd imm => { rd := rd, I := imm }
  | .jalr rd rs1 imm | .load _ rd rs1 imm => { rd := rd, rs1 := rs1, I := imm }
  | .br _ rs1 rs2 imm | .store _ rs1 rs2 imm => { rs1 := rs1, rs2 := rs2, I := imm }
  | .alui _ rd rs1 imm => { rd := rd, rs1 := rs1, I := imm, shamt := imm &&& 0x1f }
  | .alu _ rd rs1 rs2 =>
      { rd := rd, rs1 := rs1, rs2 := rs2, shamt := regs.x (regIdx rs2) &&& 0x1f }
  | .fence => {}
  | .ecall rd | .ebreak rd => { rd := rd }
  | .unimp => { rd := NexusVm.rd word }

/-- **The replay decodes the operands** of the instruction. -/
theorem Parses.parseAlt_eq {word : U32} {i : RV32} (h : Parses word i) (regs : Regs) :
    parseAlt regs word = i.fields regs word := by
  unfold parseAlt
  cases h with
  | lui hopc => rw [hopc]; rfl
  | auipc hopc => rw [hopc]; rfl
  | jal hopc => rw [hopc]; rfl
  | jalr hopc _ => rw [hopc]; rfl
  | br hopc _ => rw [hopc]; rfl
  | load hopc _ => rw [hopc]; rfl
  | store hopc _ => rw [hopc]; rfl
  | alui hopc _ => rw [hopc]; rfl
  | alu hopc _ => rw [hopc]; rfl
  | fence hopc => rw [hopc]; rfl
  | ecall hopc _ => rw [hopc]; rfl
  | ebreak hopc _ => rw [hopc]; rfl
  | unimp hopc _ => rw [hopc]; rfl

theorem Parses.match {word : U32} {i : RV32} (h : Parses word i) (regs : Regs) :
    (parseAlt regs word).Match word i := by
  have hno : ∀ {q : Prop} {j : RV32}, (∀ rd, j ≠ .ebreak rd) → j ≠ .unimp → j.Waits → q := by
    rintro q j hebreak hunimp (⟨rd, hrd⟩ | hu)
    · exact absurd hrd (hebreak rd)
    · exact absurd hu hunimp
  rw [h.parseAlt_eq regs]
  cases h with
  | ebreak hopc _ => exact ⟨nofun, nofun, fun h => absurd (Or.inl ⟨_, rfl⟩) h, fun _ => ⟨rfl, rfl⟩⟩
  | unimp hopc _ => exact ⟨nofun, nofun, fun h => absurd (Or.inr rfl) h, fun _ => ⟨rfl, rfl⟩⟩
  | _ =>
      refine ⟨?_, ?_, fun _ => rfl, hno nofun nofun⟩
      · rintro r ⟨⟩ <;> rfl
      · rintro r ⟨⟩ <;> rfl

section Replay

variable {M P : Type} [Memory M P]

/-- A witness of the step from `vm` to `vm'`. -/
structure Witness.Faithful (w : Witness P) (vm vm' : NexusVM M P) : Prop where
  regs : w.regs = vm.regs
  X : ∀ r ∈ vm'.inst.inst.source1, w.X = vm.getReg r
  Y : ∀ r ∈ vm'.inst.inst.source2, w.Y = vm.getReg r
  Z : w.Z = vm'.Z
  PC : w.PC = vm'.regs.pc

/-- The step clears no register in the replay: an instruction that waits has no
destination field, or the register is zero. -/
def Kept (vm vm' : NexusVM M P) : Prop :=
  vm'.inst.inst.Waits → rd vm'.inst.word ≠ 0 → vm.regs.x (regIdx (rd vm'.inst.word)) = 0

omit [Memory M P] in
theorem finishInst_regs (vm : NexusVM M P) (next : Next) :
    (finishInst vm next).regs.x = (if next.RD = 0 then vm.regs.x else
      Function.update vm.regs.x (regIdx next.RD) vm.Z) :=
  (vm.setReg_frame next.RD vm.Z).1

/-- What a successful step leaves in the machine. -/
structure Stepped (vm vm' : NexusVM M P) : Prop where
  parse : parseU32 vm'.inst.word = some vm'.inst.inst
  x : vm'.regs.x = if vm'.inst.inst.dest = 0 then vm.regs.x else
    Function.update vm.regs.x (regIdx vm'.inst.inst.dest) vm'.Z
  waits : vm'.inst.inst.Waits → vm'.Z = 0

variable {vm vm' : NexusVM M P} {B : Build}

theorem stepped_of_evalInst (h : evalInst B vm = (.ok (), vm')) : Stepped vm vm' := by
  obtain ⟨word, proof, inst, next, vm₁, -, hparse, hexec, rfl⟩ := stages_of_evalInst h
  obtain ⟨-, -, hword⟩ := parseInst_eq_ok hparse
  obtain ⟨hregs, hinst, hdest, hidle⟩ := framed_of_execInst hexec
  obtain ⟨regs, steps, cycles, hfinish⟩ := finishInst_eq vm₁ next
  have hinst' : (finishInst vm₁ next).inst = inst := by
    rw [hfinish]
    exact hinst
  have hZ : (finishInst vm₁ next).Z = vm₁.Z := by rw [hfinish]
  constructor
  · rw [hinst', hword]
  · rw [finishInst_regs, hinst', hZ, hdest, hregs]
    rfl
  · intro hwaits
    rw [hinst'] at hwaits
    rw [hZ, hidle hwaits]
    rfl

omit [Memory M P] in
theorem Stepped.zero (h : Stepped vm vm') (hx : vm.regs.x 0 = 0) :
    vm'.regs.x 0 = 0 := by
  have hlt := (parses_of_parseU32 h.parse).dest_lt
  rw [h.x]
  split_ifs with h0
  · exact hx
  · exact (Function.update_of_ne (regIdx_ne_zero hlt h0).symm _ _).trans hx

/-- The next program counter of the replay. -/
def nextPC (B : Build) (regs : Regs) (s : Step P) : Except NexusVMError U32 :=
  match s.PC with
  | some pc => .ok pc
  | none => B.add regs.pc 4

/-- The witness that the replay rebuilds of a step. -/
def Step.rebuilt (s : Step P) (regs : Regs) (i : RV32) (pc : U32) : Witness P :=
  let w := parseAlt regs s.inst
  let readProof := s.readProof.getD s.pcProof
  { regs := regs, inst := s.inst, J := i.indexJ, shamt := w.shamt, rs1 := w.rs1, rs2 := w.rs2
    rd := w.rd, I := w.I, X := regs.x (regIdx w.rs1), Y := regs.x (regIdx w.rs2), Z := s.Z
    PC := pc, pcProof := s.pcProof, readProof := readProof
    writeProof := s.writeProof.getD readProof }

variable {s : Step P} {regs : Regs}

omit [Memory M P] in
theorem witnessOf_eq_rebuilt {i : RV32} {pc : U32} (hparse : parseU32 s.inst = some i)
    (hPC : nextPC B regs s = .ok pc) :
    witnessOf B regs s = .ok (s.rebuilt regs i pc) := by
  unfold nextPC at hPC
  unfold witnessOf
  rw [hparse]
  dsimp only
  cases hs : s.PC with
  | some pc' =>
      rw [hs] at hPC
      cases hPC
      rfl
  | none =>
      rw [hs] at hPC
      dsimp only at hPC ⊢
      rw [hPC]
      rfl

omit [Memory M P] in
theorem witnessOf_eq {i : RV32} {pc : U32} (hparse : parseU32 s.inst = some i)
    (hPC : nextPC B regs s = .ok pc) :
    ∃ w, witnessOf B regs s = .ok w ∧ w.regs = regs ∧ w.inst = s.inst ∧ w.Z = s.Z ∧ w.PC = pc ∧
      w.rd = (parseAlt regs s.inst).rd ∧ w.X = regs.x (regIdx (parseAlt regs s.inst).rs1) ∧
      w.Y = regs.x (regIdx (parseAlt regs s.inst).rs2) :=
  ⟨_, witnessOf_eq_rebuilt hparse hPC, rfl, rfl, rfl, rfl, rfl, rfl, rfl⟩

omit [Memory M P] in
theorem regs_of_witnessOf {w : Witness P} (h : witnessOf B regs s = .ok w) : w.regs = regs := by
  unfold witnessOf at h
  split at h
  · cases h
  · dsimp only at h
    split at h
    · cases h
      rfl
    · cases hadd : B.add regs.pc 4 with
      | error e =>
          rw [hadd] at h
          cases h
      | ok pc =>
          rw [hadd] at h
          cases h
          rfl

variable {ss : List (Step P)} {ws : List (Witness P)}

omit [Memory M P] in
theorem replay_cons_eq_ok {regs final : Regs} : replay B regs (s :: ss) = .ok (ws, final) ↔
      ∃ w ws', witnessOf B regs s = .ok w ∧ replay B w.nextRegs ss = .ok (ws', final) ∧
        ws = w :: ws' := by
  rw [replay]
  cases witnessOf B regs s with
  | error e =>
      constructor
      · intro h
        cases h
      · rintro ⟨w, ws', h, -⟩
        cases h
  | ok w =>
      show (replay B w.nextRegs ss >>= fun r => pure (w :: r.1, r.2)) = _ ↔ _
      cases hrest : replay B w.nextRegs ss with
      | error e =>
          constructor
          · intro h
            cases h
          · rintro ⟨w', ws', h, h', -⟩
            cases h
            rw [hrest] at h'
            cases h'
      | ok r =>
          constructor
          · intro h
            cases h
            exact ⟨w, r.1, rfl, hrest, rfl⟩
          · rintro ⟨w', ws', h, h', rfl⟩
            cases h
            rw [hrest] at h'
            cases h'
            rfl

omit [Memory M P] in
/-- The registers of the replay after a step are those of the machine exactly if
the step clears none. -/
theorem Stepped.nextRegs_iff (h : Stepped vm vm') {w : Witness P} (hregs : w.regs = vm.regs)
    (hZ : w.Z = vm'.Z) (hPC : w.PC = vm'.regs.pc) (hrd : w.rd = (parseAlt vm.regs vm'.inst.word).rd) :
    w.nextRegs = vm'.regs ↔ Kept vm vm' := by
  have hmatch := (parses_of_parseU32 h.parse).match vm.regs
  have hlt : (rd vm'.inst.word).toNat < 32 := (field_lt _).2.2.2.1
  have hpos : ∀ r : U32, 0 < r.toNat ↔ r ≠ 0 := fun r =>
    Nat.pos_iff_ne_zero.trans (not_congr ⟨fun h0 => BitVec.eq_of_toNat_eq h0, fun h0 => by
      rw [h0]
      rfl⟩)
  rw [Regs.ext_iff, h.x]
  show w.PC = _ ∧ (if w.rd.toNat > 0 then Function.update w.regs.x (regIdx w.rd) w.Z
    else w.regs.x) = _ ↔ _
  rw [hPC, hregs, hZ, hrd]
  by_cases hwaits : vm'.inst.inst.Waits
  · obtain ⟨hfield, hdest⟩ := hmatch.waits hwaits
    rw [hfield, hdest, if_pos rfl, h.waits hwaits]
    unfold Kept
    by_cases hr : rd vm'.inst.word = 0
    · rw [hr, if_neg (by decide)]
      exact iff_of_true ⟨rfl, rfl⟩ fun _ hne => absurd rfl hne
    · rw [if_pos ((hpos _).mpr hr), Function.update_eq_self_iff]
      exact ⟨fun hx _ _ => hx.2.symm, fun hx => ⟨rfl, (hx hwaits hr).symm⟩⟩
  · rw [hmatch.dest hwaits]
    refine iff_of_true ⟨rfl, ?_⟩ fun hw => absurd hw hwaits
    by_cases hr : vm'.inst.inst.dest = 0
    · rw [hr, if_neg (by decide), if_pos rfl]
    · rw [if_pos ((hpos _).mpr hr), if_neg hr]

/-- What is recorded of a step from `vm` to `vm'`. -/
structure Step.Records (B : Build) (s : Step P) (vm vm' : NexusVM M P) : Prop where
  inst : s.inst = vm'.inst.word
  Z : s.Z = vm'.Z
  PC : nextPC B vm.regs s = .ok vm'.regs.pc
  pcProof : s.pcProof = vm'.pcProof
  readProof : s.readProof = vm'.readProof
  writeProof : s.writeProof = vm'.writeProof

theorem records_of_step (h : step B vm = (.ok s, vm')) :
    evalInst B vm = (.ok (), vm') ∧ s.Records B vm vm' := by
  unfold step at h
  dsimp only at h
  split at h
  · cases h
  · rename_i vm₁ heval
    split at h
    · cases h
    · rename_i pc4 hadd
      cases h
      refine ⟨heval, rfl, rfl, ?_, rfl, rfl, rfl⟩
      unfold nextPC
      dsimp only
      by_cases hnext : vm'.regs.pc = pc4
      · rw [if_pos hnext, hnext]
        exact hadd
      · rw [if_neg hnext]

/-- **The witness of a recorded step** is faithful, and leads to the registers of
the machine exactly if the step clears none. -/
theorem exists_witness (hx : vm.regs.x 0 = 0) (h : step B vm = (.ok s, vm')) :
    evalInst B vm = (.ok (), vm') ∧ vm'.regs.x 0 = 0 ∧ ∃ w, witnessOf B vm.regs s = .ok w ∧
      w.Faithful vm vm' ∧ (w.nextRegs = vm'.regs ↔ Kept vm vm') := by
  obtain ⟨heval, hrec⟩ := records_of_step h
  have hstep := stepped_of_evalInst heval
  have hmatch := (parses_of_parseU32 hstep.parse).match vm.regs
  refine ⟨heval, hstep.zero hx, ?_⟩
  have hparse : parseU32 s.inst = some vm'.inst.inst := by rw [hrec.inst, hstep.parse]
  obtain ⟨w, hw, hregs, -, hZ, hwPC, hrd, hX, hY⟩ := witnessOf_eq hparse hrec.PC
  rw [hrec.inst] at hrd hX hY
  have hwZ : w.Z = vm'.Z := by rw [hZ, hrec.Z]
  refine ⟨w, hw, ⟨hregs, ?_, ?_, hwZ, hwPC⟩, hstep.nextRegs_iff hregs hwZ hwPC hrd⟩
  · intro r hr
    rw [hX, vm.getReg_eq_x hx, hmatch.source1 r hr]
  · intro r hr
    rw [hY, vm.getReg_eq_x hx, hmatch.source2 r hr]

/-! ## Runs -/

/-- The machine after `n` steps. -/
def stateAt (B : Build) (n : ℕ) (vm : NexusVM M P) : NexusVM M P :=
  (fun vm => (evalInst B vm).2)^[n] vm

/-- **A faithful replay** of the run from one state of the machine to another. -/
inductive Replays (B : Build) : NexusVM M P → List (Witness P) → NexusVM M P → Prop
  | nil (vm : NexusVM M P) : Replays B vm [] vm
  | cons {vm vm₁ vm' : NexusVM M P} {w : Witness P} {ws : List (Witness P)}
      (heval : evalInst B vm = (.ok (), vm₁)) (hw : w.Faithful vm vm₁)
      (hrest : Replays B vm₁ ws vm') : Replays B vm (w :: ws) vm'

theorem Replays.eq_stateAt (h : Replays B vm ws vm') : vm' = stateAt B ws.length vm := by
  induction h with
  | nil vm => rfl
  | cons heval _ _ ih =>
      rw [ih, List.length_cons, stateAt, stateAt, Function.iterate_succ_apply, heval]

/-- A replay that is faithful, and ends with the machine's registers, also starts
with them. -/
theorem Replays.regs_eq (h : Replays B vm ws vm') (hreplay : replay B regs ss = .ok (ws, vm'.regs)) :
    regs = vm.regs := by
  cases ss with
  | nil =>
      cases hreplay
      cases h
      rfl
  | cons s ss =>
      obtain ⟨w, ws', hw, -, rfl⟩ := replay_cons_eq_ok.mp hreplay
      cases h with
      | cons _ hfaithful _ => exact (regs_of_witnessOf hw).symm.trans hfaithful.regs

variable {k : ℕ}

/-- A recorded step, and the rest of its block. -/
theorem steps_succ_eq_ok :
    steps B (k + 1) vm = (.ok ss, vm') ↔ ∃ s vm₁ ss', step B vm = (.ok s, vm₁) ∧
      steps B k vm₁ = (.ok ss', vm') ∧ ss = s :: ss' := by
  rw [steps]
  rcases step B vm with ⟨e | s, vm₁⟩
  · constructor
    · intro h
      cases h
    · rintro ⟨s, vm₂, ss', h, -⟩
      cases h
  · dsimp only
    rcases hrest : steps B k vm₁ with ⟨e | ss', vm₂⟩
    · constructor
      · intro h
        cases h
      · rintro ⟨s', vm₃, ss', h, h', -⟩
        cases h
        rw [hrest] at h'
        cases h'
    · constructor
      · intro h
        cases h
        exact ⟨s, vm₁, ss', rfl, hrest, rfl⟩
      · rintro ⟨s', vm₃, ss'', h, h', rfl⟩
        cases h
        rw [hrest] at h'
        cases h'
        rfl

variable {vm vm₁ : NexusVM M P}

/-- The steps of a run are all kept, the first one and the rest. -/
theorem forall_kept_succ {n : ℕ} (h : evalInst B vm = (.ok (), vm₁)) :
    (∀ i < n + 1, Kept (stateAt B i vm) (stateAt B (i + 1) vm)) ↔
      Kept vm vm₁ ∧ ∀ i < n, Kept (stateAt B i vm₁) (stateAt B (i + 1) vm₁) := by
  have hsucc : ∀ i, stateAt B (i + 1) vm = stateAt B i vm₁ := fun i => by
    rw [stateAt, Function.iterate_succ_apply, h, stateAt]
  constructor
  · intro hall
    refine ⟨?_, fun i hi => ?_⟩
    · have hfirst := hall 0 (Nat.zero_lt_succ n)
      rw [hsucc] at hfirst
      exact hfirst
    · have hnext := hall (i + 1) (Nat.succ_lt_succ hi)
      rw [hsucc, hsucc] at hnext
      exact hnext
  · rintro ⟨hfirst, hrest⟩ i hi
    cases i with
    | zero =>
        rw [hsucc]
        exact hfirst
    | succ i =>
        rw [hsucc, hsucc]
        exact hrest i (Nat.lt_of_succ_lt_succ hi)

/-- **The replay of recorded steps** is faithful exactly if each of them is kept. -/
theorem replay_steps_iff (hx : vm.regs.x 0 = 0) (h : steps B k vm = (.ok ss, vm')) :
    vm' = stateAt B k vm ∧ vm'.regs.x 0 = 0 ∧
      ((∃ ws, replay B vm.regs ss = .ok (ws, vm'.regs) ∧ Replays B vm ws vm') ↔
        ∀ i < k, Kept (stateAt B i vm) (stateAt B (i + 1) vm)) := by
  induction k generalizing vm ss with
  | zero =>
      cases h
      refine ⟨rfl, hx, iff_of_true ⟨[], rfl, .nil _⟩ ?_⟩
      intro i hi
      exact absurd hi (Nat.not_lt_zero i)
  | succ k ih =>
      obtain ⟨s, vm₁, ss', hstep, hrest, rfl⟩ := steps_succ_eq_ok.mp h
      obtain ⟨heval, hx₁, w, hw, hfaithful, hkept⟩ := exists_witness hx hstep
      obtain ⟨hend, hx', hiff⟩ := ih hx₁ hrest
      refine ⟨?_, hx', ?_⟩
      · rw [hend, stateAt, stateAt, Function.iterate_succ_apply, heval]
      · rw [forall_kept_succ heval, ← hkept, ← hiff]
        constructor
        · rintro ⟨ws, hreplay, hrun⟩
          obtain ⟨w', ws', hw', hreplay', rfl⟩ := replay_cons_eq_ok.mp hreplay
          obtain rfl : w = w' := Except.ok.inj (hw.symm.trans hw')
          cases hrun with
          | cons heval' _ hrun' =>
              rw [heval] at heval'
              cases heval'
              have hregs := hrun'.regs_eq hreplay'
              rw [hregs] at hreplay'
              exact ⟨hregs, ws', hreplay', hrun'⟩
        · rintro ⟨hregs, ws, hreplay, hrun⟩
          rw [← hregs] at hreplay
          exact ⟨w :: ws, replay_cons_eq_ok.mpr ⟨w, ws, hw, hreplay, rfl⟩,
            .cons heval hfaithful hrun⟩

theorem length_replay {regs final : Regs} (h : replay B regs ss = .ok (ws, final)) :
    ws.length = ss.length := by
  induction ss generalizing regs ws with
  | nil =>
      cases h
      rfl
  | cons s ss ih =>
      obtain ⟨w, ws', -, hrest, rfl⟩ := replay_cons_eq_ok.mp h
      rw [List.length_cons, List.length_cons, ih hrest]

theorem length_steps (h : steps B k vm = (.ok ss, vm')) : ss.length = k := by
  induction k generalizing vm ss with
  | zero =>
      cases h
      rfl
  | succ k ih =>
      obtain ⟨s, vm₁, ss', -, hrest, rfl⟩ := steps_succ_eq_ok.mp h
      rw [List.length_cons, ih hrest]

/-! ## Blocks and a register that the replay clears -/

theorem kStep_eq_ok {b : Block P} :
    kStep B vm k = (.ok b, vm') ↔ b.regs = vm.regs ∧ steps B k vm = (.ok b.steps, vm') := by
  unfold kStep
  rcases steps B k vm with ⟨e | ss, vm₁⟩
  · constructor
    · intro h
      cases h
    · rintro ⟨-, h⟩
      cases h
  · constructor
    · intro h
      cases h
      exact ⟨rfl, rfl⟩
    · rintro ⟨hregs, h⟩
      cases h
      rw [← hregs]

/-- Blocks recorded one after another. -/
inductive Recorded (B : Build) (k : ℕ) : NexusVM M P → List (Block P) → NexusVM M P → Prop
  | nil (vm : NexusVM M P) : Recorded B k vm [] vm
  | cons {vm vm₁ vm' : NexusVM M P} {b : Block P} {bs : List (Block P)}
      (hblock : kStep B vm k = (.ok b, vm₁)) (hrest : Recorded B k vm₁ bs vm') :
      Recorded B k vm (b :: bs) vm'

/-- **A trace whose blocks are replayed faithfully**: the iteration over each
block starts from the registers of the block, follows the machine, and ends with
the registers from which the next block starts. -/
inductive Chained (B : Build) : NexusVM M P → List (Block P) → NexusVM M P → Prop
  | nil (vm : NexusVM M P) : Chained B vm [] vm
  | cons {vm vm₁ vm' : NexusVM M P} {b : Block P} {bs : List (Block P)} {ws : List (Witness P)}
      (hregs : b.regs = vm.regs) (hreplay : replay B b.regs b.steps = .ok (ws, vm₁.regs))
      (hrun : Replays B vm ws vm₁) (hrest : Chained B vm₁ bs vm') : Chained B vm (b :: bs) vm'

theorem recorded_of_traceLoop {k fuel : ℕ} {pow : Bool} {blocks blocks' : List (Block P)}
    (h : traceLoop B k pow fuel blocks vm = some (.ok blocks', vm')) :
    ∃ bs, blocks' = blocks ++ bs ∧ Recorded B k vm bs vm' := by
  induction fuel generalizing blocks vm with
  | zero => cases h
  | succ fuel ih =>
      rw [traceLoop] at h
      rcases hblock : kStep B vm k with ⟨e | b, vm₁⟩
      · rw [hblock] at h
        cases h
      · rw [hblock] at h
        dsimp only at h
        split at h
        · cases h
          exact ⟨[b], rfl, .cons hblock (.nil _)⟩
        · obtain ⟨bs, rfl, hrest⟩ := ih h
          exact ⟨b :: bs, List.append_cons .. |>.symm, .cons hblock hrest⟩

/-- Kept steps of two runs, one after the other. -/
theorem forall_kept_add {m n : ℕ} (h : vm₁ = stateAt B m vm) :
    (∀ i < m + n, Kept (stateAt B i vm) (stateAt B (i + 1) vm)) ↔
      (∀ i < m, Kept (stateAt B i vm) (stateAt B (i + 1) vm)) ∧
        ∀ i < n, Kept (stateAt B i vm₁) (stateAt B (i + 1) vm₁) := by
  have hadd : ∀ i, stateAt B i vm₁ = stateAt B (m + i) vm := fun i => by
    rw [h, stateAt, stateAt, stateAt, add_comm, Function.iterate_add_apply]
  constructor
  · intro hall
    refine ⟨fun i hi => hall i (by omega), fun i hi => ?_⟩
    rw [hadd, hadd]
    exact hall (m + i) (by omega)
  · rintro ⟨hfirst, hrest⟩ i hi
    by_cases him : i < m
    · exact hfirst i him
    · have hnext := hrest (i - m) (by omega)
      rwa [hadd, hadd, show m + (i - m) = i by omega,
        show m + (i - m + 1) = i + 1 by omega] at hnext

theorem Recorded.chained_iff {bs : List (Block P)} (h : Recorded B k vm bs vm')
    (hx : vm.regs.x 0 = 0) :
    Chained B vm bs vm' ↔
      ∀ i < k * bs.length, Kept (stateAt B i vm) (stateAt B (i + 1) vm) := by
  induction h with
  | nil vm =>
      refine iff_of_true (.nil vm) ?_
      intro i hi
      exact absurd hi (Nat.not_lt_zero i)
  | @cons vm vm₁ vm' b bs hblock hrest ih =>
      obtain ⟨hregs, hsteps⟩ := kStep_eq_ok.mp hblock
      obtain ⟨hend, hx₁, hiff⟩ := replay_steps_iff hx hsteps
      rw [List.length_cons, Nat.mul_succ, add_comm, forall_kept_add hend, ← hiff, ← ih hx₁]
      constructor
      · intro hchained
        cases hchained with
        | @cons _ vm₂ _ _ _ ws _ hreplay hrun hrest' =>
            have hlen := (length_replay hreplay).trans (length_steps hsteps)
            have heq : vm₂ = vm₁ := by
              rw [hrun.eq_stateAt, hlen, hend]
            rw [heq] at hreplay hrun hrest'
            rw [hregs] at hreplay
            exact ⟨⟨ws, hreplay, hrun⟩, hrest'⟩
      · rintro ⟨⟨ws, hreplay, hrun⟩, hrest'⟩
        rw [← hregs] at hreplay
        exact .cons hregs hreplay hrun hrest'

/-- **Replay is faithful** for a recorded block, and for a recorded trace with its
block boundaries, exactly if every step is kept. -/
theorem replay_faithful_iff {vm : NexusVM M P} (hx : vm.regs.x 0 = 0) (k : ℕ) :
    (∀ b vm', kStep B vm k = (.ok b, vm') →
      (Chained B vm [b] vm' ↔ ∀ i < k, Kept (stateAt B i vm) (stateAt B (i + 1) vm))) ∧
    ∀ fuel pow t vm', trace B fuel vm k pow = some (.ok t, vm') →
      (Chained B vm t.blocks vm' ↔
        ∀ i < k * t.blocks.length, Kept (stateAt B i vm) (stateAt B (i + 1) vm)) := by
  constructor
  · intro b vm' hblock
    have hiff := (Recorded.cons hblock (.nil vm')).chained_iff hx
    rwa [List.length_singleton, mul_one] at hiff
  · intro fuel pow t vm' htrace
    rw [trace, Option.map_eq_some_iff] at htrace
    obtain ⟨⟨e | blocks, vm₁⟩, hloop, heq⟩ := htrace
    · cases heq
    · cases heq
      obtain ⟨bs, rfl, hrecorded⟩ := recorded_of_traceLoop hloop
      exact hrecorded.chained_iff hx

end Replay

/-- A machine with the words at the addresses from `0` on. -/
def programMachine (words : List U32) : NexusVM (PagedMemory 7) (UncheckedMemory 7) :=
  .new 0 (words.zipIdx.foldl (fun mem w => (Memory.store mem .sw (4 * w.2) w.1).2)
    (⟨Paged.empty⟩ : PagedMemory 7)) ⟨(0, 0)⟩

/-- `addi x5, x0, 1`. -/
theorem replay_faithful_iff_addi : ∃ b vm', kStep ⟨true⟩ (programMachine [0x00100293]) 1 =
    (.ok b, vm') ∧ Chained ⟨true⟩ (programMachine [0x00100293]) [b] vm' ∧ vm'.regs.x 5 = 1 := by
  have hblock : kStep ⟨true⟩ (programMachine [0x00100293]) 1 = (.ok _, _) := rfl
  refine ⟨_, _, hblock, ?_, rfl⟩
  refine ((replay_faithful_iff rfl 1).1 _ _ hblock).mpr ?_
  intro i hi hwaits
  obtain rfl : i = 0 := Nat.lt_one_iff.mp hi
  have hinst : (stateAt ⟨true⟩ 1 (programMachine [0x00100293])).inst.inst = .alui .add 5 0 1 := rfl
  rw [zero_add, hinst] at hwaits
  rcases hwaits with ⟨rd, hrd⟩ | hunimp
  · cases hrd
  · cases hunimp

/-- `addi x5, x0, 1; ebreak x5`, where the register is in use. -/
theorem replay_clears : ∃ b vm' ws final, kStep ⟨true⟩ (programMachine [0x00100293, 0x001002f3]) 2 =
    (.ok b, vm') ∧ replay ⟨true⟩ b.regs b.steps = .ok (ws, final) ∧ vm'.regs.x 5 = 1 ∧
    final.x 5 = 0 :=
  ⟨_, _, _, _, rfl, rfl, rfl, rfl⟩

end NexusVm
