import NexusVm.Jolt.Faithful

/-!
# Jolt traces of failing guests

The tracer does the loads of a step before the step is evaluated.  What it reports of a step that
fails depends on which of the two meets the failure.
-/

namespace NexusVm

namespace Jolt

section Failing

variable {M P : Type} [Memory M P]

/-- The instruction that `trace` decodes at the program counter. -/
def fetch (vm : NexusVM M P) : Except NexusVMError Inst :=
  match Memory.load vm.mem .lw vm.regs.pc with
  | .error e => .error e
  | .ok (slice, _) => parseInst vm.regs.pc (toLeBytes slice)

/-- The machine is at `unimp`. -/
def AtUnimp (vm : NexusVM M P) : Prop := ∃ inst, fetch vm = .ok inst ∧ inst.inst = .unimp

/-- The machine is at another instruction. -/
def Executes (vm : NexusVM M P) (inst : Inst) : Prop := fetch vm = .ok inst ∧ inst.inst ≠ .unimp

/-- A step that succeeds without the Nexus instruction set. -/
def Step (B : Build) (vm vm' : NexusVM M P) : Prop :=
  (∃ inst, Executes vm inst) ∧ evalInst B vm = (.ok (), vm') ∧ .rv32Nexus ∉ vm'.instructionSets

/-- **The machines that a run reaches**, with the number of steps. -/
inductive Reaches (B : Build) (vm : NexusVM M P) : ℕ → NexusVM M P → Prop
  | zero : Reaches B vm 0 vm
  | succ {n : ℕ} {s s' : NexusVM M P} (h : Reaches B vm n s) (step : Step B s s') :
      Reaches B vm (n + 1) s'

/-- **A step that fails**: the word cannot be read or decoded, `eval_inst` rejects it, or it uses
the Nexus instruction set. -/
inductive Fails (B : Build) (vm : NexusVM M P) : Error → Prop
  | fetch {e : NexusVMError} (h : fetch vm = .error e) : Fails B vm (.vm e)
  | eval {inst : Inst} {e : NexusVMError} (h : Executes vm inst)
      (heval : (evalInst B vm).1 = .error e) : Fails B vm (.vm e)
  | nexus {inst : Inst} {vm' : NexusVM M P} (h : Executes vm inst)
      (heval : evalInst B vm = (.ok (), vm')) (hset : .rv32Nexus ∈ vm'.instructionSets) :
      Fails B vm (.unsupported inst.inst)

theorem traceLoop_succ (B : Build) (fuel : ℕ) (vm : NexusVM M P) (trace : List RVTraceRow) :
    traceLoop B (fuel + 1) vm trace = match fetch vm with
      | .error e => some (.error (.vm e))
      | .ok inst =>
          if inst.inst = .unimp then some (.ok trace)
          else match traceInst B vm inst with
            | .error e => some (.error e)
            | .ok (row, vm) => traceLoop B fuel vm (trace ++ [row]) := by
  rw [traceLoop, fetch]
  cases Memory.load vm.mem .lw vm.regs.pc with
  | error e => rfl
  | ok out => rfl

/-- A load from an address that is no multiple of its width. -/
def MisalignedLoad (vm : NexusVM M P) (i : RV32) : Prop :=
  match i with
  | .load lop _ rs1 imm => (add32 (vm.getReg rs1) imm).toNat % lop.width ≠ 0
  | _ => False

/-- A load fails exactly if it is misaligned. -/
theorem load_eq_ok_iff (mem : M) (lop : LOP) (addr : U32) :
    (∃ out, Memory.load mem lop addr = .ok out) ↔ addr.toNat % lop.width = 0 := by
  unfold Memory.load
  dsimp only
  rw [CacheLine.load_eq_flat]
  constructor
  · rintro ⟨out, hout⟩
    by_contra hne
    rw [Flat.load_misaligned hne] at hout
    cases hout
  · intro ha
    rw [Flat.load_aligned ha]
    exact ⟨_, rfl⟩

/-- The load of the tracer before the step. -/
theorem memoryState_eq_ok_iff (vm : NexusVM M P) (inst : Inst) :
    (∃ state, memoryState vm inst = .ok state) ↔ ¬ MisalignedLoad vm inst.inst := by
  unfold memoryState MisalignedLoad
  cases inst.inst with
  | load lop rd rs1 imm =>
      dsimp only
      rw [not_not, ← load_eq_ok_iff vm.mem]
      cases Memory.load vm.mem lop (add32 (vm.getReg rs1) imm) with
      | error e => simp
      | ok out => simp
  | _ => exact iff_of_true ⟨_, rfl⟩ not_false

variable {B : Build} {inst : Inst} {vm : NexusVM M P}

/-- **The tracer panics on a misaligned load**, whatever the evaluation would say. -/
theorem traceInst_misaligned (h : MisalignedLoad vm inst.inst) :
    traceInst B vm inst = .error (.vm .panic) := by
  have hstate : memoryState vm inst = .error (.vm .panic) := by
    cases hcase : memoryState vm inst with
    | ok state => exact absurd h ((memoryState_eq_ok_iff vm inst).mp ⟨state, hcase⟩)
    | error e =>
        unfold memoryState at hcase
        cases hi : inst.inst with
        | load lop rd rs1 imm =>
            rw [hi] at hcase
            dsimp only at hcase
            split at hcase
            · exact hcase.symm
            · cases hcase
        | _ =>
            rw [hi] at hcase
            cases hcase
  unfold traceInst initTraceRow
  rw [hstate]
  rfl

/-- The beginning of a row has its memory access. -/
theorem exists_initTraceRow {state : Option MemoryState} (h : memoryState vm inst = .ok state) :
    ∃ row, initTraceRow vm inst (Convert.inst inst) = .ok row ∧ row.memoryState = state := by
  unfold initTraceRow
  rw [h]
  exact ⟨_, rfl, rfl⟩

/-- A round whose load succeeds does what the evaluation says. -/
theorem traceInst_of_aligned (h : ¬ MisalignedLoad vm inst.inst) :
    ∃ row, memoryState vm inst = .ok row.memoryState ∧
      traceInst B vm inst = match evalInst B vm with
        | (.error e, _) => .error (.vm e)
        | (.ok (), vm') =>
            if .rv32Nexus ∈ vm'.instructionSets then .error (.unsupported inst.inst)
            else (updateRowPostEval vm' row (storeAddr vm inst)).map fun row => (row, vm') := by
  obtain ⟨state, hstate⟩ := (memoryState_eq_ok_iff vm inst).mpr h
  obtain ⟨row, hrow, rfl⟩ := exists_initTraceRow hstate
  refine ⟨row, hstate, ?_⟩
  unfold traceInst
  dsimp only
  rw [hrow]
  rcases evalInst B vm with ⟨e | u, vm'⟩
  · rfl
  · dsimp only [bind, Except.bind, pure, Except.pure]
    split_ifs with hset
    · rfl
    · cases updateRowPostEval vm' row (storeAddr vm inst) <;> rfl

variable {vm vm' : NexusVM M P}

/-- A store that was evaluated had an aligned address. -/
theorem aligned_of_evalInst {lop : LOP} {addr : U32} (hfetch : fetch vm = .ok inst)
    (heval : evalInst B vm = (.ok (), vm')) (haddr : storeAddr vm inst = some (lop, addr)) :
    addr.toNat % lop.width = 0 := by
  obtain ⟨word, proof, inst', next, vm₁, hread, hparse, hexec, -⟩ := stages_of_evalInst heval
  have hload : Memory.load vm.mem .lw vm.regs.pc = .ok (word, proof) := hread
  have hinst : inst' = inst := by
    unfold fetch at hfetch
    rw [hload] at hfetch
    exact Except.ok.inj (hparse.symm.trans hfetch)
  subst hinst
  unfold storeAddr at haddr
  unfold execInst at hexec
  cases hi : inst'.inst with
  | store sop rs1 rs2 imm =>
      have hbegin : (beginInst vm inst' proof).inst.inst = .store sop rs1 rs2 imm := hi
      rw [hi] at haddr
      rw [hbegin] at hexec
      dsimp only at haddr hexec
      cases haddr
      rw [← load_eq_ok_iff vm.mem]
      split at hexec
      · cases hexec
      · rename_i out proof' hstore
        exact ⟨_, hstore⟩
  | _ =>
      rw [hi] at haddr
      cases haddr

/-- **After a step that succeeds the row is completed.** -/
theorem exists_updateRow {row : RVTraceRow} (hfetch : fetch vm = .ok inst)
    (heval : evalInst B vm = (.ok (), vm')) (hstate : memoryState vm inst = .ok row.memoryState) :
    ∃ row', updateRowPostEval vm' row (storeAddr vm inst) = .ok row' := by
  unfold updateRowPostEval
  cases haddr : storeAddr vm inst with
  | none => exact ⟨_, rfl⟩
  | some access =>
      obtain ⟨lop, addr⟩ := access
      obtain ⟨out, hload⟩ :=
        (load_eq_ok_iff vm'.mem lop addr).mpr (aligned_of_evalInst hfetch heval haddr)
      -- the row of a store has a write
      have hwrite : ∃ address value, row.memoryState = some (.write address value) := by
        unfold storeAddr at haddr
        unfold memoryState at hstate
        cases hi : inst.inst with
        | store sop rs1 rs2 imm =>
            rw [hi] at hstate
            exact ⟨_, _, (Except.ok.inj hstate).symm⟩
        | _ =>
            rw [hi] at haddr
            cases haddr
      obtain ⟨address, value, hwrite⟩ := hwrite
      dsimp only
      rw [hload]
      cases row.instruction.rd with
      | none =>
          dsimp only
          rw [hwrite]
          exact ⟨_, rfl⟩
      | some rd =>
          dsimp only
          rw [hwrite]
          exact ⟨_, rfl⟩

/-! ## What is reported -/

/-- **A step that the tracer reports as it is**: no misaligned load, and the evaluation does not
itself panic. -/
structure Tolerated (B : Build) (vm : NexusVM M P) : Prop where
  aligned : ∀ inst, Executes vm inst → ¬ MisalignedLoad vm inst.inst
  returns : (evalInst B vm).1 ≠ .error .panic

/-- **A tracer that reports failing guests**: a failing step gives its error, nothing panics, and
rows are returned only for a guest that has come to its end. -/
structure Reports (B : Build) (vm : NexusVM M P) : Prop where
  /-- The error of a failing step is returned at that step. -/
  fails : ∀ n s err, Reaches B vm n s → Fails B s err →
    trace B n vm = none ∧ trace B (n + 1) vm = some (.error err)
  no_panic : ∀ fuel, trace B fuel vm ≠ some (.error (.vm .panic))
  ok : ∀ fuel rows, trace B fuel vm = some (.ok rows) → ∃ s, Reaches B vm rows.length s ∧ AtUnimp s

/-- A round of a step that succeeds. -/
theorem traceInst_of_step (h : Executes vm inst) (heval : evalInst B vm = (.ok (), vm'))
    (hset : .rv32Nexus ∉ vm'.instructionSets) (haligned : ¬ MisalignedLoad vm inst.inst) :
    ∃ row, traceInst B vm inst = .ok (row, vm') := by
  obtain ⟨row, hstate, hrun⟩ := traceInst_of_aligned (B := B) haligned
  obtain ⟨row', hrow⟩ := exists_updateRow h.1 heval hstate
  rw [heval] at hrun
  dsimp only at hrun
  rw [if_neg hset, hrow] at hrun
  exact ⟨row', hrun⟩

/-- **The tracer follows a run** through steps without misaligned loads. -/
theorem traceLoop_of_reaches {vm s : NexusVM M P} {n : ℕ} (h : Reaches B vm n s)
    (haligned : ∀ m s', m < n → Reaches B vm m s' → ∀ inst, Executes s' inst → ¬ MisalignedLoad s' inst.inst) :
    ∃ rows, rows.length = n ∧
      ∀ fuel, traceLoop B (n + fuel) vm [] = traceLoop B fuel s rows := by
  induction h with
  | zero => exact ⟨[], rfl, fun fuel => by rw [Nat.zero_add]⟩
  | @succ n s s' h step ih =>
      obtain ⟨⟨inst, hexec⟩, heval, hset⟩ := step
      obtain ⟨rows, hlen, hloop⟩ := ih fun m s' hm => haligned m s' (Nat.lt_succ_of_lt hm)
      obtain ⟨row, hrow⟩ := traceInst_of_step hexec heval hset
        (haligned n s (Nat.lt_succ_self n) h inst hexec)
      refine ⟨rows ++ [row], by rw [List.length_append, hlen]; rfl, ?_⟩
      intro fuel
      rw [Nat.add_right_comm, Nat.add_assoc, hloop, traceLoop_succ, hexec.1]
      dsimp only
      rw [if_neg hexec.2, hrow]

/-- **What a run of the tracer ends with**, from a machine that it has reached. -/
theorem traceLoop_outcome
    (haligned : ∀ n s, Reaches B vm n s → ∀ inst, Executes s inst → ¬ MisalignedLoad s inst.inst)
    {fuel : ℕ} {s : NexusVM M P} {rows : List RVTraceRow} (h : Reaches B vm rows.length s)
    {out : Except Error (List RVTraceRow)} (hrun : traceLoop B fuel s rows = some out) :
    (∃ n s' err, Reaches B vm n s' ∧ Fails B s' err ∧ out = .error err) ∨
      ∃ rows' s', out = .ok rows' ∧ Reaches B vm rows'.length s' ∧ AtUnimp s' := by
  induction fuel generalizing s rows with
  | zero => cases hrun
  | succ fuel ih =>
      rw [traceLoop_succ] at hrun
      cases hfetch : fetch s with
      | error e =>
          rw [hfetch] at hrun
          cases hrun
          exact Or.inl ⟨_, s, _, h, .fetch hfetch, rfl⟩
      | ok inst =>
          rw [hfetch] at hrun
          dsimp only at hrun
          by_cases hunimp : inst.inst = .unimp
          · rw [if_pos hunimp] at hrun
            cases hrun
            exact Or.inr ⟨rows, s, rfl, h, inst, hfetch, hunimp⟩
          have hexec : Executes s inst := ⟨hfetch, hunimp⟩
          have haligned' := haligned _ s h inst hexec
          rw [if_neg hunimp] at hrun
          rcases heval : evalInst B s with ⟨e | u, s'⟩
          · obtain ⟨row, -, htrace⟩ := traceInst_of_aligned (B := B) haligned'
            rw [heval] at htrace
            rw [htrace] at hrun
            cases hrun
            exact Or.inl ⟨_, s, _, h, .eval hexec (congrArg Prod.fst heval), rfl⟩
          by_cases hset : .rv32Nexus ∈ s'.instructionSets
          · obtain ⟨row, -, htrace⟩ := traceInst_of_aligned (B := B) haligned'
            rw [heval] at htrace
            dsimp only at htrace
            rw [if_pos hset] at htrace
            rw [htrace] at hrun
            cases hrun
            exact Or.inl ⟨_, s, _, h, .nexus hexec heval hset, rfl⟩
          · obtain ⟨row, hrow⟩ := traceInst_of_step hexec heval hset haligned'
            rw [hrow] at hrun
            apply ih _ hrun
            rw [List.length_append]
            exact .succ h ⟨⟨inst, hexec⟩, heval, hset⟩

/-- Reading and decoding a word never panics. -/
theorem fetch_ne_panic (vm : NexusVM M P) : fetch vm ≠ .error .panic := by
  unfold fetch
  intro h
  cases hload : Memory.load vm.mem .lw vm.regs.pc with
  | error e =>
      rw [hload] at h
      obtain rfl := Except.error.inj h
      unfold Memory.load at hload
      dsimp only at hload
      rw [CacheLine.load_eq_flat] at hload
      by_cases ha : vm.regs.pc.toNat % LOP.lw.width = 0
      · rw [Flat.load_aligned ha] at hload
        cases hload
      · rw [Flat.load_misaligned ha] at hload
        cases hload
  | ok out =>
      rw [hload] at h
      unfold parseInst toLeBytes at h
      dsimp only at h
      split_ifs at h
      · cases h
      · cases h
      · split at h
        · cases h
        · cases h

/-- A step can panic only where it evaluates an instruction. -/
theorem exists_executes_of_panic (h : (evalInst B vm).1 = .error .panic) :
    ∃ inst, Executes vm inst := by
  cases hfetch : fetch vm with
  | error e =>
      have hpanic := fetch_ne_panic vm
      unfold fetch at hfetch hpanic
      unfold evalInst at h
      split at h
      · cases h
      · have hread : Memory.readInst vm.mem vm.regs.pc = Memory.load vm.mem .lw vm.regs.pc := rfl
        rw [hread] at h
        cases hload : Memory.load vm.mem .lw vm.regs.pc with
        | error e' =>
            rw [hload] at h hpanic
            exact absurd (congrArg Except.error (Except.error.inj h)) hpanic
        | ok out =>
            rw [hload] at h hpanic hfetch
            dsimp only at h hpanic hfetch
            rw [hfetch] at h hpanic
            exact absurd (congrArg Except.error (Except.error.inj h)) hpanic
  | ok inst =>
      refine ⟨inst, hfetch, fun hunimp => ?_⟩
      unfold fetch at hfetch
      unfold evalInst at h
      split at h
      · cases h
      · have hread : Memory.readInst vm.mem vm.regs.pc = Memory.load vm.mem .lw vm.regs.pc := rfl
        rw [hread] at h
        cases hload : Memory.load vm.mem .lw vm.regs.pc with
        | error e =>
            rw [hload] at hfetch
            cases hfetch
        | ok out =>
            rw [hload] at h hfetch
            dsimp only at h hfetch
            rw [hfetch] at h
            dsimp only at h
            have hexec : execInst B (beginInst vm inst out.2) =
                (.ok ⟨0, inst.pc⟩, beginInst vm inst out.2) := by
              unfold execInst
              rw [show (beginInst vm inst out.2).inst = inst from rfl, hunimp]
            rw [hexec] at h
            cases h

theorem reports_of_tolerated (h : ∀ n s, Reaches B vm n s → Tolerated B s) : Reports B vm := by
  have haligned : ∀ n s, Reaches B vm n s → ∀ inst, Executes s inst →
      ¬ MisalignedLoad s inst.inst := fun n s hs => (h n s hs).aligned
  have hzero : Reaches B vm ([] : List RVTraceRow).length vm := .zero
  constructor
  · intro n s err hs hfails
    obtain ⟨rows, -, hloop⟩ := traceLoop_of_reaches hs fun m s' _ => haligned m s'
    refine ⟨hloop 0, (hloop 1).trans ?_⟩
    rw [traceLoop_succ]
    cases hfails with
    | fetch hfetch => rw [hfetch]
    | eval hexec heval =>
        obtain ⟨row, -, htrace⟩ := traceInst_of_aligned (B := B) (haligned n s hs _ hexec)
        rcases hstep : evalInst B s with ⟨e | u, s'⟩
        · rw [hstep] at heval htrace
          cases heval
          rw [hexec.1]
          dsimp only
          rw [if_neg hexec.2, htrace]
        · rw [hstep] at heval
          cases heval
    | nexus hexec heval hset =>
        obtain ⟨row, -, htrace⟩ := traceInst_of_aligned (B := B) (haligned n s hs _ hexec)
        rw [heval] at htrace
        dsimp only at htrace
        rw [if_pos hset] at htrace
        rw [hexec.1]
        dsimp only
        rw [if_neg hexec.2, htrace]
  · intro fuel hpanic
    rcases traceLoop_outcome haligned hzero hpanic with
      ⟨n, s, err, hs, hfails, herr⟩ | ⟨rows, s, hok, -⟩
    · obtain rfl := Except.error.inj herr
      cases hfails with
      | fetch hfetch => exact fetch_ne_panic s hfetch
      | eval hexec heval => exact (h n s hs).returns heval
    · cases hok
  · intro fuel rows hok
    rcases traceLoop_outcome haligned hzero hok with
      ⟨n, s, err, -, -, herr⟩ | ⟨rows', s, hrows, hs, hunimp⟩
    · cases herr
    · obtain rfl := Except.ok.inj hrows
      exact ⟨s, hs, hunimp⟩

/-- **Failing guests are reported** with their error and without a panic, in every run and by every
memory, exactly if no reached step loads from a misaligned address, which the tracer does before
`eval_inst` can reject it, and `eval_inst` itself never panics. -/
theorem trace_reports_iff :
    Reports B vm ↔ ∀ n s, Reaches B vm n s → Tolerated B s := by
  constructor
  · intro h n
    induction n using Nat.strong_induction_on with
    | _ n ih =>
        intro s hs
        obtain ⟨rows, -, hloop⟩ :=
          traceLoop_of_reaches hs fun m s' hm hs' => (ih m hm s' hs').aligned
        constructor
        · intro inst hexec hmis
          apply h.no_panic (n + 1)
          refine (hloop 1).trans ?_
          rw [traceLoop_succ, hexec.1]
          dsimp only
          rw [if_neg hexec.2, traceInst_misaligned hmis]
        · intro hpanic
          obtain ⟨inst, hexec⟩ := exists_executes_of_panic hpanic
          exact h.no_panic (n + 1) (h.fails n s _ hs (.eval hexec hpanic)).2
  · exact reports_of_tolerated

end Failing

/-- `lw x5, 1(x0)`: the load is misaligned, and `eval_inst` rejects it. -/
theorem trace_misaligned_load : ¬ ∀ words : List U32, Reports ⟨true⟩ (programMachine words) := by
  intro h
  apply (h [0x00102283]).no_panic 1
  decide +kernel

end Jolt

end NexusVm
