import NexusVm.Replay
import Mathlib.Tactic.IntervalCases

/-!
# The shape of a trace

The machine stops at `unimp`, which jumps to its own address; a trace goes on recording it
up to the end of a block, and to a number of blocks that fits a complete binary tree.

The shape is an equivalence for every machine, block size and limit, in builds with overflow checks
and without.  It is about runs that reach `unimp`; for others the recording may not end, and
nothing is claimed.
-/

namespace NexusVm

section Stages

variable {M P : Type} [Memory M P]

/-- The counters that a step changes at its end only. -/
structure Counted (vm vm' : NexusVM M P) : Prop where
  traceLen : vm'.traceLen = vm.traceLen
  maxTraceLen : vm'.maxTraceLen = vm.maxTraceLen

variable {vm vm' : NexusVM M P}

variable {B : Build}

omit [Memory M P] in
theorem counted_of_handleProfileCycles {res : Except NexusVMError Unit}
    (h : handleProfileCycles B vm = (res, vm')) :
    Counted vm vm' := by
  unfold handleProfileCycles startProfile endProfile at h
  dsimp only at h
  repeat' split at h
  all_goals
    cases h
    exact ⟨rfl, rfl⟩

theorem counted_of_execInst {next : Next} (h : execInst B vm = (.ok next, vm')) :
    Counted vm vm' := by
  unfold execInst at h
  cases hi : vm.inst.inst with
  | load lop rd rs1 imm =>
      rw [hi] at h
      dsimp only at h
      split at h
      · cases h
      · cases h
        exact ⟨rfl, rfl⟩
  | store sop rs1 rs2 imm =>
      rw [hi] at h
      dsimp only at h
      split at h
      · cases h
      · split at h
        · cases h
        · cases h
          exact ⟨rfl, rfl⟩
  | ecall rd =>
      rw [hi] at h
      dsimp only at h
      split at h
      · cases h
      · split at h
        · split at h
          · cases h
          · rename_i hprofile
            cases h
            have hcounted := counted_of_handleProfileCycles hprofile
            exact ⟨hcounted.traceLen, hcounted.maxTraceLen⟩
        · cases h
          exact ⟨rfl, rfl⟩
  | _ =>
      rw [hi] at h
      cases h
      exact ⟨rfl, rfl⟩

/-- The instruction at the program counter. -/
def Fetches (vm : NexusVM M P) (inst : Inst) : Prop :=
  ∃ (word : U32) (proof : P), Memory.readInst vm.mem vm.regs.pc = .ok (word, proof) ∧
    parseInst vm.regs.pc (toLeBytes word) = .ok inst

/-- Another step is within the limit. -/
def Within (vm : NexusVM M P) : Prop := ∀ limit, vm.maxTraceLen = some limit → vm.traceLen < limit

omit [Memory M P] in
theorem within_iff (vm : NexusVM M P) :
    Within vm ↔ ¬ (vm.maxTraceLen.any fun limit => decide (limit ≤ vm.traceLen)) = true := by
  unfold Within
  cases vm.maxTraceLen with
  | none => exact iff_of_true nofun Bool.false_ne_true
  | some limit => simp

/-- What every successful step has done. -/
structure Ran (vm vm' : NexusVM M P) : Prop where
  within : Within vm
  traceLen : vm'.traceLen = vm.traceLen + 1
  maxTraceLen : vm'.maxTraceLen = vm.maxTraceLen
  fetches : Fetches vm vm'.inst
  pc : vm'.inst.pc = vm.regs.pc
  unimp : vm'.inst.inst = .unimp → vm'.mem = vm.mem ∧ vm'.regs.x = vm.regs.x ∧
    vm'.regs.pc = if vm.regs.pc = 0 then 4 else vm.regs.pc

omit [Memory M P] in
theorem finishInst_frame (vm : NexusVM M P) (next : Next) :
    (finishInst vm next).inst = vm.inst ∧ (finishInst vm next).mem = vm.mem ∧
      (finishInst vm next).maxTraceLen = vm.maxTraceLen := by
  obtain ⟨regs, steps, cycles, hfinish⟩ := finishInst_eq vm next
  rw [hfinish]
  exact ⟨rfl, rfl, rfl⟩

theorem ran_of_evalInst (h : evalInst B vm = (.ok (), vm')) :
    Ran vm vm' := by
  have hwithin : Within vm := by
    rw [within_iff]
    intro hlimit
    rw [evalInst, if_pos hlimit] at h
    cases h
  obtain ⟨word, proof, inst, next, vm₁, hread, hparse, hexec, rfl⟩ := stages_of_evalInst h
  obtain ⟨hpc, hlen, -⟩ := parseInst_eq_ok hparse
  have hframed := framed_of_execInst hexec
  have hcounted := counted_of_execInst hexec
  obtain ⟨hinst, hmem, hmax⟩ := finishInst_frame vm₁ next
  have hinst' : (finishInst vm₁ next).inst = inst := hinst.trans hframed.inst
  constructor
  · exact hwithin
  · exact congrArg (· + 1) hcounted.traceLen
  · exact hmax.trans hcounted.maxTraceLen
  · rw [hinst']
    exact ⟨word, proof, hread, hparse⟩
  · rw [hinst', hpc]
  · intro hunimp
    rw [hinst'] at hunimp
    have hbegin : (beginInst vm inst proof).inst.inst = .unimp := hunimp
    rw [execInst, hbegin] at hexec
    cases hexec
    refine ⟨hmem, rfl, ?_⟩
    show (if inst.pc = 0 then add32 inst.pc inst.len else inst.pc) = _
    rw [hpc, hlen]
    split_ifs with h0
    · rw [h0]
      rfl
    · rfl

/-- A machine at an `unimp` that is not at address `0`. -/
structure Parked (vm : NexusVM M P) (inst : Inst) : Prop where
  fetches : Fetches vm inst
  unimp : inst.inst = .unimp
  pc : vm.regs.pc ≠ 0

/-- **Such a machine stays where it is.** -/
theorem Parked.step {vm : NexusVM M P} {inst : Inst} (h : Parked vm inst) (hwithin : Within vm)
    (B : Build) : ∃ vm', evalInst B vm = (.ok (), vm') ∧ vm'.inst = inst ∧ vm'.regs = vm.regs ∧
      vm'.mem = vm.mem := by
  obtain ⟨word, proof, hread, hparse⟩ := h.fetches
  rw [within_iff] at hwithin
  have hbegin : (beginInst vm inst proof).inst.inst = .unimp := h.unimp
  have hexec : execInst B (beginInst vm inst proof) =
      (.ok ⟨0, inst.pc⟩, beginInst vm inst proof) := by
    rw [execInst, hbegin]
    rfl
  obtain ⟨hpc, -, -⟩ := parseInst_eq_ok hparse
  refine ⟨finishInst (beginInst vm inst proof) ⟨0, inst.pc⟩, ?_, rfl, ?_, rfl⟩
  · rw [evalInst, if_neg hwithin, hread]
    dsimp only
    rw [hparse]
    dsimp only
    rw [hexec]
  · show (⟨if inst.pc = 0 then _ else inst.pc, vm.regs.x⟩ : Regs) = vm.regs
    rw [hpc, if_neg h.pc]

end Stages

section Runs

variable {M P : Type} [Memory M P] {B : Build} {vm : NexusVM M P}

/-! ## Runs without errors and padding -/

/-- The first `n` steps succeed. -/
def RunsOk (B : Build) (vm : NexusVM M P) (n : ℕ) : Prop :=
  ∀ i < n, evalInst B (stateAt B i vm) = (.ok (), stateAt B (i + 1) vm)

theorem stateAt_succ (B : Build) (n : ℕ) (vm : NexusVM M P) :
    stateAt B (n + 1) vm = (evalInst B (stateAt B n vm)).2 := by
  rw [stateAt, Function.iterate_succ_apply', stateAt]

theorem stateAt_add (B : Build) (m n : ℕ) (vm : NexusVM M P) :
    stateAt B (m + n) vm = stateAt B n (stateAt B m vm) := by
  rw [stateAt, add_comm, Function.iterate_add_apply, stateAt, stateAt]

variable {m n : ℕ}

theorem RunsOk.mono (h : RunsOk B vm n) (hle : m ≤ n) : RunsOk B vm m :=
  fun i hi => h i (hi.trans_le hle)

variable {n : ℕ}

theorem RunsOk.counters (h : RunsOk B vm n) :
    (stateAt B n vm).traceLen = vm.traceLen + n ∧
      (stateAt B n vm).maxTraceLen = vm.maxTraceLen := by
  induction n with
  | zero => exact ⟨rfl, rfl⟩
  | succ n ih =>
      obtain ⟨hlen, hmax⟩ := ih (h.mono (Nat.le_succ n))
      have hran := ran_of_evalInst (h n (Nat.lt_succ_self n))
      exact ⟨by rw [hran.traceLen, hlen, Nat.add_assoc], hran.maxTraceLen.trans hmax⟩

/-- The addresses after the program counters of the first `n` steps are in range, where the
build checks for overflow. -/
def PcsFit (B : Build) (vm : NexusVM M P) (n : ℕ) : Prop :=
  B.overflowChecks = true → ∀ i < n, (stateAt B i vm).regs.pc.toNat + 4 < 2 ^ 32

theorem add_four_eq_ok {pc : U32} :
    (∃ pc4, B.add pc 4 = .ok pc4) ↔ (B.overflowChecks = true → pc.toNat + 4 < 2 ^ 32) := by
  have hfour : (4 : U32).toNat = 4 := rfl
  unfold Build.add
  rw [hfour]
  cases B.overflowChecks with
  | false => exact iff_of_true ⟨_, rfl⟩ nofun
  | true =>
      rw [Bool.true_and]
      by_cases hlt : pc.toNat + 4 < 2 ^ 32
      · rw [decide_eq_false (by omega)]
        exact iff_of_true ⟨_, rfl⟩ fun _ => hlt
      · rw [decide_eq_true (by omega)]
        refine iff_of_false ?_ fun h => hlt (h rfl)
        rintro ⟨pc4, h⟩
        cases h

variable {vm' : NexusVM M P}

/-- A step is recorded if it succeeds, and the address after it is in range. -/
theorem step_eq_ok :
    (∃ s, step B vm = (.ok s, vm')) ↔ evalInst B vm = (.ok (), vm') ∧
      (B.overflowChecks = true → vm.regs.pc.toNat + 4 < 2 ^ 32) := by
  rw [← add_four_eq_ok]
  unfold step
  dsimp only
  rcases evalInst B vm with ⟨e | u, vm₁⟩
  · constructor
    · rintro ⟨s, h⟩
      cases h
    · rintro ⟨h, -⟩
      cases h
  · dsimp only
    cases B.add vm.regs.pc 4 with
    | error e =>
        constructor
        · rintro ⟨s, h⟩
          cases h
        · rintro ⟨-, pc4, h⟩
          cases h
    | ok pc4 =>
        constructor
        · rintro ⟨s, h⟩
          cases h
          exact ⟨rfl, _, rfl⟩
        · rintro ⟨h, -⟩
          cases h
          exact ⟨_, rfl⟩

/-- The word of a recorded step. -/
theorem inst_of_step {s : Step P} (h : step B vm = (.ok s, vm')) :
    s.inst = vm'.inst.word :=
  (records_of_step h).2.inst

/-- **Recorded steps** are those of a run without errors. -/
theorem steps_eq_ok :
    (∃ ss, steps B n vm = (.ok ss, vm')) ↔
      RunsOk B vm n ∧ PcsFit B vm n ∧ vm' = stateAt B n vm := by
  induction n generalizing vm with
  | zero =>
      constructor
      · rintro ⟨ss, h⟩
        cases h
        exact ⟨fun i hi => absurd hi (Nat.not_lt_zero i),
          fun _ i hi => absurd hi (Nat.not_lt_zero i),
          rfl⟩
      · rintro ⟨-, -, rfl⟩
        exact ⟨[], rfl⟩
  | succ n ih =>
      have hnext : ∀ i, stateAt B (i + 1) vm = stateAt B i (stateAt B 1 vm) := fun i => by
        rw [Nat.add_comm, stateAt_add]
      constructor
      · rintro ⟨ss, h⟩
        obtain ⟨s, vm₁, ss', hstep, hrest, -⟩ := steps_succ_eq_ok.mp h
        obtain ⟨heval, hpc⟩ := step_eq_ok.mp ⟨s, hstep⟩
        have hone : stateAt B 1 vm = vm₁ := congrArg Prod.snd heval
        obtain ⟨hruns, hfit, rfl⟩ := ih.mp ⟨ss', hrest⟩
        refine ⟨?_, ?_, ?_⟩
        · intro i hi
          cases i with
          | zero =>
              rw [hnext, hone]
              exact heval
          | succ i =>
              rw [hnext (i + 1), hnext i, hone]
              exact hruns i (Nat.lt_of_succ_lt_succ hi)
        · intro hchecks i hi
          cases i with
          | zero => exact hpc hchecks
          | succ i =>
              rw [hnext i, hone]
              exact hfit hchecks i (Nat.lt_of_succ_lt_succ hi)
        · rw [hnext n, hone]
      · rintro ⟨hruns, hfit, rfl⟩
        have heval := hruns 0 (Nat.zero_lt_succ n)
        obtain ⟨s, hstep⟩ := step_eq_ok.mpr
          ⟨heval, fun hchecks => hfit hchecks 0 (Nat.zero_lt_succ n)⟩
        obtain ⟨ss', hrest⟩ : ∃ ss', steps B n (stateAt B 1 vm) = (.ok ss', stateAt B (n + 1) vm) :=
          ih.mpr ⟨fun i hi => by
              rw [← hnext, ← hnext]
              exact hruns (i + 1) (Nat.succ_lt_succ hi),
            fun hchecks i hi => by
              rw [← hnext]
              exact hfit hchecks (i + 1) (Nat.succ_lt_succ hi),
            hnext n⟩
        exact ⟨s :: ss', steps_succ_eq_ok.mpr ⟨s, _, ss', hstep, hrest, rfl⟩⟩

/-- The words of recorded steps. -/
theorem inst_of_steps {ss : List (Step P)} (h : steps B n vm = (.ok ss, vm')) {i : ℕ} (hi : i < n) :
    ∃ s, ss[i]? = some s ∧ s.inst = (stateAt B (i + 1) vm).inst.word := by
  induction n generalizing vm ss i with
  | zero => exact absurd hi (Nat.not_lt_zero i)
  | succ n ih =>
      obtain ⟨s, vm₁, ss', hstep, hrest, rfl⟩ := steps_succ_eq_ok.mp h
      obtain ⟨heval, -⟩ := step_eq_ok.mp ⟨s, hstep⟩
      have hone : stateAt B 1 vm = vm₁ := congrArg Prod.snd heval
      cases i with
      | zero =>
          refine ⟨s, rfl, ?_⟩
          rw [inst_of_step hstep, Nat.zero_add, hone]
      | succ i =>
          obtain ⟨s', hget, hinst⟩ := ih hrest (Nat.lt_of_succ_lt_succ hi)
          refine ⟨s', hget, ?_⟩
          rw [hinst, ← hone, ← stateAt_add, Nat.add_comm 1 (i + 1)]

theorem steps_append {vm₁ vm₂ : NexusVM M P} {ss ss' : List (Step P)}
    (h : steps B m vm = (.ok ss, vm₁)) (h' : steps B n vm₁ = (.ok ss', vm₂)) :
    steps B (m + n) vm = (.ok (ss ++ ss'), vm₂) := by
  induction m generalizing vm ss with
  | zero =>
      cases h
      rw [Nat.zero_add, List.nil_append]
      exact h'
  | succ m ih =>
      obtain ⟨s, vm₃, ss₃, hstep, hrest, rfl⟩ := steps_succ_eq_ok.mp h
      rw [Nat.succ_add, List.cons_append]
      exact steps_succ_eq_ok.mpr ⟨s, vm₃, ss₃ ++ ss', hstep, ih hrest, rfl⟩

/-- Recorded blocks are one run. -/
theorem Recorded.steps {k : ℕ} {vm vm' : NexusVM M P} {bs : List (Block P)}
    (h : Recorded B k vm bs vm') :
    NexusVm.steps B (k * bs.length) vm = (.ok (bs.flatMap Block.steps), vm') ∧
      ∀ b ∈ bs, b.steps.length = k := by
  induction h with
  | nil vm => exact ⟨rfl, nofun⟩
  | cons hblock _ ih =>
      obtain ⟨-, hsteps⟩ := kStep_eq_ok.mp hblock
      refine ⟨?_, List.forall_mem_cons.mpr ⟨length_steps hsteps, ih.2⟩⟩
      rw [List.length_cons, Nat.mul_succ, Nat.add_comm, List.flatMap_cons]
      exact steps_append hsteps ih.1

/-- **The machine executes its first `unimp` as its `n`-th instruction.** -/
structure FirstUnimp (B : Build) (vm : NexusVM M P) (n : ℕ) : Prop where
  pos : 0 < n
  runs : RunsOk B vm n
  unimp : (stateAt B n vm).inst.inst = .unimp
  first : ∀ i, 0 < i → i < n → (stateAt B i vm).inst.inst ≠ .unimp

/-- Nothing but the counters has changed. -/
structure Idle (vm vm' : NexusVM M P) : Prop where
  inst : vm'.inst = vm.inst
  regs : vm'.regs = vm.regs
  mem : vm'.mem = vm.mem

/-- **When a trace can go on** to `N` steps after the `n`-th is `unimp`: nothing overflows on the
way, the limit allows for the padding, and what follows `unimp` is `unimp` again. -/
structure Extends (B : Build) (vm : NexusVM M P) (n N : ℕ) : Prop where
  pcs : PcsFit B vm n
  limit : ∀ limit, vm.maxTraceLen = some limit → vm.traceLen + N ≤ limit
  unimp : n < N → (stateAt B n vm).inst.pc ≠ 0

/-- The step that executes `unimp`. -/
theorem FirstUnimp.ran (h : FirstUnimp B vm n) :
    Ran (stateAt B (n - 1) vm) (stateAt B n vm) := by
  have hpos := h.pos
  have hran := ran_of_evalInst (h.runs (n - 1) (by omega))
  rwa [Nat.sub_add_cancel hpos] at hran

/-- The steps after `unimp` repeat it, as far as the limit allows. -/
theorem FirstUnimp.idle (h : FirstUnimp B vm n) (hpc : (stateAt B n vm).inst.pc ≠ 0) (j : ℕ)
    (hlimit : ∀ limit, vm.maxTraceLen = some limit → vm.traceLen + (n + j) ≤ limit) :
    RunsOk B vm (n + j) ∧ Idle (stateAt B n vm) (stateAt B (n + j) vm) := by
  induction j with
  | zero => exact ⟨h.runs, rfl, rfl, rfl⟩
  | succ j ih =>
      obtain ⟨hruns, hidle⟩ := ih fun limit hmax => (by
        have hle := hlimit limit hmax
        omega)
      have hran := h.ran
      obtain ⟨hmem, hx, hnext⟩ := hran.unimp h.unimp
      have hpc' : (stateAt B (n - 1) vm).regs.pc ≠ 0 := by
        rw [← hran.pc]
        exact hpc
      rw [if_neg hpc'] at hnext
      have hparked : Parked (stateAt B (n + j) vm) (stateAt B n vm).inst := by
        constructor
        · obtain ⟨word, proof, hread, hparse⟩ := hran.fetches
          refine ⟨word, proof, ?_, ?_⟩
          · rw [hidle.mem, hidle.regs, hmem, hnext]
            exact hread
          · rw [hidle.regs, hnext]
            exact hparse
        · exact h.unimp
        · rw [hidle.regs, hnext]
          exact hpc'
      have hwithin : Within (stateAt B (n + j) vm) := by
        intro limit hmax
        obtain ⟨hlen, hmax'⟩ := hruns.counters
        have hle := hlimit limit (hmax'.symm.trans hmax)
        omega
      obtain ⟨vm', heval, hinst, hregs, hmem'⟩ := hparked.step hwithin B
      have hstate : stateAt B (n + j + 1) vm = vm' := by
        rw [stateAt_succ, heval]
      rw [← Nat.add_assoc]
      constructor
      · intro i hi
        by_cases hlt : i < n + j
        · exact hruns i hlt
        · obtain rfl : i = n + j := by omega
          rw [hstate]
          exact heval
      · rw [hstate]
        exact ⟨hinst, hregs.trans hidle.regs, hmem'.trans hidle.mem⟩

/-- A run that can go on does so. -/
theorem Extends.runs {n N : ℕ} (h : Extends B vm n N) (hn : FirstUnimp B vm n) (hle : n ≤ N) :
    RunsOk B vm N ∧ PcsFit B vm N ∧ ∀ i, n ≤ i → i ≤ N →
      Idle (stateAt B n vm) (stateAt B i vm) := by
  rcases Nat.eq_or_lt_of_le hle with rfl | hlt
  · refine ⟨hn.runs, h.pcs, fun i hge hle => ?_⟩
    obtain rfl := Nat.le_antisymm hge hle
    exact ⟨rfl, rfl, rfl⟩
  · have hpc := h.unimp hlt
    have hidle : ∀ i, n ≤ i → i ≤ N → RunsOk B vm i ∧ Idle (stateAt B n vm) (stateAt B i vm) := by
      intro i hge hle
      have hrun := hn.idle hpc (i - n) fun limit hmax => (by
        have hN := h.limit limit hmax
        omega)
      rwa [Nat.add_sub_cancel' hge] at hrun
    refine ⟨(hidle N hle le_rfl).1, fun hchecks i hi => ?_, fun i hge hle => (hidle i hge hle).2⟩
    by_cases hin : i < n
    · exact h.pcs hchecks i hin
    · have hran := hn.ran
      have hpos := hn.pos
      have hpc' : (stateAt B (n - 1) vm).regs.pc ≠ 0 := by
        rw [← hran.pc]
        exact hpc
      obtain ⟨-, -, hnext⟩ := hran.unimp hn.unimp
      rw [if_neg hpc'] at hnext
      rw [(hidle i (by omega) hi.le).2.regs, hnext]
      exact h.pcs hchecks (n - 1) (by omega)

/-! ## The number of blocks, the loop, the shape and short programs -/

/-- **The number of blocks of a trace**: as many as the steps need; and for the tree the
least number from there on that is one less than a power of two. -/
def IsBlockCount (k n : ℕ) (pow : Bool) (count : ℕ) : Prop :=
  match pow with
  | false => count = (n + k - 1) / k
  | true => IsLeast {c | (n + k - 1) / k ≤ c ∧ ∃ m, c + 1 = 2 ^ m} count

theorem ceil_le_iff {k : ℕ} (hk : 0 < k) (n c : ℕ) : (n + k - 1) / k ≤ c ↔ n ≤ k * c := by
  rw [Nat.div_le_iff_le_mul_add_pred hk]
  omega

theorem exists_isBlockCount (k n : ℕ) (pow : Bool) : ∃ count, IsBlockCount k n pow count := by
  cases pow with
  | false => exact ⟨_, rfl⟩
  | true =>
      have hne : {c | (n + k - 1) / k ≤ c ∧ ∃ m, c + 1 = 2 ^ m}.Nonempty := by
        refine ⟨2 ^ ((n + k - 1) / k) - 1, ?_, _, Nat.sub_add_cancel (Nat.one_le_two_pow)⟩
        have hlt := Nat.lt_two_pow_self (n := (n + k - 1) / k)
        omega
      exact ⟨_, Nat.sInf_mem hne, fun c hc => Nat.sInf_le hc⟩

/-- The test of the loop: for one block it fails. -/
theorem nextPowerOfTwo_eq_succ_iff {c : ℕ} (hc : 0 < c) :
    nextPowerOfTwo c = c + 1 ↔ 1 < c ∧ ∃ m, c + 1 = 2 ^ m := by
  unfold nextPowerOfTwo
  split_ifs with hone
  · constructor
    · intro h
      omega
    · rintro ⟨h, -⟩
      omega
  · constructor
    · intro h
      exact ⟨by omega, _, h.symm⟩
    · rintro ⟨-, m, hm⟩
      have hlog : Nat.log2 (c - 1) = m - 1 := by
        have hm2 : 2 ≤ m := by
          by_contra hlt
          have hle : 2 ^ m ≤ 2 ^ 1 := Nat.pow_le_pow_right Nat.two_pos (by omega)
          omega
        have hsucc : 2 ^ (m - 1 + 1) = 2 ^ m := by
          rw [Nat.sub_add_cancel (by omega)]
        have hdouble : 2 ^ (m - 1 + 1) = 2 * 2 ^ (m - 1) := pow_succ' 2 (m - 1)
        have htwo : 2 ^ 1 ≤ 2 ^ (m - 1) := Nat.pow_le_pow_right Nat.two_pos (by omega)
        rw [Nat.log2_eq_iff (by omega)]
        omega
      have hm1 : 1 ≤ m := by
        by_contra hlt
        obtain rfl : m = 0 := by omega
        rw [pow_zero] at hm
        omega
      rw [hlog, Nat.sub_add_cancel hm1, hm]

/-- The blocks after which the loop stops. -/
def StopsAt (k n : ℕ) (pow : Bool) (c : ℕ) : Prop :=
  n ≤ k * c ∧ (pow = true → nextPowerOfTwo c = c + 1)

variable {pow : Bool}

/-- The loop stops at the number of blocks, but for a single block of a tree. -/
theorem IsBlockCount.stops {k n count : ℕ} (h : IsBlockCount k n pow count) (hk : 0 < k)
    (hn : 0 < n) (hpow : pow = true → k < n) :
    0 < count ∧ ∀ c, 0 < c → c ≤ count → (StopsAt k n pow c ↔ c = count) := by
  have hneeds : ∀ {c}, n ≤ k * c → 0 < c := by
    intro c hle
    by_contra hzero
    obtain rfl : c = 0 := by omega
    rw [Nat.mul_zero] at hle
    omega
  unfold StopsAt
  cases pow with
  | false =>
      obtain rfl : count = (n + k - 1) / k := h
      have hleast := ceil_le_iff hk n
      refine ⟨hneeds ((hleast _).mp le_rfl), fun c hc hle => ?_⟩
      rw [← hleast]
      constructor
      · rintro ⟨hge, -⟩
        exact Nat.le_antisymm hle hge
      · rintro rfl
        exact ⟨le_rfl, nofun⟩
  | true =>
      obtain ⟨⟨hge, hm⟩, hleast⟩ := h
      rw [ceil_le_iff hk] at hge
      have hmany : ∀ {c}, n ≤ k * c → 1 < c := by
        intro c hle
        have hkn := hpow rfl
        have hc := hneeds hle
        by_contra hone
        obtain rfl : c = 1 := by omega
        omega
      refine ⟨hneeds hge, fun c hc hle => ?_⟩
      constructor
      · rintro ⟨hc', hnext⟩
        have hpower := (nextPowerOfTwo_eq_succ_iff hc).mp (hnext rfl)
        exact Nat.le_antisymm hle (hleast ⟨(ceil_le_iff hk n c).mpr hc', hpower.2⟩)
      · rintro rfl
        exact ⟨hge, fun _ => (nextPowerOfTwo_eq_succ_iff hc).mpr ⟨hmany hge, hm⟩⟩

theorem RunsOk.shift (h : RunsOk B vm (m + n)) : RunsOk B (stateAt B m vm) n := by
  intro i hi
  rw [← stateAt_add, ← stateAt_add]
  exact h (m + i) (by omega)

theorem kStep_of_steps {k : ℕ} {ss : List (Step P)} (h : steps B k vm = (.ok ss, vm')) :
    kStep B vm k = (.ok ⟨vm.regs, ss⟩, vm') :=
  kStep_eq_ok.mpr ⟨rfl, h⟩

/-- The loop records the blocks up to the one at which it stops. -/
theorem traceLoop_of_stop {k count : ℕ} (hruns : RunsOk B vm (k * count))
    (hfit : PcsFit B vm (k * count))
    (hstop : ∀ c, 0 < c → c ≤ count → (((stateAt B (k * c) vm).inst.inst = .unimp ∧ (pow = true → nextPowerOfTwo c = c + 1)) ↔ c = count))
    (r : ℕ) (hr : 0 < r) (blocks : List (Block P)) (hlen : blocks.length + r = count) :
    ∃ bs vm', traceLoop B k pow r blocks (stateAt B (k * blocks.length) vm) =
      some (.ok bs, vm') ∧ bs.length = count := by
  induction r generalizing blocks with
  | zero => exact absurd hr (lt_irrefl 0)
  | succ r ih =>
      have hle : k * blocks.length + k ≤ k * count := by
        rw [← Nat.mul_succ]
        exact Nat.mul_le_mul_left k (by omega)
      have hstate : stateAt B k (stateAt B (k * blocks.length) vm) =
          stateAt B (k * (blocks.length + 1)) vm := by
        rw [← stateAt_add, Nat.mul_succ]
      obtain ⟨ss, hsteps⟩ : ∃ ss, steps B k (stateAt B (k * blocks.length) vm) =
          (.ok ss, stateAt B (k * (blocks.length + 1)) vm) := by
        refine steps_eq_ok.mpr ⟨(hruns.mono hle).shift, fun hchecks i hi => ?_, hstate.symm⟩
        rw [← stateAt_add]
        exact hfit hchecks (k * blocks.length + i) (by omega)
      rw [traceLoop, kStep_of_steps hsteps]
      dsimp only
      rw [List.length_append, List.length_singleton]
      have hiff := hstop (blocks.length + 1) (Nat.succ_pos _) (by omega)
      by_cases hlast : blocks.length + 1 = count
      · rw [if_pos (hiff.mpr hlast)]
        refine ⟨_, _, rfl, ?_⟩
        rw [List.length_append, List.length_singleton, hlast]
      · rw [if_neg fun h => hlast (hiff.mp h)]
        have hnext := ih (by omega)
          (blocks ++ [⟨(stateAt B (k * blocks.length) vm).regs, ss⟩]) (by
            rw [List.length_append, List.length_singleton]
            omega)
        rw [List.length_append, List.length_singleton] at hnext
        exact hnext

/-- The loop returns at a number of blocks that it accepts. -/
theorem stops_of_traceLoop {k fuel : ℕ} {blocks bs : List (Block P)}
    (h : traceLoop B k pow fuel blocks vm = some (.ok bs, vm')) :
    pow = true → nextPowerOfTwo bs.length = bs.length + 1 := by
  induction fuel generalizing blocks vm with
  | zero => cases h
  | succ fuel ih =>
      rw [traceLoop] at h
      rcases hblock : kStep B vm k with ⟨e | b, vm₁⟩
      · rw [hblock] at h
        cases h
      · rw [hblock] at h
        dsimp only at h
        split at h
        · rename_i hstop
          cases h
          exact hstop.2
        · exact ih h

/-- **The shape of a trace**: its number of blocks, `k` steps in each, and after the `n`-th
step the same `unimp`, which changes no register and no memory. -/
structure TraceShape (B : Build) (vm : NexusVM M P) (k n count : ℕ) (tr : Trace P) : Prop where
  length : tr.blocks.length = count
  steps : ∀ b ∈ tr.blocks, b.steps.length = k
  idle : ∀ i, n ≤ i → i < k * count →
    evalInst B (stateAt B i vm) = (.ok (), stateAt B (i + 1) vm) ∧
      Idle (stateAt B n vm) (stateAt B (i + 1) vm) ∧
      ∃ s, (tr.blocks.flatMap Block.steps)[i]? = some s ∧ s.inst = (stateAt B n vm).inst.word

/-- **The trace has its shape** exactly if the run can go on up to its end, and a trace for
the tree needs more than one block. -/
theorem trace_shape_iff {k n : ℕ} (hk : 0 < k) (hn : FirstUnimp B vm n) (pow : Bool) :
    ∃ count, IsBlockCount k n pow count ∧
      ((∃ fuel tr vm', trace B fuel vm k pow = some (.ok tr, vm') ∧
          TraceShape B vm k n count tr) ↔
        Extends B vm n (k * count) ∧ (pow = true → k < n)) := by
  obtain ⟨count, hcount⟩ := exists_isBlockCount k n pow
  have hneeds : n ≤ k * count := by
    rw [← ceil_le_iff hk]
    cases pow with
    | false => exact hcount.ge
    | true => exact hcount.1.1
  have hpos := hn.pos
  refine ⟨count, hcount, ?_⟩
  constructor
  · rintro ⟨fuel, tr, vm', htrace, hshape⟩
    rw [trace, Option.map_eq_some_iff] at htrace
    obtain ⟨⟨e | blocks, vm₁⟩, hloop, heq⟩ := htrace
    · cases heq
    · cases heq
      obtain ⟨bs, rfl, hrecorded⟩ := recorded_of_traceLoop hloop
      have hlen : blocks.length = count := hshape.length
      obtain ⟨hsteps, -⟩ := hrecorded.steps
      rw [hlen] at hsteps
      obtain ⟨hruns, hfit, -⟩ := steps_eq_ok.mp ⟨_, hsteps⟩
      refine ⟨⟨fun hchecks i hi => hfit hchecks i (hi.trans_le hneeds), ?_, ?_⟩, ?_⟩
      · intro limit hmax
        obtain ⟨htraceLen, hmax'⟩ := (hruns.mono (Nat.sub_le (k * count) 1)).counters
        have hwithin := (ran_of_evalInst (hruns (k * count - 1) (by omega))).within
        have hlt := hwithin limit (hmax'.trans hmax)
        omega
      · intro hlt hzero
        obtain ⟨heval, hidle, -⟩ := hshape.idle n le_rfl hlt
        obtain ⟨-, -, hnext⟩ := hn.ran.unimp hn.unimp
        rw [hn.ran.pc] at hzero
        rw [if_pos hzero] at hnext
        have hinst := hidle.inst
        have hpc := (ran_of_evalInst heval).pc
        rw [hinst, hn.ran.pc, hzero, hnext] at hpc
        exact absurd hpc (by decide)
      · intro htrue
        by_contra hle
        have hone : count = 1 := by
          obtain rfl := htrue
          obtain ⟨⟨hge, -⟩, hleast⟩ := hcount
          have hceil : (n + k - 1) / k ≤ 1 := (ceil_le_iff hk n 1).mpr (by omega)
          have hle' := hleast ⟨hceil, 1, rfl⟩
          rw [ceil_le_iff hk] at hge
          by_contra hne
          obtain rfl : count = 0 := by omega
          omega
        have hstop := stops_of_traceLoop hloop htrue
        rw [hlen, hone] at hstop
        exact absurd hstop (by decide)
  · rintro ⟨hextends, hpow⟩
    obtain ⟨hruns, hfit, hidle⟩ := hextends.runs hn hneeds
    obtain ⟨hcount0, hstops⟩ := hcount.stops hk hpos hpow
    have hstop : ∀ c, 0 < c → c ≤ count → (((stateAt B (k * c) vm).inst.inst = .unimp ∧
        (pow = true → nextPowerOfTwo c = c + 1)) ↔ c = count) := by
      intro c hc hle
      rw [← hstops c hc hle]
      have hkc : 0 < k * c := Nat.mul_pos hk hc
      have hunimp : (stateAt B (k * c) vm).inst.inst = .unimp ↔ n ≤ k * c := by
        constructor
        · intro hunimp
          by_contra hlt
          exact hn.first (k * c) hkc (by omega) hunimp
        · intro hge
          rw [(hidle (k * c) hge (Nat.mul_le_mul_left k hle)).inst]
          exact hn.unimp
      rw [hunimp, StopsAt]
    obtain ⟨bs, vm', hloop, hlen⟩ := traceLoop_of_stop hruns hfit hstop count hcount0 []
      (Nat.zero_add count)
    obtain ⟨_, rfl, hrecorded⟩ := recorded_of_traceLoop hloop
    obtain ⟨hsteps, hall⟩ := hrecorded.steps
    rw [hlen, show stateAt B (k * ([] : List (Block P)).length) vm = vm from rfl] at hsteps
    refine ⟨count, ⟨k, 0, bs⟩, vm', ?_, hlen, hall, ?_⟩
    · rw [trace]
      exact congrArg (Option.map _) hloop
    · intro i hge hlt
      have hnext := hidle (i + 1) (by omega) hlt
      obtain ⟨s, hget, hinst⟩ := inst_of_steps hsteps hlt
      refine ⟨hruns i hlt, hnext, s, hget, ?_⟩
      rw [hinst, hnext.inst]

theorem runsOk_of_fst (h : ∀ i < n, (evalInst B (stateAt B i vm)).1 = .ok ()) :
    RunsOk B vm n :=
  fun i hi => Prod.ext (h i hi) (stateAt_succ B i vm).symm

end Runs

/-- `addi x5, x0, 1; unimp`, three blocks of one step. -/
theorem trace_shape_three : ∃ count, IsBlockCount 1 2 true count ∧
    ∃ fuel tr vm', trace ⟨true⟩ fuel (programMachine [0x00100293, 0xc0001073]) 1 true =
      some (.ok tr, vm') ∧
      TraceShape ⟨true⟩ (programMachine [0x00100293, 0xc0001073]) 1 2 count tr := by
  have hfirst : FirstUnimp ⟨true⟩ (programMachine [0x00100293, 0xc0001073]) 2 := by
    constructor
    · exact Nat.two_pos
    · apply runsOk_of_fst
      intro i hi
      interval_cases i <;> rfl
    · rfl
    · intro i hpos hi
      obtain rfl : i = 1 := by omega
      exact nofun
  obtain ⟨count, hcount, hiff⟩ := trace_shape_iff Nat.one_pos hfirst true
  refine ⟨count, hcount, hiff.mpr ⟨⟨fun _ i hi => ?_, nofun, fun _ => ?_⟩, fun _ => by decide⟩⟩
  · interval_cases i <;> decide
  · decide

/-- **Traces of another shape**: `unimp` at address `0` runs on to the instruction behind it,
and for the tree a single block becomes three. -/
theorem trace_misshaped :
    (FirstUnimp ⟨true⟩ (programMachine [0xc0001073, 0x00100293]) 1 ∧
      IsBlockCount 2 1 false 1 ∧
      ¬ ∃ fuel tr vm', trace ⟨true⟩ fuel (programMachine [0xc0001073, 0x00100293]) 2 false =
        some (.ok tr, vm') ∧
        TraceShape ⟨true⟩ (programMachine [0xc0001073, 0x00100293]) 2 1 1 tr) ∧
    IsBlockCount 2 2 true 1 ∧
      ∃ tr vm', trace ⟨true⟩ 3 (programMachine [0x00100293, 0xc0001073]) 2 true =
        some (.ok tr, vm') ∧ tr.blocks.length = 3 := by
  refine ⟨⟨?_, rfl, ?_⟩, ⟨⟨le_rfl, 1, rfl⟩, fun c hc => hc.1⟩, _, _, rfl, rfl⟩
  · constructor
    · exact Nat.one_pos
    · apply runsOk_of_fst
      intro i hi
      obtain rfl : i = 0 := by omega
      rfl
    · rfl
    · intro i hpos hi
      omega
  · rintro ⟨fuel, tr, vm', -, hshape⟩
    obtain ⟨-, hidle, -⟩ := hshape.idle 1 le_rfl (by decide)
    have hinst := congrArg Inst.inst hidle.inst
    cases hinst

end NexusVm
