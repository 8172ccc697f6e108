import NexusVm.Eval
import NexusVm.Memory.Alias
import NexusVm.Memory.Position

/-!
# Failed steps

A step that fails may leave traces of its start in the machine: the result register, the
proofs, the labels of the cycle tracker.  What a program or a prover sees stays as it was.
-/

namespace NexusVm

section Machine

variable {M P : Type} [Memory M P]

/-- **What a failed step leaves alone**: registers, memory, both counters, input and output.  The
instruction that was fetched is not part of it. -/
structure Untouched (vm vm' : NexusVM M P) : Prop where
  regs : vm'.regs = vm.regs
  mem : vm'.mem = vm.mem
  traceLen : vm'.traceLen = vm.traceLen
  cycleCount : vm'.cycleCount = vm.cycleCount
  input : vm'.syscalls.input = vm.syscalls.input
  output : vm'.syscalls.output = vm.syscalls.output

omit [Memory M P] in
theorem Untouched.rfl {vm : NexusVM M P} : Untouched vm vm := ⟨.refl _, .refl _, .refl _, .refl _,
  .refl _, .refl _⟩

omit [Memory M P] in
theorem Untouched.trans {vm vm₁ vm₂ : NexusVM M P} (h : Untouched vm vm₁) (h' : Untouched vm₁ vm₂) :
    Untouched vm vm₂ := by
  constructor
  · exact h'.regs.trans h.regs
  · exact h'.mem.trans h.mem
  · exact h'.traceLen.trans h.traceLen
  · exact h'.cycleCount.trans h.cycleCount
  · exact h'.input.trans h.input
  · exact h'.output.trans h.output

variable {B : Build} {vm vm' : NexusVM M P}

omit [Memory M P] in
/-- The cycle tracker touches labels only. -/
theorem untouched_of_handleProfileCycles {res : Except NexusVMError Unit}
    (h : handleProfileCycles B vm = (res, vm')) :
    Untouched vm vm' := by
  unfold handleProfileCycles startProfile endProfile at h
  dsimp only at h
  repeat' split at h
  all_goals
    cases h
    exact ⟨rfl, rfl, rfl, rfl, rfl, rfl⟩

variable {regs : Fin 32 → U32} {e : NexusVMError}

/-- A failed system call changes nothing. -/
theorem Syscalls.eq_of_syscall_error {s s' : Syscalls} {pc : U32} {mem : M}
    (h : s.syscall B pc regs mem = (.error e, s')) : s' = s := by
  unfold Syscalls.syscall at h
  split at h
  · cases h
    rfl
  · unfold Syscalls.writelog at h
    split at h
    · cases h
      rfl
    · cases h
  · unfold Syscalls.readFromPrivateInput at h
    split at h
    · cases h
    · cases h
  · unfold Syscalls.writeToOutput at h
    split at h
    · cases h
      rfl
    · cases h
  · unfold Syscalls.profileCycles at h
    split at h
    · cases h
      rfl
    · cases h

/-- The call that profiles appends a label. -/
theorem Syscalls.buffers_of_profileCycles {s s' : Syscalls} {pc z : U32} {mem : M}
    (hcode : regs 18 = SyscallCode.profileCycles.toU32) (h : s.syscall B pc regs mem = (.ok z, s')) :
    s'.input = s.input ∧ s'.output = s.output := by
  unfold Syscalls.syscall at h
  rw [hcode] at h
  change s.profileCycles B (regs 11) (regs 12) mem = _ at h
  unfold Syscalls.profileCycles at h
  split at h
  · cases h
  · cases h
    exact ⟨rfl, rfl⟩

/-- Aligned stores to the memory succeed. -/
def StoreSucceeds (mem : M) : Prop :=
  ∀ (sop : SOP) (addr val : U32), addr.toNat % sop.width = 0 →
    ∃ (path : P) (mem' : M), Memory.store mem sop addr val = (.ok path, mem')

/-- What is loaded is aligned. -/
theorem aligned_of_load {mem : M} {lop : LOP} {addr : U32} {out : U32 × P}
    (h : Memory.load mem lop addr = .ok out) : addr.toNat % lop.width = 0 := by
  by_contra hne
  have hline : (Memory.query mem addr).1.load lop addr = .error (.misaligned addr) := by
    rw [CacheLine.load_eq_flat, Flat.load_misaligned hne]
  unfold Memory.load at h
  dsimp only at h
  rw [hline] at h
  cases h

/-- **A failed instruction** leaves the machine alone: a store fails at its load only. -/
theorem untouched_of_execInst (hstore : StoreSucceeds vm.mem) (h : execInst B vm = (.error e, vm')) :
    Untouched vm vm' := by
  unfold execInst at h
  cases hi : vm.inst.inst with
  | load lop rd rs1 imm =>
      rw [hi] at h
      dsimp only at h
      split at h
      · cases h
        exact .rfl
      · cases h
  | store sop rs1 rs2 imm =>
      rw [hi] at h
      dsimp only at h
      split at h
      · cases h
        exact .rfl
      · rename_i word proof hload
        have ha : (add32 (vm.getReg rs1) imm).toNat % sop.width = 0 := by
          have hlop := aligned_of_load hload
          cases sop with
          | sb => exact hlop
          | sh => exact hlop
          | sw => exact hlop
        obtain ⟨path, mem', hok⟩ := hstore sop _ (vm.getReg rs2) ha
        rw [hok] at h
        cases h
  | ecall rd =>
      rw [hi] at h
      dsimp only at h
      split at h
      · rename_i syscalls hcall
        cases h
        obtain rfl := Syscalls.eq_of_syscall_error hcall
        exact .rfl
      · rename_i z syscalls hcall
        split at h
        · rename_i hcode
          split at h
          · rename_i hprofile
            cases h
            obtain ⟨hinput, houtput⟩ := Syscalls.buffers_of_profileCycles hcode hcall
            have hcalled : Untouched vm { vm with syscalls := syscalls, Z := z } :=
              ⟨rfl, rfl, rfl, rfl, hinput, houtput⟩
            exact hcalled.trans (untouched_of_handleProfileCycles hprofile)
          · cases h
        · cases h
  | _ =>
      rw [hi] at h
      cases h

/-- A failed step leaves the machine alone. -/
theorem untouched_of_evalInst (hstore : StoreSucceeds vm.mem) (h : evalInst B vm = (.error e, vm')) :
    Untouched vm vm' := by
  unfold evalInst at h
  split at h
  · cases h
    exact .rfl
  · split at h
    · cases h
      exact .rfl
    · rename_i word proof hread
      split at h
      · cases h
        exact .rfl
      · rename_i inst hparse
        split at h
        · rename_i hexec
          cases h
          have hbegin : Untouched vm (beginInst vm inst proof) := ⟨rfl, rfl, rfl, rfl, rfl, rfl⟩
          exact hbegin.trans (untouched_of_execInst hstore hexec)
        · cases h

end Machine

theorem storeSucceeds_paged {p : ℕ} (mem : PagedMemory p) : StoreSucceeds mem :=
  fun _ _ val ha => (paged_lined p).exists_store trivial val ha

theorem storeSucceeds_trie {p : ℕ} {t : MerkleTrie p} {H : ZMod p × ZMod p → ZMod p}
    {K : ZMod p → ZMod p → ZMod p} (hp : t.params.Total H K) : StoreSucceeds t := by
  intro sop addr val ha
  obtain ⟨cl, hcl, -⟩ := CacheLine.store_aligned
    (Node.lineAt cacheLog (some (t.root.getD (Node.new cacheLog)))
      (MerkleTrie.turns cacheLog addr.reverse)) val ha
  obtain ⟨data, auth, root', hinner⟩ :=
    MerkleTrie.exists_updateInner (f := fun cl => cl.store sop addr val) hp hcl
  show ∃ path t', t.update addr (fun cl => cl.store sop addr val) = (.ok path, t')
  exact ⟨_, _, t.update_eq_ok.mpr ⟨data, auth, root', hinner, rfl, rfl⟩⟩

/-- **Failed steps do not corrupt the machine**, over paged memory and over a trie whose
hashes do not fail. -/
theorem failed_step_untouched (B : Build) (e : NexusVMError) :
    (∀ (p : ℕ) (vm vm' : NexusVM (PagedMemory p) (UncheckedMemory p)),
      evalInst B vm = (.error e, vm') → Untouched vm vm') ∧
    ∀ (p : ℕ) (H : ZMod p × ZMod p → ZMod p) (K : ZMod p → ZMod p → ZMod p)
      (vm vm' : NexusVM (MerkleTrie p) (Path p)), vm.mem.params.Total H K →
      evalInst B vm = (.error e, vm') → Untouched vm vm' := by
  constructor
  · intro p vm vm' h
    exact untouched_of_evalInst (storeSucceeds_paged vm.mem) h
  · intro p H K vm vm' hp h
    exact untouched_of_evalInst (storeSucceeds_trie hp) h

/-- A machine that has run: the register `i` holds `4 * i`, and an input is left. -/
def usedMachine {M P : Type} (mem : M) (proof : P) : NexusVM M P :=
  { NexusVM.new 64 mem proof with
    regs := ⟨64, fun i => BitVec.ofNat 32 (4 * i)⟩
    syscalls := { (default : Syscalls) with input := [3, 5] }
    traceLen := 16
    cycleCount := 20 }

/-- The trie with the word at `64`. -/
def usedTrie (word : U32) : MerkleTrie 7 := (Memory.store (MerkleTrie.emptyTrie 7) .sw 64 word).2

set_option maxRecDepth 8192 in
/-- `sw x2, 1(x1)` in pages, which stores to the address `5`, and `ecall x1` in a trie, whose code
is the `72` of `x18`. -/
theorem failed_step_untouched_store :
    (∃ vm', evalInst ⟨true⟩ (usedMachine (Memory.store (⟨Paged.empty⟩ : PagedMemory 7) .sw 64
        0x0020a0a3).2 ⟨(0, 0)⟩) = (.error (.misaligned 5), vm') ∧
      Untouched (usedMachine (Memory.store (⟨Paged.empty⟩ : PagedMemory 7) .sw 64 0x0020a0a3).2
        ⟨(0, 0)⟩) vm') ∧
    ∃ vm', evalInst ⟨true⟩ (usedMachine (usedTrie 0x000000f3) ⟨0, (0, 0), []⟩) =
        (.error (.unknownECall 64 72), vm') ∧
      Untouched (usedMachine (usedTrie 0x000000f3) ⟨0, (0, 0), []⟩) vm' := by
  constructor
  · exact ⟨_, rfl, (failed_step_untouched ⟨true⟩ (.misaligned 5)).1 7 _ _ rfl⟩
  · exact ⟨_, rfl, (failed_step_untouched ⟨true⟩ (.unknownECall 64 72)).2 7 _ _ _ _
      (MerkleTrie.sumParams_total 7) rfl⟩

end NexusVm
