import NexusVm.Syscalls

/-!
# Bulk reads

`load_n` walks over the addresses from `address` up to `address + len`, computed in 32 bits.
-/

namespace NexusVm

namespace Memory

variable {M P : Type} [Memory M P]

/-- The bytes that `LBU` loads from `len` addresses on from `address`, modulo `2 ^ 32`. -/
structure BytesAt (mem : M) (address len : U32) (bytes : List U8) : Prop where
  length : bytes.length = len.toNat
  loads : ∀ i < len.toNat, ∃ (byte : U8) (proof : P), bytes[i]? = some byte ∧
    load mem .lbu (address + BitVec.ofNat 32 i) = .ok (byte.setWidth 32, proof)

/-- A byte load does not fail. -/
theorem load_lbu (mem : M) (addr : U32) :
    load mem .lbu addr =
      .ok (((query mem addr).1.byte (addr &&& 31).toNat).setWidth 32, (query mem addr).2) := rfl

/-- The byte at an address, as `load_n` collects it. -/
def byteAt (mem : M) (addr : U32) : U8 := (query mem addr).1.byte (addr &&& 31).toNat

theorem mapM_byteAt (mem : M) (addrs : List ℕ) :
    (addrs.mapM fun addr => (load mem .lbu (BitVec.ofNat 32 addr)).map fun b =>
      (b.1.setWidth 8 : U8)) =
      .ok (addrs.map fun addr => byteAt mem (BitVec.ofNat 32 addr)) := by
  induction addrs with
  | nil => rfl
  | cons addr addrs ih =>
      have hbyte : ((byteAt mem (BitVec.ofNat 32 addr)).setWidth 32).setWidth 8 =
          byteAt mem (BitVec.ofNat 32 addr) := by
        apply BitVec.eq_of_toNat_eq
        simp only [BitVec.toNat_setWidth]
        have hlt := (byteAt mem (BitVec.ofNat 32 addr)).isLt
        omega
      rw [List.mapM_cons, ih, load_lbu, List.map_cons]
      show Except.ok (((byteAt mem (BitVec.ofNat 32 addr)).setWidth 32).setWidth 8 :: _) = _
      rw [hbyte]

/-- What `load_n` returns in general: nothing beyond the last address. -/
theorem loadN_eq (B : Build) (mem : M) (address len : U32) :
    loadN B mem address len = (B.add address len).map fun stop =>
      (List.range' address.toNat (stop.toNat - address.toNat)).map fun addr =>
        byteAt mem (BitVec.ofNat 32 addr) := by
  rw [loadN]
  cases B.add address len with
  | error e => rfl
  | ok stop => exact mapM_byteAt mem _

/-- A range that ends before the end of the address space is read. -/
theorem bytesAt_of_lt (B : Build) (mem : M) {address len : U32}
    (hlt : address.toNat + len.toNat < 2 ^ 32) :
    ∃ bytes, loadN B mem address len = .ok bytes ∧ BytesAt mem address len bytes := by
  have hadd : B.add address len = .ok (address + len) := by
    unfold Build.add
    rw [decide_eq_false (by omega), Bool.and_false, if_neg Bool.false_ne_true]
  have hlen : (address + len).toNat - address.toNat = len.toNat := by
    rw [BitVec.toNat_add, Nat.mod_eq_of_lt hlt, Nat.add_sub_cancel_left]
  rw [loadN_eq, hadd]
  refine ⟨_, rfl, ?_, ?_⟩
  · rw [List.length_map, List.length_range', hlen]
  · intro i hi
    refine ⟨byteAt mem (address + BitVec.ofNat 32 i),
      (query mem (address + BitVec.ofNat 32 i)).2, ?_, load_lbu mem _⟩
    have haddr : BitVec.ofNat 32 (address.toNat + i) = address + BitVec.ofNat 32 i := by
      rw [BitVec.ofNat_add, BitVec.ofNat_toNat, BitVec.setWidth_eq]
    rw [List.getElem?_map, List.getElem?_range' (by omega), Option.map_some, Nat.one_mul, haddr]

/-- A range that reaches the end of the address space panics, or gives no bytes. -/
theorem loadN_of_ge (B : Build) (mem : M) {address len : U32}
    (hge : 2 ^ 32 ≤ address.toNat + len.toNat) :
    loadN B mem address len = .error .panic ∨ loadN B mem address len = .ok [] := by
  rw [loadN_eq]
  unfold Build.add
  rw [decide_eq_true hge, Bool.and_true]
  cases B.overflowChecks with
  | true => exact Or.inl rfl
  | false =>
      right
      have hwrap : (address + len).toNat - address.toNat = 0 := by
        have haddress := address.isLt
        have hlen := len.isLt
        rw [BitVec.toNat_add]
        omega
      show Except.ok (List.map _ (List.range' _ ((address + len).toNat - address.toNat))) = _
      rw [hwrap]
      rfl

end Memory

section Syscall

variable {M P : Type} [Memory M P]

/-- The system call appends the bytes at the address in `x11`, as many as `x12` says. -/
def Syscalls.Outputs (B : Build) (s : Syscalls) (pc : U32) (regs : Fin 32 → U32) (mem : M) : Prop :=
  ∃ bytes, Memory.BytesAt mem (regs 11) (regs 12) bytes ∧
    s.syscall B pc regs mem = (.ok 0, { s with output := s.output ++ bytes })

theorem Syscalls.syscall_writeToOutput (B : Build) (s : Syscalls) (pc : U32) {regs : Fin 32 → U32}
    (mem : M) (hcode : regs 18 = SyscallCode.writeToOutput.toU32) :
    s.syscall B pc regs mem = s.writeToOutput B (regs 11) (regs 12) mem := by
  unfold Syscalls.syscall
  rw [hcode]
  rfl

/-- **Bulk reads** return the bytes that single loads do exactly if the range ends before
the end of the address space; the same holds of the system call that writes them. -/
theorem bulk_reads_iff (B : Build) (mem : M) (address len : U32) :
    ((∃ bytes, Memory.loadN B mem address len = .ok bytes ∧
        Memory.BytesAt mem address len bytes) ↔ address.toNat + len.toNat < 2 ^ 32) ∧
      ∀ (s : Syscalls) (pc : U32) (regs : Fin 32 → U32), regs 11 = address → regs 12 = len →
        regs 18 = SyscallCode.writeToOutput.toU32 →
        (s.Outputs B pc regs mem ↔ address.toNat + len.toNat < 2 ^ 32) := by
  have hlen : 2 ^ 32 ≤ address.toNat + len.toNat → 0 < len.toNat := by
    have haddress := address.isLt
    omega
  constructor
  · constructor
    · rintro ⟨bytes, hload, hbytes⟩
      by_contra hge
      rw [not_lt] at hge
      rcases Memory.loadN_of_ge B mem hge with herror | hnil
      · rw [herror] at hload
        cases hload
      · rw [hnil] at hload
        cases hload
        exact absurd hbytes.length (hlen hge).ne
    · intro hlt
      exact Memory.bytesAt_of_lt B mem hlt
  · rintro s pc regs rfl rfl hcode
    unfold Syscalls.Outputs
    rw [Syscalls.syscall_writeToOutput B s pc mem hcode, Syscalls.writeToOutput]
    constructor
    · rintro ⟨bytes, hbytes, houtput⟩
      by_contra hge
      rw [not_lt] at hge
      rcases Memory.loadN_of_ge B mem hge with herror | hnil
      · rw [herror] at houtput
        cases houtput
      · rw [hnil] at houtput
        have heq : s.output ++ [] = s.output ++ bytes :=
          congrArg (fun out => out.2.output) houtput
        obtain rfl : [] = bytes := List.append_cancel_left heq
        exact absurd hbytes.length (hlen hge).ne
    · intro hlt
      obtain ⟨bytes, hload, hbytes⟩ := Memory.bytesAt_of_lt B mem hlt
      rw [hload]
      exact ⟨bytes, hbytes, rfl⟩

end Syscall

/-- An empty memory. -/
def noPages : PagedMemory 7 := ⟨Paged.empty⟩

/-- Two bytes from address 4, by `load_n` and by the system call. -/
theorem bulk_reads_two :
    (∃ bytes, Memory.loadN ⟨true⟩ noPages 4 2 = .ok bytes ∧ Memory.BytesAt noPages 4 2 bytes) ∧
      (default : Syscalls).Outputs ⟨true⟩ 0
        (fun r => if r = 11 then 4 else if r = 12 then 2 else 3) noPages := by
  have h := bulk_reads_iff ⟨true⟩ noPages 4 2
  exact ⟨h.1.mpr (by decide), (h.2 _ _ _ rfl rfl rfl).mpr (by decide)⟩

/-- The last byte of the address space: a panic, or nothing. -/
theorem loadN_last_byte :
    (∀ bytes, Memory.loadN ⟨true⟩ noPages 0xffffffff 1 ≠ .ok bytes) ∧
      Memory.loadN ⟨false⟩ noPages 0xffffffff 1 = .ok [] ∧
      ¬ ∃ bytes, Memory.loadN ⟨false⟩ noPages 0xffffffff 1 = .ok bytes ∧
        Memory.BytesAt noPages 0xffffffff 1 bytes := by
  refine ⟨?_, rfl, ?_⟩
  · intro bytes h
    cases h
  · rintro ⟨bytes, hload, hbytes⟩
    cases hload
    exact absurd hbytes.length (by decide)

end NexusVm
