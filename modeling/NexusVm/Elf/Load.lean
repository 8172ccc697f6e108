import NexusVm.Eval
import NexusVm.Memory.Lined

/-!
# Loading an ELF file

`init_vm` of `vm/src/lib.rs` and `init_memory` of `vm/src/eval.rs`.  The headers are those that
the `elf` crate has parsed, with any values.
-/

namespace NexusVm

abbrev U64 := BitVec 64

/-- What is read of a program header. -/
structure ProgramHeader where
  pType : U32
  pOffset : U64
  pVaddr : U64
  pFilesz : U64
deriving DecidableEq

/-- What is read of a parsed file; there need not be a segment table. -/
structure ElfBytes where
  eEntry : U64
  segments : Option (List ProgramHeader)
deriving DecidableEq

def PT_LOAD : U32 := 1

/-- Rust's `a + b` on `u64`. -/
def Build.add64 (B : Build) (a b : U64) : Except NexusVMError U64 :=
  if B.overflowChecks && decide (2 ^ 64 ≤ a.toNat + b.toNat) then .error .panic else .ok (a + b)

/-- `&data[s..e]`. -/
def slice (data : List U8) (s e : ℕ) : Except NexusVMError (List U8) :=
  if s ≤ e ∧ e ≤ data.length then .ok ((data.take e).drop s) else .error .panic

section Load

variable {M P : Type} [Memory M P]

/-- One step of the loop of `init_memory`. -/
def NexusVM.initByte (B : Build) (addr : U32) (vm : NexusVM M P) (entry : U8 × ℕ) :
    Except NexusVMError (NexusVM M P) := do
  let a ← B.add addr (BitVec.ofNat 32 entry.2)
  match Memory.store vm.mem .sb a (entry.1.setWidth 32) with
  | (.ok _, mem) => return { vm with mem := mem }
  | (.error e, _) => .error e

/-- `init_memory`; a machine that was not filled is dropped by the caller. -/
def NexusVM.initMemory (B : Build) (vm : NexusVM M P) (addr : U32) (bytes : List U8) :
    Except NexusVMError (NexusVM M P) :=
  bytes.zipIdx.foldlM (NexusVM.initByte B addr) vm

/-- The segments that are loaded. -/
def loadPhdrs (segments : List ProgramHeader) : List ProgramHeader :=
  segments.filter (·.pType = PT_LOAD)

/-- The body of the loop of `init_vm`. -/
def initSegment (B : Build) (data : List U8) (vm : NexusVM M P) (p : ProgramHeader) :
    Except NexusVMError (NexusVM M P) := do
  let s := p.pOffset.toNat
  let e ← B.add64 p.pOffset p.pFilesz
  let bytes ← slice data s e.toNat
  vm.initMemory B (p.pVaddr.setWidth 32) bytes

/-- `init_vm`; `mem` is the default memory and `proof` the default proof. -/
def initVm (B : Build) (mem : M) (proof : P) (elf : ElfBytes) (data : List U8) :
    Except NexusVMError (NexusVM M P) := do
  let eEntry : U32 := elf.eEntry.setWidth 32
  -- `segments().unwrap()`
  let segments ← match elf.segments with
    | some segments => .ok segments
    | none => .error .panic
  (loadPhdrs segments).foldlM (initSegment B data) (NexusVM.new eEntry mem proof)

end Load

/-- One byte replaced, with the bytes that have the same place. -/
def Flat.put (place : U32 → U32 → ℕ) (mem : Flat) (entry : ℕ × U8) : Flat :=
  mem.writeAt (place (BitVec.ofNat 32 entry.1)) .sb (entry.2.setWidth 32)

/-- The bytes of a segment with their addresses, which need not fit in 32 bits. -/
def ProgramHeader.image (data : List U8) (p : ProgramHeader) : List (ℕ × U8) :=
  (((data.take (p.pOffset.toNat + p.pFilesz.toNat)).drop p.pOffset.toNat).zipIdx).map
    fun entry => (p.pVaddr.toNat + entry.2, entry.1)

/-- All bytes that are loaded, in the order of loading. -/
def image (data : List U8) (segments : List ProgramHeader) : List (ℕ × U8) :=
  (loadPhdrs segments).flatMap (·.image data)

section Segment

variable {M P : Type} [Memory M P] {inv : M → Prop} {same : U32 → U32 → Prop}
  {place : U32 → U32 → ℕ} {B : Build}

/-- The sum of an address and an index does not overflow, where this is checked. -/
def InRange (B : Build) (addr : U32) (i : ℕ) : Prop :=
  B.overflowChecks = true → addr.toNat + i % 2 ^ 32 < 2 ^ 32

theorem add_of_inRange {addr : U32} {i : ℕ} (h : InRange B addr i) :
    B.add addr (BitVec.ofNat 32 i) = .ok (addr + BitVec.ofNat 32 i) := by
  rw [Build.add, BitVec.toNat_ofNat, if_neg]
  intro hover
  rw [Bool.and_eq_true, decide_eq_true_eq] at hover
  exact absurd (h hover.1) (not_lt.mpr hover.2)

theorem add_of_not_inRange {addr : U32} {i : ℕ} (h : ¬InRange B addr i) :
    B.add addr (BitVec.ofNat 32 i) = .error .panic := by
  obtain ⟨hchecks, hover⟩ := Classical.not_imp.mp h
  rw [Build.add, BitVec.toNat_ofNat, if_pos]
  rw [Bool.and_eq_true, decide_eq_true_eq]
  exact ⟨hchecks, not_lt.mp hover⟩

variable {vm : NexusVM M P}

/-- A byte is written if its address does not overflow. -/
theorem initByte_eq_ok (hM : Memory.Lined M P inv same place) (hvm : inv vm.mem) {v : ℕ} (b : U8)
    {i : ℕ} (h : InRange B (BitVec.ofNat 32 v) i) :
    ∃ mem, vm.initByte B (BitVec.ofNat 32 v) (b, i) = .ok { vm with mem := mem } ∧ inv mem ∧
      Memory.flat mem = (Memory.flat vm.mem).put place (v + i, b) := by
  have haligned : (BitVec.ofNat 32 v + BitVec.ofNat 32 i).toNat % SOP.sb.width = 0 := Nat.mod_one _
  obtain ⟨path, mem, hstore⟩ := hM.exists_store hvm (b.setWidth 32) haligned
  obtain ⟨hmem, -, hflat⟩ := hM.store_eq hvm hstore
  refine ⟨mem, ?_, hmem, ?_⟩
  · simp only [NexusVM.initByte, add_of_inRange h, bind, Except.bind, hstore]
    rfl
  · rw [hflat, Flat.put, BitVec.ofNat_add]

/-- **The loop of `init_memory`** from an index on: it writes all bytes, or an address overflows. -/
theorem foldlM_initByte (hM : Memory.Lined M P inv same place) {v : ℕ} (bytes : List U8) (k : ℕ)
    (hvm : inv vm.mem) :
    ((∀ i, k ≤ i → i < k + bytes.length → InRange B (BitVec.ofNat 32 v) i) →
      ∃ mem, (bytes.zipIdx k).foldlM (NexusVM.initByte B (BitVec.ofNat 32 v)) vm =
          .ok { vm with mem := mem } ∧ inv mem ∧
        Memory.flat mem = ((bytes.zipIdx k).map fun entry => (v + entry.2, entry.1)).foldl
          (Flat.put place) (Memory.flat vm.mem)) ∧
    ((∃ i, k ≤ i ∧ i < k + bytes.length ∧ ¬InRange B (BitVec.ofNat 32 v) i) →
      (bytes.zipIdx k).foldlM (NexusVM.initByte B (BitVec.ofNat 32 v)) vm = .error .panic) := by
  induction bytes generalizing k vm with
  | nil =>
      constructor
      · exact fun _ => ⟨vm.mem, rfl, hvm, rfl⟩
      · rintro ⟨i, hk, hi, -⟩
        exact absurd hi (not_lt.mpr hk)
  | cons b bytes ih =>
      rw [List.zipIdx_cons, List.foldlM_cons, List.length_cons]
      by_cases hin : InRange B (BitVec.ofNat 32 v) k
      · obtain ⟨mem, hstep, hmem, hflat⟩ := initByte_eq_ok hM hvm b hin
        have hvm' : inv ({ vm with mem := mem } : NexusVM M P).mem := hmem
        obtain ⟨hok, hpanic⟩ := ih (k + 1) hvm'
        rw [hstep]
        constructor
        · intro hall
          obtain ⟨mem', hrest, hmem', hflat'⟩ := hok fun i hk hi => hall i (by omega) (by omega)
          refine ⟨mem', hrest, hmem', ?_⟩
          rw [hflat', hflat, List.map_cons, List.foldl_cons]
        · rintro ⟨i, hk, hi, hout⟩
          have hne : i ≠ k := fun heq => hout (heq ▸ hin)
          exact hpanic ⟨i, by omega, by omega, hout⟩
      · have hstep : vm.initByte B (BitVec.ofNat 32 v) (b, k) = .error .panic := by
          simp only [NexusVM.initByte, add_of_not_inRange hin, bind, Except.bind]
        rw [hstep]
        exact ⟨fun hall => absurd (hall k (le_refl k) (by omega)) hin, fun _ => rfl⟩

/-! ## All segments -/

/-- A segment can be loaded: it lies in the file, and its addresses do not overflow. -/
structure ProgramHeader.Fits (B : Build) (data : List U8) (p : ProgramHeader) : Prop where
  inFile : p.pOffset.toNat + p.pFilesz.toNat ≤ data.length
  inRange : ∀ i < p.pFilesz.toNat, InRange B (BitVec.ofNat 32 p.pVaddr.toNat) i

theorem add64_of_lt {a b : U64} (h : a.toNat + b.toNat < 2 ^ 64) :
    B.add64 a b = .ok (a + b) ∧ (a + b).toNat = a.toNat + b.toNat := by
  constructor
  · rw [Build.add64, if_neg]
    intro hover
    rw [Bool.and_eq_true, decide_eq_true_eq] at hover
    exact absurd h (not_lt.mpr hover.2)
  · rw [BitVec.toNat_add, Nat.mod_eq_of_lt h]

/-- A sum that overflows either panics or is below its terms. -/
theorem add64_of_le {a b : U64} (h : 2 ^ 64 ≤ a.toNat + b.toNat) :
    B.add64 a b = .error .panic ∨ ∃ e, B.add64 a b = .ok e ∧ e.toNat < a.toNat := by
  rw [Build.add64]
  split_ifs with hover
  · exact .inl rfl
  · refine .inr ⟨a + b, rfl, ?_⟩
    have ha := a.isLt
    have hb := b.isLt
    rw [BitVec.toNat_add]
    omega

variable {data : List U8}

theorem slice_of_le {s e : ℕ} (hs : s ≤ e) (he : e ≤ data.length) :
    slice data s e = .ok ((data.take e).drop s) :=
  if_pos ⟨hs, he⟩

theorem slice_of_not {s e : ℕ} (h : s ≤ e → ¬e ≤ data.length) :
    slice data s e = .error .panic :=
  if_neg fun hin => h hin.1 hin.2

/-- **One segment.** -/
theorem initSegment_eq (hM : Memory.Lined M P inv same place) (hdata : data.length < 2 ^ 64)
    (p : ProgramHeader) (hvm : inv vm.mem) :
    (p.Fits B data → ∃ mem, initSegment B data vm p = .ok { vm with mem := mem } ∧ inv mem ∧
      Memory.flat mem = (p.image data).foldl (Flat.put place) (Memory.flat vm.mem)) ∧
    (¬p.Fits B data → initSegment B data vm p = .error .panic) := by
  by_cases hfile : p.pOffset.toNat + p.pFilesz.toNat ≤ data.length
  · obtain ⟨hsum, hval⟩ := add64_of_lt (B := B) (hfile.trans_lt hdata)
    have hlen : ((data.take (p.pOffset.toNat + p.pFilesz.toNat)).drop p.pOffset.toNat).length =
        p.pFilesz.toNat := by
      rw [List.length_drop, List.length_take, min_eq_left hfile, Nat.add_sub_cancel_left]
    have hseg : initSegment B data vm p = vm.initMemory B (BitVec.ofNat 32 p.pVaddr.toNat)
        ((data.take (p.pOffset.toNat + p.pFilesz.toNat)).drop p.pOffset.toNat) := by
      simp only [initSegment, hsum, bind, Except.bind, hval, slice_of_le (Nat.le_add_right _ _)
        hfile, BitVec.ofNat_toNat]
    obtain ⟨hok, hpanic⟩ := foldlM_initByte (B := B) (v := p.pVaddr.toNat) hM
      ((data.take (p.pOffset.toNat + p.pFilesz.toNat)).drop p.pOffset.toNat) 0 hvm
    rw [hlen, Nat.zero_add] at hok hpanic
    rw [hseg]
    constructor
    · exact fun hfits => hok fun i _ hi => hfits.inRange i hi
    · intro hnot
      apply hpanic
      by_contra hall
      push Not at hall
      exact hnot ⟨hfile, fun i hi => hall i (Nat.zero_le i) hi⟩
  · refine ⟨fun hfits => absurd hfits.inFile hfile, fun _ => ?_⟩
    by_cases hlt : p.pOffset.toNat + p.pFilesz.toNat < 2 ^ 64
    · obtain ⟨hsum, hval⟩ := add64_of_lt (B := B) hlt
      simp only [initSegment, hsum, bind, Except.bind, hval,
        slice_of_not fun _ => hfile]
    · rcases add64_of_le (B := B) (not_lt.mp hlt) with hsum | ⟨e, hsum, he⟩
      · simp only [initSegment, hsum, bind, Except.bind]
      · simp only [initSegment, hsum, bind, Except.bind,
          slice_of_not fun hle => absurd he (not_lt.mpr hle)]

/-- **The loop over the segments.** -/
theorem foldlM_initSegment (hM : Memory.Lined M P inv same place) (hdata : data.length < 2 ^ 64)
    (phdrs : List ProgramHeader) (hvm : inv vm.mem) :
    ((∀ p ∈ phdrs, p.Fits B data) → ∃ mem,
      phdrs.foldlM (initSegment B data) vm = .ok { vm with mem := mem } ∧ inv mem ∧
        Memory.flat mem =
          (phdrs.flatMap (·.image data)).foldl (Flat.put place) (Memory.flat vm.mem)) ∧
    ((∃ p ∈ phdrs, ¬p.Fits B data) → phdrs.foldlM (initSegment B data) vm = .error .panic) := by
  induction phdrs generalizing vm with
  | nil =>
      constructor
      · exact fun _ => ⟨vm.mem, rfl, hvm, rfl⟩
      · rintro ⟨p, hp, -⟩
        exact absurd hp List.not_mem_nil
  | cons p phdrs ih =>
      obtain ⟨hok, hpanic⟩ := initSegment_eq (B := B) hM hdata p hvm
      rw [List.foldlM_cons]
      by_cases hfits : p.Fits B data
      · obtain ⟨mem, hstep, hmem, hflat⟩ := hok hfits
        have hvm' : inv ({ vm with mem := mem } : NexusVM M P).mem := hmem
        obtain ⟨ihok, ihpanic⟩ := ih hvm'
        rw [hstep]
        constructor
        · intro hall
          obtain ⟨mem', hrest, hmem', hflat'⟩ := ihok fun q hq => hall q (List.mem_cons_of_mem _ hq)
          refine ⟨mem', hrest, hmem', ?_⟩
          rw [hflat', hflat, List.flatMap_cons, List.foldl_append]
        · rintro ⟨q, hq, hnot⟩
          rcases List.mem_cons.mp hq with rfl | hq
          · exact absurd hfits hnot
          · exact ihpanic ⟨q, hq, hnot⟩
      · rw [hpanic hfits]
        exact ⟨fun hall => absurd (hall p List.mem_cons_self) hfits, fun _ => rfl⟩

end Segment

end NexusVm
