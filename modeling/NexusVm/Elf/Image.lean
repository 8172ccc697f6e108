import NexusVm.Elf.Load
import NexusVm.Memory.Alias

/-!
# The image of an ELF file

What the memory holds after `init_vm`, and for which files it is the image that the program headers
describe.
-/

namespace NexusVm

/-- The byte that a segment has for an address, if its file range covers it. -/
def ProgramHeader.byteAt (data : List U8) (addr : ℕ) (p : ProgramHeader) : Option U8 :=
  if p.pVaddr.toNat ≤ addr ∧ addr < p.pVaddr.toNat + p.pFilesz.toNat then
    data[p.pOffset.toNat + (addr - p.pVaddr.toNat)]?
  else none

/-- **The image**: the byte of the last segment that covers the address, or zero. -/
def imageByte (elf : ElfBytes) (data : List U8) (addr : ℕ) : U8 :=
  ((loadPhdrs (elf.segments.getD [])).reverse.findSome? (·.byteAt data addr)).getD 0

/-- The last byte that is written to one of the addresses. -/
def written (image : List (ℕ × U8)) (covers : ℕ → Prop) [DecidablePred covers] : Option U8 :=
  image.reverse.findSome? fun entry => if covers entry.1 then some entry.2 else none

section Written

variable {covers : ℕ → Prop} [DecidablePred covers]

theorem written_append (xs ys : List (ℕ × U8)) :
    written (xs ++ ys) covers = (written ys covers).or (written xs covers) := by
  rw [written, List.reverse_append, List.findSome?_append, written, written]

theorem written_singleton (a : ℕ) (b : U8) :
    written [(a, b)] covers = if covers a then some b else none := by
  rw [written, List.reverse_singleton, List.findSome?_cons]
  split_ifs <;> rfl

theorem written_congr {covers' : ℕ → Prop} [DecidablePred covers'] {image : List (ℕ × U8)}
    (h : ∀ entry ∈ image, covers entry.1 ↔ covers' entry.1) :
    written image covers = written image covers' := by
  induction image using List.reverseRecOn with
  | nil => rfl
  | append_singleton image entry ih =>
      obtain ⟨hinit, hlast⟩ := List.forall_mem_append.mp h
      rw [written_append, written_append, ih hinit, written_singleton, written_singleton]
      congr 1
      exact if_congr (hlast entry List.mem_cons_self) rfl rfl

/-- The addresses of a segment end with its file range. -/
theorem lt_of_mem_image {data : List U8} {p : ProgramHeader} {entry : ℕ × U8}
    (h : entry ∈ p.image data) : entry.1 < p.pVaddr.toNat + p.pFilesz.toNat := by
  obtain ⟨⟨b, i⟩, hmem, rfl⟩ := List.mem_map.mp h
  have hi := (List.mem_zipIdx hmem).2.1
  rw [List.length_drop, List.length_take] at hi
  show p.pVaddr.toNat + i < _
  omega

variable {place : U32 → U32 → ℕ}

theorem put_apply (mem : Flat) (a : ℕ) (b : U8) (c : U32) :
    mem.put place (a, b) c = if place (BitVec.ofNat 32 a) c < 1 then b else mem c := by
  rw [Flat.put, Flat.writeAt]
  by_cases hplace : place (BitVec.ofNat 32 a) c < 1
  · have hlow : (b.setWidth 32).extractLsb' 0 8 = b := by
      rw [← BitVec.setWidth_eq_extractLsb' (by decide),
        BitVec.setWidth_setWidth_of_le _ (by decide), BitVec.setWidth_eq]
    have hfirst : place (BitVec.ofNat 32 a) c < SOP.sb.width := hplace
    rw [if_pos hplace, if_pos hfirst, Nat.lt_one_iff.mp hplace, Nat.mul_zero, hlow]
  · have hfirst : ¬place (BitVec.ofNat 32 a) c < SOP.sb.width := hplace
    rw [if_neg hplace, if_neg hfirst]

/-- **Bytes after a run of writes.** -/
theorem foldl_put {c : U32} (hplace : ∀ a, place (BitVec.ofNat 32 a) c < 1 ↔ covers a)
    (image : List (ℕ × U8)) (mem : Flat) :
    image.foldl (Flat.put place) mem c = (written image covers).getD (mem c) := by
  induction image using List.reverseRecOn with
  | nil => rfl
  | append_singleton image entry ih =>
      obtain ⟨a, b⟩ := entry
      rw [List.foldl_append, List.foldl_cons, List.foldl_nil, put_apply, written_append,
        written_singleton]
      by_cases ha : covers a
      · rw [if_pos ((hplace a).mpr ha), if_pos ha]
        rfl
      · rw [if_neg fun h => ha ((hplace a).mp h), if_neg ha, ih]
        rfl

/-- Consecutive addresses are written once each. -/
theorem written_zipIdx (bytes : List U8) (v addr : ℕ) :
    written (bytes.zipIdx.map fun entry => (v + entry.2, entry.1)) (· = addr) =
      if v ≤ addr then bytes[addr - v]? else none := by
  induction bytes using List.reverseRecOn with
  | nil => simp [written]
  | append_singleton bytes b ih =>
      rw [List.zipIdx_append, List.map_append, written_append, ih]
      simp only [List.zipIdx_cons, List.zipIdx_nil, List.map_cons, List.map_nil, written_singleton,
        Nat.zero_add]
      by_cases hv : v ≤ addr
      · rw [if_pos hv, if_pos hv]
        by_cases haddr : v + bytes.length = addr
        · subst haddr
          simp
        · have hindex : addr - v ≠ bytes.length := by omega
          rw [if_neg haddr, Option.none_or, List.getElem?_append]
          split_ifs with hlt
          · rfl
          · rw [List.getElem?_eq_none (not_lt.mp hlt), List.getElem?_eq_none]
            simp only [List.length_singleton]
            omega
      · rw [if_neg hv, if_neg hv, if_neg (by omega)]
        rfl

theorem written_image (data : List U8) (p : ProgramHeader) (addr : ℕ) :
    written (p.image data) (· = addr) = p.byteAt data addr := by
  rw [ProgramHeader.image, written_zipIdx, ProgramHeader.byteAt, List.getElem?_drop,
    List.getElem?_take]
  by_cases hv : p.pVaddr.toNat ≤ addr
  · rw [if_pos hv]
    exact if_congr (by omega) rfl rfl
  · rw [if_neg hv, if_neg fun h => hv h.1]

/-- At its very addresses what is loaded is the image. -/
theorem written_eq_imageByte (elf : ElfBytes) (data : List U8) (addr : ℕ) :
    (written (image data (elf.segments.getD [])) (· = addr)).getD 0 = imageByte elf data addr := by
  rw [imageByte, image]
  congr 1
  induction loadPhdrs (elf.segments.getD []) using List.reverseRecOn with
  | nil => rfl
  | append_singleton phdrs p ih =>
      rw [List.flatMap_append, written_append, ih, List.flatMap_cons, List.flatMap_nil,
        List.append_nil, written_image, List.reverse_append, List.reverse_singleton,
        List.singleton_append, List.findSome?_cons]
      cases p.byteAt data addr <;> rfl

end Written

/-! ## What is loaded -/

/-- **What loading a file promises** for a memory controller with this empty memory: in each build
there is no panic, so that nothing overflows where this is checked, and a machine that is returned
starts at the entry point and has the image in its memory. -/
def Loads {M P : Type} [Memory M P] (mem : M) (proof : P) (elf : ElfBytes) (data : List U8) :
    Prop :=
  ∀ B : Build, initVm B mem proof elf data ≠ .error .panic ∧
    ∀ vm, initVm B mem proof elf data = .ok vm → vm.regs.pc.toNat = elf.eEntry.toNat ∧
      ∀ addr : U32, Memory.flat vm.mem addr = imageByte elf data addr.toNat

/-- **A file that can be loaded** into a memory that tells addresses apart modulo `m`: each segment
lies in the file and in the address space, and no address gets a byte of another one. -/
structure Loadable (m : ℕ) (elf : ElfBytes) (data : List U8) : Prop where
  table : elf.segments.isSome
  entry : elf.eEntry.toNat < 2 ^ 32
  inFile : ∀ p ∈ loadPhdrs (elf.segments.getD []),
    p.pOffset.toNat + p.pFilesz.toNat ≤ data.length
  inRange : ∀ p ∈ loadPhdrs (elf.segments.getD []), p.pFilesz.toNat = 0 ∨
    p.pVaddr.toNat % 2 ^ 32 = 0 ∨ p.pVaddr.toNat % 2 ^ 32 + p.pFilesz.toNat ≤ 2 ^ 32
  -- the last byte whose address looks like this one is the byte of the image
  distinct : ∀ addr : U32, (written (image data (elf.segments.getD []))
    (· % m = addr.toNat % m)).getD 0 = imageByte elf data addr.toNat

/-- A segment fits in both builds. -/
theorem fits_iff {data : List U8} {p : ProgramHeader} :
    (∀ B, p.Fits B data) ↔ p.pOffset.toNat + p.pFilesz.toNat ≤ data.length ∧
      (p.pFilesz.toNat = 0 ∨ p.pVaddr.toNat % 2 ^ 32 = 0 ∨
        p.pVaddr.toNat % 2 ^ 32 + p.pFilesz.toNat ≤ 2 ^ 32) := by
  constructor
  · intro h
    refine ⟨(h ⟨true⟩).inFile, ?_⟩
    by_contra hnot
    push Not at hnot
    obtain ⟨hpos, hbase, hover⟩ := hnot
    -- the first index whose address is not a `u32`
    have hin := (h ⟨true⟩).inRange (2 ^ 32 - p.pVaddr.toNat % 2 ^ 32) (by omega) rfl
    rw [BitVec.toNat_ofNat] at hin
    omega
  · rintro ⟨hfile, hrange⟩ B
    refine ⟨hfile, fun i hi _ => ?_⟩
    rw [BitVec.toNat_ofNat]
    omega

section Loads

variable {M P : Type} [Memory M P] {inv : M → Prop} {same : U32 → U32 → Prop}
  {place : U32 → U32 → ℕ} {m : ℕ}

/-- **Which files are loaded**, by a memory controller that tells addresses apart modulo `m`. -/
theorem loads_iff (hM : Memory.Lined M P inv same place)
    (hplace : ∀ (a : ℕ) (c : U32), place (BitVec.ofNat 32 a) c < 1 ↔ a % m = c.toNat % m)
    {mem : M} (hmem : inv mem) (hzero : Memory.flat mem = Flat.zero) (proof : P) {elf : ElfBytes}
    {data : List U8} (hdata : data.length < 2 ^ 64) :
    Loads mem proof elf data ↔ Loadable m elf data := by
  obtain ⟨eEntry, segments⟩ := elf
  cases segments with
  | none =>
      constructor
      · exact fun h => absurd rfl (h ⟨true⟩).1
      · exact fun h => absurd h.table (by simp)
  | some segments =>
      have hrun : ∀ B, initVm B mem proof ⟨eEntry, some segments⟩ data =
          (loadPhdrs segments).foldlM (initSegment B data)
            (NexusVM.new (eEntry.setWidth 32) mem proof) := fun B => rfl
      have hvm : inv (NexusVM.new (eEntry.setWidth 32) mem proof).mem := hmem
      have hloop := fun B => foldlM_initSegment (B := B) hM hdata (loadPhdrs segments) hvm
      have hbytes : ∀ {mem' : M}, Memory.flat mem' = ((loadPhdrs segments).flatMap
          (·.image data)).foldl (Flat.put place) (Memory.flat mem) → ∀ addr,
          Memory.flat mem' addr =
            (written (image data segments) (· % m = addr.toNat % m)).getD 0 := by
        intro mem' hflat addr
        rw [hflat, foldl_put (hplace · addr), hzero]
        rfl
      constructor
      · intro h
        have hfits : ∀ p ∈ loadPhdrs segments, ∀ B, p.Fits B data := by
          intro p hp B
          by_contra hnot
          exact (h B).1 ((hrun B).trans ((hloop B).2 ⟨p, hp, hnot⟩))
        obtain ⟨mem', hok, -, hflat⟩ := (hloop ⟨true⟩).1 fun p hp => hfits p hp _
        obtain ⟨hpc, himage⟩ := (h ⟨true⟩).2 _ ((hrun _).trans hok)
        constructor
        · rfl
        · have hlt := (eEntry.setWidth 32).isLt
          have hentry : (eEntry.setWidth 32).toNat = eEntry.toNat := hpc
          rwa [hentry] at hlt
        · exact fun p hp => (fits_iff.mp (hfits p hp)).1
        · exact fun p hp => (fits_iff.mp (hfits p hp)).2
        · exact fun addr => (hbytes hflat addr).symm.trans (himage addr)
      · intro h B
        obtain ⟨mem', hok, -, hflat⟩ :=
          (hloop B).1 fun p hp => fits_iff.mpr ⟨h.inFile p hp, h.inRange p hp⟩ B
        rw [hrun, hok]
        refine ⟨(fun hpanic => nomatch hpanic), fun vm hvm => ?_⟩
        obtain rfl := Except.ok.inj hvm
        constructor
        · show (eEntry.setWidth 32).toNat = eEntry.toNat
          rw [BitVec.toNat_setWidth, Nat.mod_eq_of_lt h.entry]
        · exact fun addr => (hbytes hflat addr).trans (h.distinct addr)

/-- Segments with addresses of 32 bits are the image of a memory of all addresses. -/
theorem loadable_of_fit {elf : ElfBytes} {data : List U8} (htable : elf.segments.isSome)
    (hentry : elf.eEntry.toNat < 2 ^ 32)
    (hfile : ∀ p ∈ loadPhdrs (elf.segments.getD []),
      p.pOffset.toNat + p.pFilesz.toNat ≤ data.length)
    (hfit : ∀ p ∈ loadPhdrs (elf.segments.getD []),
      p.pVaddr.toNat + p.pFilesz.toNat ≤ 2 ^ 32) :
    Loadable (2 ^ 32) elf data := by
  refine ⟨htable, hentry, hfile, fun p hp => ?_, fun addr => ?_⟩
  · have hle := hfit p hp
    omega
  · rw [← written_eq_imageByte]
    congr 1
    apply written_congr
    intro entry hentry
    obtain ⟨p, hp, hmem⟩ := List.mem_flatMap.mp hentry
    have hlt := (lt_of_mem_image hmem).trans_le (hfit p hp)
    rw [Nat.mod_eq_of_lt hlt, Nat.mod_eq_of_lt addr.isLt]

end Loads

theorem place32_lt_one (a : ℕ) (c : U32) :
    place32 (BitVec.ofNat 32 a) c < 1 ↔ a % 2 ^ 32 = c.toNat % 2 ^ 32 := by
  have hc := c.isLt
  rw [place32, BitVec.toNat_sub, BitVec.toNat_ofNat]
  omega

theorem place31_lt_one (a : ℕ) (c : U32) :
    place31 (BitVec.ofNat 32 a) c < 1 ↔ a % 2 ^ 31 = c.toNat % 2 ^ 31 := by
  have hc := c.isLt
  rw [place31, BitVec.toNat_sub, BitVec.toNat_ofNat]
  omega

/-- **Which files `init_vm` loads as they should be**: with `Paged` those that can be loaded into a
memory of all addresses, with the trie those that can be loaded into one of half the size. -/
theorem initVm_loads_iff {p : ℕ} {params : Params p} {H : ZMod p × ZMod p → ZMod p}
    {K : ZMod p → ZMod p → ZMod p} (hp : params.Total H K) {t : MerkleTrie p}
    (ht : MerkleTrie.default params = .ok t) (proof : UncheckedMemory p) (path : Path p)
    (elf : ElfBytes) {data : List U8} (hdata : data.length < 2 ^ 64) :
    (Loads (⟨Paged.empty⟩ : PagedMemory p) proof elf data ↔ Loadable (2 ^ 32) elf data) ∧
      (Loads t path elf data ↔ Loadable (2 ^ 31) elf data) := by
  constructor
  · exact loads_iff (paged_lined p) place32_lt_one trivial rfl proof hdata
  · exact loads_iff (trie_lined hp) place31_lt_one (MerkleTrie.Consistent.default hp ht)
      (MerkleTrie.flat_default hp ht) path hdata

/-- Two segments, the second over the first. -/
def overlapping : ElfBytes :=
  ⟨0x1000, some [⟨PT_LOAD, 0, 0x1000, 3⟩, ⟨PT_LOAD, 1, 0x1001, 1⟩]⟩

theorem initVm_loads_overlapping :
    Loads (⟨Paged.empty⟩ : PagedMemory 7) ⟨0, 0⟩ overlapping [1, 2, 3] := by
  have hloads := initVm_loads_iff (MerkleTrie.sumParams_total 7)
    (MerkleTrie.default_eq (MerkleTrie.sumParams_total 7))
    ⟨0, 0⟩ ⟨0, (0, 0), []⟩ overlapping (show ([1, 2, 3] : List U8).length < 2 ^ 64 by decide)
  exact hloads.1.mpr (loadable_of_fit rfl (by decide) (by decide) (by decide))

/-- A file without a segment table, a segment that ends behind the file, one whose end is no `u64`,
one that ends behind the address space, and an entry point of 33 bits. -/
theorem loads_fails :
    ¬Loads (⟨Paged.empty⟩ : PagedMemory 7) ⟨0, 0⟩ ⟨0, none⟩ [1, 2] ∧
      ¬Loads (⟨Paged.empty⟩ : PagedMemory 7) ⟨0, 0⟩ ⟨0, some [⟨PT_LOAD, 0, 0, 3⟩]⟩ [1, 2] ∧
      ¬Loads (⟨Paged.empty⟩ : PagedMemory 7) ⟨0, 0⟩
        ⟨0, some [⟨PT_LOAD, 0xffffffffffffffff, 0, 2⟩]⟩ [1, 2] ∧
      ¬Loads (⟨Paged.empty⟩ : PagedMemory 7) ⟨0, 0⟩
        ⟨0, some [⟨PT_LOAD, 0, 0xffffffff, 2⟩]⟩ [1, 2] ∧
      ¬Loads (⟨Paged.empty⟩ : PagedMemory 7) ⟨0, 0⟩ ⟨0x100000000, some []⟩ [1, 2] := by
  refine ⟨fun h => (h ⟨false⟩).1 rfl, fun h => (h ⟨false⟩).1 rfl, fun h => (h ⟨false⟩).1 rfl,
    fun h => (h ⟨true⟩).1 rfl, fun h => ?_⟩
  exact absurd ((h ⟨false⟩).2 _ rfl).1 (by decide)

end NexusVm
