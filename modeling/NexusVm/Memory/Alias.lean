import NexusVm.Memory.Lined
import NexusVm.Memory.Merkle

/-!
# Flat views of the memory controllers

`Paged` is a flat memory.  The Merkle trie goes by the address bits from `4` to
`30`, so that it is a flat memory of half the size: an address and the one that
differs from it in bit `31` are one cell.
-/

namespace NexusVm

/-- The place of `b` relative to `a` in a memory of all addresses. -/
def place32 (a b : U32) : ℕ := (b - a).toNat

/-- The place of `b` relative to `a` in a memory without the address bit `31`. -/
def place31 (a b : U32) : ℕ := (b - a).toNat % 2 ^ 31

theorem toNat_add_ofNat (a : U32) (i : ℕ) :
    (a + BitVec.ofNat 32 i).toNat = (a.toNat + i) % 2 ^ 32 := by
  rw [BitVec.toNat_add, BitVec.toNat_ofNat, Nat.add_mod_mod]

namespace Paged

theorem pageOf_eq_iff (a b : U32) : pageOf a = pageOf b ↔ a.toNat / 4096 = b.toNat / 4096 := by
  rw [← BitVec.toNat_inj, pageOf, pageOf, BitVec.toNat_ushiftRight, BitVec.toNat_ushiftRight,
    Nat.shiftRight_eq_div_pow, Nat.shiftRight_eq_div_pow]

theorem offsetOf_val (a : U32) : (offsetOf a).val = a.toNat / 32 % 128 := by
  have hmask : (0x7f : U32).toNat = 2 ^ 7 - 1 := by decide
  rw [offsetOf, Fin.val_ofNat, BitVec.toNat_and, hmask, Nat.and_two_pow_sub_one_eq_mod,
    BitVec.toNat_ushiftRight, Nat.shiftRight_eq_div_pow, Nat.mod_mod]

theorem offsetOf_eq_iff (a b : U32) :
    offsetOf a = offsetOf b ↔ a.toNat / 32 % 128 = b.toNat / 32 % 128 := by
  rw [Fin.ext_iff, offsetOf_val, offsetOf_val]

/-- Two addresses in one line of a page. -/
def SameLine (a b : U32) : Prop := a.toNat / 32 = b.toNat / 32

theorem sameLine_iff (a b : U32) :
    SameLine a b ↔ pageOf a = pageOf b ∧ offsetOf a = offsetOf b := by
  rw [pageOf_eq_iff, offsetOf_eq_iff, SameLine]
  omega

theorem line_congr (mem : Paged) {a b : U32} (h : SameLine a b) : mem.line a = mem.line b := by
  obtain ⟨hpage, hoff⟩ := (sameLine_iff a b).mp h
  rw [line, line, hpage, hoff]

theorem line_of_tree {mem : Paged} {b : U32} {arr : Fin 128 → CacheLine}
    (h : mem.tree (pageOf b) = some arr) : mem.line b = arr (offsetOf b) := by
  rw [line, h]

/-- The lines of the page that an update allocates. -/
theorem page_apply (mem : Paged) (b : U32) :
    ((mem.tree (pageOf b)).getD fun _ => CacheLine.zero) (offsetOf b) = mem.line b := by
  rw [line]
  cases mem.tree (pageOf b) <;> rfl

/-- Memory with one line replaced. -/
def setLine (mem : Paged) (a : U32) (cl : CacheLine) : Paged :=
  ⟨Function.update mem.tree (pageOf a) (some (Function.update
    ((mem.tree (pageOf a)).getD fun _ => CacheLine.zero) (offsetOf a) cl))⟩

theorem updateLine_eq (mem : Paged) (a : U32) (f : UpdateFn) :
    mem.updateLine a f =
      ((f (mem.line a)).1.map fun _ => (f (mem.line a)).2, mem.setLine a (f (mem.line a)).2) := by
  rw [updateLine]
  dsimp only
  rw [page_apply]
  rfl

theorem tree_setLine (mem : Paged) (a : U32) (cl : CacheLine) :
    (mem.setLine a cl).tree (pageOf a) = some (Function.update
      ((mem.tree (pageOf a)).getD fun _ => CacheLine.zero) (offsetOf a) cl) :=
  Function.update_self ..

theorem line_setLine (mem : Paged) (a : U32) (cl : CacheLine) (b : U32) :
    (SameLine a b → (mem.setLine a cl).line b = cl) ∧
      (¬ SameLine a b → (mem.setLine a cl).line b = mem.line b) := by
  constructor
  · intro hsame
    rw [← line_congr _ hsame, line_of_tree (tree_setLine mem a cl), Function.update_self]
  · intro hsame
    by_cases hpage : pageOf b = pageOf a
    · have hoff : offsetOf b ≠ offsetOf a := fun hoff =>
        hsame ((sameLine_iff a b).mpr ⟨hpage.symm, hoff.symm⟩)
      have htree := tree_setLine mem a cl
      rw [← hpage] at htree
      rw [line_of_tree htree, Function.update_of_ne hoff, page_apply]
    · have htree : (mem.setLine a cl).tree (pageOf b) = mem.tree (pageOf b) :=
        Function.update_of_ne hpage ..
      rw [line, htree, line]

/-- A successful update replaces one line. -/
theorem updateLine_eq_ok {mem mem' : Paged} {a : U32} {f : UpdateFn} {cl : CacheLine} :
    mem.updateLine a f = (.ok cl, mem') ↔
      f (mem.line a) = (.ok (), cl) ∧ mem' = mem.setLine a cl := by
  rw [updateLine_eq]
  rcases f (mem.line a) with ⟨e | ⟨⟩, cl'⟩
  · constructor
    · intro h
      cases h
    · rintro ⟨h, -⟩
      cases h
  · constructor
    · intro h
      cases h
      exact ⟨rfl, rfl⟩
    · rintro ⟨h, rfl⟩
      cases h
      rfl

end Paged

/-- **`Paged` is flat.** -/
theorem paged_lined (p : ℕ) :
    Memory.Lined (PagedMemory p) (UncheckedMemory p) (fun _ => True) Paged.SameLine place32 where
  query_congr _ h := Paged.line_congr _ h
  same_add {a w i} hw ha hi := by
    have hlt := a.isLt
    rw [Paged.SameLine, toNat_add_ofNat]
    rcases CacheLine.width_cases hw with rfl | rfl | rfl <;> omega
  place_lt {a b w} hw ha := by
    have hlt := a.isLt
    have hlt' := b.isLt
    rw [Paged.SameLine, place32, BitVec.toNat_sub]
    rcases CacheLine.width_cases hw with rfl | rfl | rfl <;> omega
  place_eq {a b w} hw ha h := by
    have hlt := a.isLt
    have hlt' := b.isLt
    rw [place32, BitVec.toNat_sub] at *
    rcases CacheLine.width_cases hw with rfl | rfl | rfl <;> omega
  update {mem mem' a f path} _ hrun := by
    have hupdate : Memory.update mem a f = ((mem.mem.updateLine a f).1.map fun cl =>
      (⟨cl.scalars p⟩ : UncheckedMemory p), (⟨(mem.mem.updateLine a f).2⟩ : PagedMemory p)) := rfl
    rw [hupdate] at hrun
    rcases hline : mem.mem.updateLine a f with ⟨e | cl, mem₁⟩
    · rw [hline] at hrun
      cases hrun
    · rw [hline] at hrun
      cases hrun
      obtain ⟨hf, rfl⟩ := Paged.updateLine_eq_ok.mp hline
      exact ⟨trivial, cl, hf, fun b => Paged.line_setLine mem.mem a cl b⟩
  exists_update {mem a f val'} _ hf := by
    refine ⟨⟨val'.scalars p⟩, ⟨mem.mem.setLine a val'⟩, ?_⟩
    have hline := Paged.updateLine_eq_ok.mpr ⟨hf, rfl⟩
    have hupdate : Memory.update mem a f = ((mem.mem.updateLine a f).1.map fun cl =>
      (⟨cl.scalars p⟩ : UncheckedMemory p), (⟨(mem.mem.updateLine a f).2⟩ : PagedMemory p)) := rfl
    rw [hupdate, hline]
    rfl

/-! ## The trie -/

namespace MerkleTrie

/-- The turns are the address bits from `4` to `30`. -/
theorem sameTurns_iff (a b : U32) :
    SameTurns a b ↔ a.toNat % 2 ^ 31 / 16 = b.toNat % 2 ^ 31 / 16 := by
  have hlog : cacheLog = 27 := rfl
  have hextract : SameTurns a b ↔ b.extractLsb' 4 27 = a.extractLsb' 4 27 := by
    constructor
    · intro h
      apply BitVec.eq_of_getLsbD_eq
      intro i hi
      rw [BitVec.getLsbD_extractLsb', BitVec.getLsbD_extractLsb', h i (hlog ▸ hi)]
    · intro h i hi
      have hbit := congrArg (BitVec.getLsbD · i) h
      have hlt : i < 27 := hlog ▸ hi
      rwa [BitVec.getLsbD_extractLsb', BitVec.getLsbD_extractLsb', decide_eq_true hlt,
        Bool.true_and, Bool.true_and] at hbit
  rw [hextract, ← BitVec.toNat_inj, BitVec.extractLsb'_toNat, BitVec.extractLsb'_toNat,
    Nat.shiftRight_eq_div_pow, Nat.shiftRight_eq_div_pow]
  omega

theorem query_congr {p : ℕ} (t : MerkleTrie p) {a b : U32} (h : SameTurns a b) :
    (t.query a).1 = (t.query b).1 := by
  rw [query_eq, query_eq]
  apply Node.lineAt_congr
  intro i hi
  rw [turns_reverse a hi, turns_reverse b hi, h i hi]

end MerkleTrie

/-- **The trie is flat, but for the address bit `31`.** -/
theorem trie_lined {p : ℕ} {params : Params p} {H : ZMod p × ZMod p → ZMod p}
    {K : ZMod p → ZMod p → ZMod p} (hp : params.Total H K) :
    Memory.Lined (MerkleTrie p) (Path p) (MerkleTrie.Consistent params H K) MerkleTrie.SameTurns
      place31 where
  query_congr _ h := MerkleTrie.query_congr _ h
  same_add {a w i} hw ha hi := by
    have hlt := a.isLt
    rw [MerkleTrie.sameTurns_iff, toNat_add_ofNat]
    rcases CacheLine.width_cases hw with rfl | rfl | rfl <;> omega
  place_lt {a b w} hw ha := by
    have hlt := a.isLt
    have hlt' := b.isLt
    rw [MerkleTrie.sameTurns_iff, place31, BitVec.toNat_sub]
    rcases CacheLine.width_cases hw with rfl | rfl | rfl <;> omega
  place_eq {a b w} hw ha h := by
    have hlt := a.isLt
    have hlt' := b.isLt
    rw [place31, BitVec.toNat_sub] at *
    rcases CacheLine.width_cases hw with rfl | rfl | rfl <;> omega
  update hmem hrun := by
    obtain ⟨val', hf, hline⟩ := MerkleTrie.query_update hp hmem hrun
    refine ⟨(hmem.update hp hrun).1, val', hf, fun b => ⟨fun hsame => ?_, fun hsame => ?_⟩⟩
    · exact (hline b).trans (if_pos hsame)
    · exact (hline b).trans (if_neg hsame)
  exists_update hmem hf := MerkleTrie.exists_update hp hmem hf

namespace MerkleTrie

variable {p : ℕ} {params : Params p} {H : ZMod p × ZMod p → ZMod p}
  {K : ZMod p → ZMod p → ZMod p}

variable {t : MerkleTrie p}

theorem flat_default (hp : params.Total H K) (ht : MerkleTrie.default params = .ok t) :
    Memory.flat t = Flat.zero := by
  rw [default_eq hp] at ht
  obtain rfl := Except.ok.inj ht
  funext b
  have hline : ((⟨none, ((List.range (cacheLog + 1)).map (zeroDigest H K)).reverse, params⟩ :
      MerkleTrie p).query b).1 = CacheLine.zero := by
    rw [query_eq]
    exact Node.lineAt_none _
  show (MerkleTrie.query _ b).1.byte (lineOffset b) = 0
  rw [hline]
  rfl

/-- The trie that some stores make of the empty one. -/
def ofStores (params : Params p) (stores : List Store) : Except NexusVMError (MerkleTrie p) := do
  Memory.storeAll (← MerkleTrie.default params) stores

/-- The bytes after some stores. -/
theorem flat_ofStores (hp : params.Total H K) {stores : List Store}
    (ht : ofStores params stores = .ok t) :
    Consistent params H K t ∧ (∀ s ∈ stores, s.addr.toNat % s.sop.width = 0) ∧
      Memory.flat t = Flat.run place31 Flat.zero stores := by
  have hdefault := default_eq hp
  rw [ofStores, hdefault] at ht
  have hflat := (trie_lined hp).flat_storeAll (Consistent.default hp hdefault) ht
  rw [flat_default hp hdefault] at hflat
  exact hflat

/-- The last store to each byte of the load, or to the byte `2 ^ 31` away from
it, wrote what the last store to the byte wrote. -/
def Intact (stores : List Store) (lop : LOP) (addr : U32) : Prop :=
  addr.toNat % lop.width = 0 → ∀ i < lop.width,
    Flat.run place31 Flat.zero stores (addr + BitVec.ofNat 32 i) =
      Flat.run place32 Flat.zero stores (addr + BitVec.ofNat 32 i)

instance (stores : List Store) (lop : LOP) (addr : U32) : Decidable (Intact stores lop addr) := by
  unfold Intact
  infer_instance

/-- What a store writes to the bytes `2 ^ 31` away from the load is already there. -/
def Spared (stores : List Store) (s : Store) (lop : LOP) (addr : U32) : Prop :=
  addr.toNat % lop.width = 0 → ∀ i < lop.width,
    place31 s.addr (addr + BitVec.ofNat 32 i) < s.sop.width →
      s.val.extractLsb' (8 * place31 s.addr (addr + BitVec.ofNat 32 i)) 8 =
        Flat.run place31 Flat.zero stores (addr + BitVec.ofNat 32 i)

/-- **The trie is the flat memory where no other half shines through.**  After
successful stores a load returns what the flat memory and `Paged` return exactly
if it is intact, and a store beside the load keeps its value exactly if it spares
the bytes `2 ^ 31` away. -/
theorem load_flat_iff (hp : params.Total H K) {stores : List Store}
    (ht : ofStores params stores = .ok t) (lop : LOP) (addr : U32) :
    ((Memory.load t lop addr).map Prod.fst = (Flat.run place32 Flat.zero stores).load lop addr ↔
        Intact stores lop addr) ∧
      (∃ paged : PagedMemory p, Memory.storeAll ⟨Paged.empty⟩ stores = .ok paged ∧
        ((Memory.load t lop addr).map Prod.fst = (Memory.load paged lop addr).map Prod.fst ↔
          Intact stores lop addr)) ∧
      ∀ (s : Store) (path : Path p) (t' : MerkleTrie p),
        Memory.store t s.sop s.addr s.val = (.ok path, t') →
        (∀ i < lop.width, s.sop.width ≤ place32 s.addr (addr + BitVec.ofNat 32 i)) →
        ((Memory.load t' lop addr).map Prod.fst = (Memory.load t lop addr).map Prod.fst ↔
          Spared stores s lop addr) := by
  obtain ⟨hcons, ha, hflat⟩ := flat_ofStores hp ht
  have htrie := trie_lined hp
  have hload := htrie.load_eq hcons lop addr
  rw [hflat] at hload
  refine ⟨?_, ?_, ?_⟩
  · rw [hload]
    exact Flat.load_eq_iff
  · have hpaged := paged_lined p
    obtain ⟨paged, hrun⟩ : ∃ paged : PagedMemory p,
        Memory.storeAll ⟨Paged.empty⟩ stores = .ok paged := hpaged.exists_storeAll trivial ha
    obtain ⟨-, -, hflat'⟩ := hpaged.flat_storeAll trivial hrun
    have hempty : Memory.flat (⟨Paged.empty⟩ : PagedMemory p) = Flat.zero := rfl
    refine ⟨paged, hrun, ?_⟩
    rw [hload, hpaged.load_eq trivial, hflat', hempty]
    exact Flat.load_eq_iff
  · intro s path t' hstore _
    obtain ⟨hcons', -, hflat'⟩ := htrie.store_eq hcons hstore
    rw [hload, htrie.load_eq hcons', hflat', hflat, Flat.load_eq_iff]
    apply forall_congr'
    intro _
    apply forall_congr'
    intro i
    apply forall_congr'
    intro _
    rw [Flat.writeAt]
    by_cases hplace : place31 s.addr (addr + BitVec.ofNat 32 i) < s.sop.width
    · rw [if_pos hplace]
      exact ⟨fun h _ => h, fun h => h hplace⟩
    · rw [if_neg hplace]
      exact iff_of_true rfl fun h => absurd h hplace

theorem exists_ofStores (hp : params.Total H K) (stores : List Store)
    (ha : ∀ s ∈ stores, s.addr.toNat % s.sop.width = 0) :
    ∃ t, ofStores params stores = .ok t := by
  have hdefault := default_eq hp
  rw [ofStores, hdefault]
  exact (trie_lined hp).exists_storeAll (Consistent.default hp hdefault) ha

/-- A byte that is read where it was stored. -/
theorem load_flat_iff_byte : ∃ t : MerkleTrie 7, ofStores (sumParams 7) [⟨.sb, 5, 1⟩] = .ok t ∧
    (Memory.load t .lbu 5).map Prod.fst = .ok 1 := by
  obtain ⟨t, ht⟩ := exists_ofStores (sumParams_total 7) [⟨.sb, 5, 1⟩] (by decide)
  refine ⟨t, ht, ?_⟩
  rw [(load_flat_iff (sumParams_total 7) ht .lbu 5).1.mpr (by decide)]
  rfl

/-- **A byte that shines through**: it was stored at `0` and is read at `2 ^ 31`,
where the flat memory and `Paged` have zero. -/
theorem load_not_flat : ∃ t : MerkleTrie 7, ofStores (sumParams 7) [⟨.sb, 0, 1⟩] = .ok t ∧
    (Memory.load t .lbu 0x80000000).map Prod.fst = .ok 1 ∧
    (Flat.run place32 Flat.zero [⟨.sb, 0, 1⟩]).load .lbu 0x80000000 = .ok 0 := by
  obtain ⟨t, ht⟩ := exists_ofStores (sumParams_total 7) [⟨.sb, 0, 1⟩] (by decide)
  obtain ⟨hcons, -, hflat⟩ := flat_ofStores (sumParams_total 7) ht
  refine ⟨t, ht, ?_, rfl⟩
  rw [(trie_lined (sumParams_total 7)).load_eq hcons, hflat]
  rfl

end MerkleTrie

end NexusVm
