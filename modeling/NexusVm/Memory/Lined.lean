import NexusVm.Memory.Flat

/-!
# Runs of stores

A memory controller whose lines are found by some of the address bits.  Its
bytes after a run of stores are those of a flat memory in which each address has
a place relative to the address of a store.
-/

namespace NexusVm

/-- A store with its address and its value. -/
structure Store where
  sop : SOP
  addr : U32
  val : U32
deriving DecidableEq

/-- A flat memory after some stores; `place a b` is the place of `b` relative to `a`. -/
def Flat.run (place : U32 → U32 → ℕ) (mem : Flat) : List Store → Flat
  | [] => mem
  | s :: stores => Flat.run place (mem.writeAt (place s.addr) s.sop s.val) stores

namespace Memory

variable {M P : Type} [Memory M P]

/-- The byte at each address. -/
def flat (mem : M) : Flat := fun b => (query mem b).1.byte (lineOffset b)

/-- Perform stores one after the other; the first that fails ends the run. -/
def storeAll (mem : M) : List Store → Except NexusVMError M
  | [] => .ok mem
  | s :: stores =>
      match store mem s.sop s.addr s.val with
      | (.error e, _) => .error e
      | (.ok _, mem') => storeAll mem' stores

/-- **A memory of lines.**  `inv` holds of its states, `same` of the addresses
that have one line, and `place` numbers the bytes from an address on. -/
structure Lined (M P : Type) [Memory M P] (inv : M → Prop) (same : U32 → U32 → Prop)
    (place : U32 → U32 → ℕ) : Prop where
  query_congr : ∀ {mem : M} {a b : U32}, inv mem → same a b → (query mem a).1 = (query mem b).1
  same_add : ∀ {a : U32} {w i : ℕ}, w ∣ 4 → a.toNat % w = 0 → i < w →
    same a (a + BitVec.ofNat 32 i)
  place_lt : ∀ {a b : U32} {w : ℕ}, w ∣ 4 → a.toNat % w = 0 →
    (place a b < w ↔ same a b ∧ a.toNat % 32 ≤ b.toNat % 32 ∧ b.toNat % 32 < a.toNat % 32 + w)
  place_eq : ∀ {a b : U32} {w : ℕ}, w ∣ 4 → a.toNat % w = 0 → place a b < w →
    place a b = b.toNat % 32 - a.toNat % 32
  update : ∀ {mem mem' : M} {a : U32} {f : UpdateFn} {path : P}, inv mem →
    Memory.update mem a f = (.ok path, mem') → inv mem' ∧
      ∃ val', f (query mem a).1 = (.ok (), val') ∧
        ∀ b, (same a b → (query mem' b).1 = val') ∧
          (¬ same a b → (query mem' b).1 = (query mem b).1)
  exists_update : ∀ {mem : M} {a : U32} {f : UpdateFn} {val' : CacheLine}, inv mem →
    f (query mem a).1 = (.ok (), val') → ∃ (path : P) (mem' : M),
      Memory.update mem a f = (.ok path, mem')

namespace Lined

variable {inv : M → Prop} {same : U32 → U32 → Prop} {place : U32 → U32 → ℕ}

/-- A load is the flat load of the bytes. -/
theorem load_eq (hM : Lined M P inv same place) {mem : M} (hmem : inv mem) (lop : LOP)
    (addr : U32) : (load mem lop addr).map Prod.fst = (flat mem).load lop addr := by
  have hline : (load mem lop addr).map Prod.fst = (query mem addr).1.load lop addr := by
    show (((query mem addr).1.load lop addr).map fun val => (val, (query mem addr).2)).map
      Prod.fst = _
    cases (query mem addr).1.load lop addr <;> rfl
  rw [hline, CacheLine.load_eq_flat]
  by_cases ha : addr.toNat % lop.width = 0
  · rw [Flat.load_aligned ha, Flat.load_aligned ha]
    congr 1
    apply Flat.value_congr
    intro i hi
    rw [CacheLine.flat, flat, hM.query_congr hmem (hM.same_add lop.width_dvd ha hi)]
  · rw [Flat.load_misaligned ha, Flat.load_misaligned ha]

/-- What a successful store does: it was aligned, and writes its bytes. -/
theorem store_eq (hM : Lined M P inv same place) {mem mem' : M} (hmem : inv mem) {sop : SOP}
    {addr val : U32} {path : P} (hrun : store mem sop addr val = (.ok path, mem')) :
    inv mem' ∧ addr.toNat % sop.width = 0 ∧
      flat mem' = (flat mem).writeAt (place addr) sop val := by
  obtain ⟨hmem', val', hf, hlines⟩ := hM.update hmem hrun
  have ha : addr.toNat % sop.width = 0 := by
    by_contra hne
    rw [CacheLine.store_misaligned _ val hne] at hf
    cases hf
  obtain ⟨cl', hstore, hbytes⟩ := CacheLine.store_aligned (query mem addr).1 val ha
  obtain rfl : cl' = val' := congrArg Prod.snd (hstore.symm.trans hf)
  refine ⟨hmem', ha, funext fun b => ?_⟩
  have hb : lineOffset b < 32 := by
    rw [lineOffset_eq]
    exact Nat.mod_lt _ (by decide)
  have hlt := hM.place_lt (b := b) sop.width_dvd ha
  rw [Flat.writeAt, flat]
  by_cases hsame : same addr b
  · rw [(hlines b).1 hsame, hbytes _ hb, lineOffset_eq, flat, lineOffset_eq,
      hM.query_congr hmem hsame]
    by_cases hplace : place addr b < sop.width
    · rw [if_pos (hlt.mp hplace).2, if_pos hplace, hM.place_eq sop.width_dvd ha hplace]
    · rw [if_neg (fun h => hplace (hlt.mpr ⟨hsame, h⟩)), if_neg hplace]
  · rw [(hlines b).2 hsame, if_neg (fun h => hsame (hlt.mp h).1), flat]

theorem exists_store (hM : Lined M P inv same place) {mem : M} (hmem : inv mem) {sop : SOP}
    {addr : U32} (val : U32) (ha : addr.toNat % sop.width = 0) :
    ∃ (path : P) (mem' : M), store mem sop addr val = (.ok path, mem') := by
  obtain ⟨cl', hstore, -⟩ := CacheLine.store_aligned (query mem addr).1 val ha
  exact hM.exists_update hmem hstore

/-- **The bytes after a run of stores.** -/
theorem flat_storeAll (hM : Lined M P inv same place) {mem mem' : M} (hmem : inv mem)
    {stores : List Store} (hrun : storeAll mem stores = .ok mem') :
    inv mem' ∧ (∀ s ∈ stores, s.addr.toNat % s.sop.width = 0) ∧
      flat mem' = Flat.run place (flat mem) stores := by
  induction stores generalizing mem with
  | nil =>
      obtain rfl := Except.ok.inj hrun
      exact ⟨hmem, fun s hs => absurd hs List.not_mem_nil, rfl⟩
  | cons s stores ih =>
      rw [storeAll] at hrun
      rcases hs : store mem s.sop s.addr s.val with ⟨e | path, mem₁⟩
      · rw [hs] at hrun
        cases hrun
      · rw [hs] at hrun
        obtain ⟨hmem₁, ha, hflat⟩ := hM.store_eq hmem hs
        obtain ⟨hmem', hall, hflat'⟩ := ih hmem₁ hrun
        refine ⟨hmem', List.forall_mem_cons.mpr ⟨ha, hall⟩, ?_⟩
        rw [hflat', hflat, Flat.run]

/-- Aligned stores succeed. -/
theorem exists_storeAll (hM : Lined M P inv same place) {mem : M} (hmem : inv mem)
    {stores : List Store} (ha : ∀ s ∈ stores, s.addr.toNat % s.sop.width = 0) :
    ∃ mem', storeAll mem stores = .ok mem' := by
  induction stores generalizing mem with
  | nil => exact ⟨mem, rfl⟩
  | cons s stores ih =>
      obtain ⟨hs, hrest⟩ := List.forall_mem_cons.mp ha
      obtain ⟨path, mem₁, hstore⟩ := hM.exists_store hmem s.val hs
      obtain ⟨mem', hrun⟩ := ih (hM.store_eq hmem hstore).1 hrest
      refine ⟨mem', ?_⟩
      rw [storeAll, hstore]
      exact hrun

end Lined

end Memory

/-!
## Reading back a store

A load of the width of a store, at its address, yields the bytes that were stored, with
whatever the load does to their sign.
-/

/-- The load that reads what a store writes. -/
def SOP.lop : SOP → LOP
  | .sb => .lb
  | .sh => .lh
  | .sw => .lw

theorem SOP.width_lop (sop : SOP) : sop.lop.width = sop.width := by
  cases sop <;> rfl

/-- The low bits of a load of all bytes that a store wrote. -/
theorem Flat.setWidth_value_writeAt {place : U32 → ℕ} {sop : SOP} {addr : U32} (mem : Flat)
    (val : U32) (h : ∀ i < sop.width, place (addr + BitVec.ofNat 32 i) = i) :
    ((mem.writeAt place sop val).value sop.lop addr).setWidth (8 * sop.width) =
      val.setWidth (8 * sop.width) := by
  have hbyte : ∀ i < sop.width,
      mem.writeAt place sop val (addr + BitVec.ofNat 32 i) = val.extractLsb' (8 * i) 8 := by
    intro i hi
    rw [writeAt, h i hi, if_pos hi]
  have hsign : ∀ {w : ℕ}, w ≤ 32 → ∀ b : BitVec w, (b.signExtend 32).setWidth w = b := by
    intro w hw b
    apply BitVec.eq_of_getLsbD_eq
    intro i hi
    rw [BitVec.getLsbD_setWidth, BitVec.getLsbD_signExtend, decide_eq_true hi, if_pos hi,
      decide_eq_true (hi.trans_le hw), Bool.true_and, Bool.true_and]
  have hjoin : ∀ i m n : ℕ, val.extractLsb' (i + n) m ++ val.extractLsb' i n =
      val.extractLsb' i (m + n) :=
    fun i m n => BitVec.extractLsb'_append_extractLsb'_eq_extractLsb' rfl
  cases sop with
  | sb =>
      have h0 := hbyte 0 (by decide)
      rw [BitVec.add_zero] at h0
      show (BitVec.signExtend 32 (mem.writeAt place .sb val addr)).setWidth 8 = val.setWidth 8
      rw [hsign (by decide), h0, BitVec.setWidth_eq_extractLsb' (by decide)]
  | sh =>
      have h0 := hbyte 0 (by decide)
      rw [BitVec.add_zero] at h0
      have h1 : mem.writeAt place .sh val (addr + 1) = val.extractLsb' 8 8 := hbyte 1 (by decide)
      show (BitVec.signExtend 32 (half (mem.writeAt place .sh val) addr)).setWidth 16 =
        val.setWidth 16
      rw [hsign (by decide), half, h0, h1]
      exact (hjoin 0 8 8).trans (BitVec.setWidth_eq_extractLsb' (by decide)).symm
  | sw =>
      have h0 := hbyte 0 (by decide)
      rw [BitVec.add_zero] at h0
      have h1 : mem.writeAt place .sw val (addr + 1) = val.extractLsb' 8 8 := hbyte 1 (by decide)
      have h2 : mem.writeAt place .sw val (addr + 2) = val.extractLsb' 16 8 := hbyte 2 (by decide)
      have h3 : mem.writeAt place .sw val (addr + 3) = val.extractLsb' 24 8 := hbyte 3 (by decide)
      have hlow : val.extractLsb' 8 8 ++ val.extractLsb' 0 8 = val.extractLsb' 0 16 := hjoin 0 8 8
      have hhigh : val.extractLsb' 24 8 ++ val.extractLsb' 16 8 = val.extractLsb' 16 16 :=
        hjoin 16 8 8
      have hall : val.extractLsb' 16 16 ++ val.extractLsb' 0 16 = val.extractLsb' 0 32 :=
        hjoin 0 16 16
      show (word (mem.writeAt place .sw val) addr).setWidth 32 = val.setWidth 32
      rw [word, h0, h1, h2, h3, hhigh, hlow, hall, BitVec.extractLsb'_eq_self]

/-- A store depends on the low bits of its value only. -/
theorem CacheLine.store_congr (cl : CacheLine) {sop : SOP} (addr : U32) {val val' : U32}
    (h : val.setWidth (8 * sop.width) = val'.setWidth (8 * sop.width)) :
    cl.store sop addr val = cl.store sop addr val' := by
  cases sop with
  | sb => exact congrArg (cl.sb addr) h
  | sh => exact congrArg (cl.sh addr) h
  | sw =>
      have heq : val = val' := by
        have hfull : val.setWidth 32 = val'.setWidth 32 := h
        rwa [BitVec.setWidth_eq, BitVec.setWidth_eq] at hfull
      rw [heq]

namespace Memory

variable {M P : Type} [Memory M P]

theorem store_congr (mem : M) {sop : SOP} (addr : U32) {val val' : U32}
    (h : val.setWidth (8 * sop.width) = val'.setWidth (8 * sop.width)) :
    store mem sop addr val = store mem sop addr val' := by
  unfold store
  congr 1
  funext cl
  exact cl.store_congr addr h

/-- **What a store wrote can be read back**, up to the extension of its sign. -/
theorem Lined.load_store {inv : M → Prop} {same : U32 → U32 → Prop} {place : U32 → U32 → ℕ}
    (hM : Lined M P inv same place) {mem mem' : M} (hmem : inv mem) {sop : SOP} {addr val : U32}
    {path : P} (hrun : store mem sop addr val = (.ok path, mem')) :
    ∃ val' proof, load mem' sop.lop addr = .ok (val', proof) ∧
      val'.setWidth (8 * sop.width) = val.setWidth (8 * sop.width) := by
  obtain ⟨hmem', ha, hflat⟩ := hM.store_eq hmem hrun
  have hload := hM.load_eq hmem' sop.lop addr
  rw [Flat.load_aligned (by rw [sop.width_lop, ha])] at hload
  have hplace : ∀ i < sop.width, place addr (addr + BitVec.ofNat 32 i) = i := by
    intro i hi
    have hoff := CacheLine.lineOffset_add sop.width_dvd ha hi
    rw [lineOffset_eq] at hoff
    have hlt := (hM.place_lt sop.width_dvd ha).mpr
      ⟨hM.same_add sop.width_dvd ha hi, by omega, by omega⟩
    rw [hM.place_eq sop.width_dvd ha hlt]
    omega
  cases hres : load mem' sop.lop addr with
  | error e =>
      rw [hres] at hload
      cases hload
  | ok out =>
      rw [hres] at hload
      refine ⟨out.1, out.2, rfl, ?_⟩
      have hval : out.1 = (flat mem').value sop.lop addr := Except.ok.inj hload
      rw [hval, hflat, Flat.setWidth_value_writeAt (flat mem) val hplace]

end Memory

end NexusVm
