import NexusVm.Circuit.Unsound

/-!
# Opened lines

The lines that a step opens are not tied to the addresses: neither the fetched
word nor the loaded unit is the one at the address, the directions of the paths
are arbitrary, and the line that is written has nothing to do with the one read.
-/

namespace NexusVm.Circuit

open NexusVm.Builder

/-- The unit of `bits` bits at a byte address in an opened line. -/
def unitAt {p : ℕ} (lo hi : ZMod p) (bits : ℕ) (addr : U32) : ℕ :=
  (lo.val + 2 ^ 128 * hi.val) / 2 ^ (8 * (addr.toNat % 32)) % 2 ^ bits

/-- The directions of the path to the line of an address, from the leaf upwards. -/
def lineDirs (addr : U32) : List Bool := (List.range cacheLog).map fun i => !addr.getLsbD (5 + i)

/-- Width in bits of a load. -/
def loadBits : LOP → ℕ
  | .lb | .lbu => 8
  | .lh | .lhu => 16
  | .lw => 32

/-- Width in bits of a store. -/
def storeBits : SOP → ℕ
  | .sb => 8
  | .sh => 16
  | .sw => 32

/-- A line with the low `bits` bits of `y` stored at a byte address. -/
def storeLine {p : ℕ} (bits : ℕ) (addr y : U32) (line : ZMod p × ZMod p) : ZMod p × ZMod p :=
  let n := line.1.val + 2 ^ 128 * line.2.val
  let unit := 2 ^ (8 * (addr.toNat % 32))
  let n' := n - n / unit % 2 ^ bits * unit + y.toNat % 2 ^ bits * unit
  ((n' % 2 ^ 128 : ℕ), (n' / 2 ^ 128 : ℕ))

/-- The loaded value of a unit. -/
def loadExtend (lop : LOP) (v : ℕ) : U32 :=
  match lop with
  | .lb => (BitVec.ofNat 8 v).signExtend 32
  | .lh => (BitVec.ofNat 16 v).signExtend 32
  | .lw | .lbu | .lhu => BitVec.ofNat 32 v

section Properties

variable {p : ℕ} [Fact p.Prime]

/-- The instruction is the word at `pc` in the opened line. -/
def FetchedWord (H : HashGadget p) (w : Witness (Path p)) (cs : R1CS Var (ZMod p)) (pc : U32) :
    Prop :=
  ∀ z auths, Accepts H w cs z auths → z (cs.var .pc) = (pc.toNat : ZMod p) →
    z (cs.var .inst) =
      (unitAt (z (cs.var (.lo .pcMem))) (z (cs.var (.hi .pcMem))) 32 pc : ZMod p)

/-- The path of the instruction's line is that of `pc`. -/
def FetchedPath (H : HashGadget p) (w : Witness (Path p)) (cs : R1CS Var (ZMod p)) (pc : U32) :
    Prop :=
  ∀ z auths, Accepts H w cs z auths → z (cs.var .pc) = (pc.toNat : ZMod p) →
    auths.pc.map Prod.fst = lineDirs pc

/-- The instruction fetch is sound at `pc`. -/
def FetchSound (H : HashGadget p) (w : Witness (Path p)) (cs : R1CS Var (ZMod p)) (pc : U32) :
    Prop :=
  FetchedWord H w cs pc ∧ FetchedPath H w cs pc

/-- A selected load at `X + I` gives the value in the opened line. -/
def LoadedValue (H : HashGadget p) (w : Witness (Path p)) (cs : R1CS Var (ZMod p)) (lop : LOP)
    (x i : U32) : Prop :=
  ∀ z auths, Accepts H w cs z auths → z (cs.var (.is .J (RV32.load lop 0 0 0).indexJ)) = 1 →
    z (cs.var .X) = (x.toNat : ZMod p) → z (cs.var .I) = (i.toNat : ZMod p) →
    z (cs.var .Z) = ((loadExtend lop (unitAt (z (cs.var (.lo .readMem)))
      (z (cs.var (.hi .readMem))) (loadBits lop) (x + i))).toNat : ZMod p)

/-- The address of a selected load is aligned. -/
def LoadAligned (H : HashGadget p) (w : Witness (Path p)) (cs : R1CS Var (ZMod p)) (lop : LOP)
    (x i : U32) : Prop :=
  ∀ z auths, Accepts H w cs z auths → z (cs.var (.is .J (RV32.load lop 0 0 0).indexJ)) = 1 →
    z (cs.var .X) = (x.toNat : ZMod p) → z (cs.var .I) = (i.toNat : ZMod p) →
    (x + i).toNat % (loadBits lop / 8) = 0

/-- The path of a selected load is that of its address. -/
def LoadedPath (H : HashGadget p) (w : Witness (Path p)) (cs : R1CS Var (ZMod p)) (lop : LOP)
    (x i : U32) : Prop :=
  ∀ z auths, Accepts H w cs z auths → z (cs.var (.is .J (RV32.load lop 0 0 0).indexJ)) = 1 →
    z (cs.var .X) = (x.toNat : ZMod p) → z (cs.var .I) = (i.toNat : ZMod p) →
    auths.read.map Prod.fst = lineDirs (x + i)

/-- A selected load at `X + I` is sound. -/
def LoadSound (H : HashGadget p) (w : Witness (Path p)) (cs : R1CS Var (ZMod p)) (lop : LOP)
    (x i : U32) : Prop :=
  LoadedValue H w cs lop x i ∧ LoadAligned H w cs lop x i ∧ LoadedPath H w cs lop x i

/-- A selected store of `y` at `x + i` leads to the root of the memory in which
nothing but the addressed bytes of the addressed line has changed. -/
def StoreSound (H : HashGadget p) (w : Witness (Path p)) (cs : R1CS Var (ZMod p)) (sop : SOP)
    (x y i : U32) : Prop :=
  ∀ z auths, Accepts H w cs z auths → z (cs.var (.is .J (RV32.store sop 0 0 0).indexJ)) = 1 →
    z (cs.var .X) = (x.toNat : ZMod p) → z (cs.var .Y) = (y.toNat : ZMod p) →
    z (cs.var .I) = (i.toNat : ZMod p) → ∀ line auth, auth.map Prod.fst = lineDirs (x + i) →
      verifyCircuit H auth (z (cs.var .root)) line →
      verifyCircuit H auth (z (cs.var .ROOT)) (storeLine (storeBits sop) (x + i) y line)

/-- With selector `j` the memory does not change. -/
def FrameSound (H : HashGadget p) (w : Witness (Path p)) (cs : R1CS Var (ZMod p)) (j : ℕ) : Prop :=
  ∀ z auths, Accepts H w cs z auths → z (cs.var (.is .J j)) = 1 →
    z (cs.var .ROOT) = z (cs.var .root)

variable {w : Witness (Path p)} {cs : R1CS Var (ZMod p)}

/-- Paths of the lengths of a witness, all in one direction. -/
def straight (w : Witness (Path p)) (b : Bool) : Auths p where
  pc := List.replicate w.pcProof.auth.length (b, 0)
  read := List.replicate w.readProof.auth.length (b, 0)
  write := List.replicate w.writeProof.auth.length (b, 0)

theorem straight_fit (w : Witness (Path p)) (b : Bool) : (straight w b).Fit w := by
  refine ⟨?_, ?_, ?_⟩ <;> simp [straight]

/-- The paths of a witness have the height of the memory. -/
structure FullHeight (w : Witness (Path p)) : Prop where
  pc : w.pcProof.auth.length = cacheLog
  read : w.readProof.auth.length = cacheLog
  write : w.writeProof.auth.length = cacheLog

theorem FullHeight.same (h : FullHeight w) (b : Bool) :
    (straight w b).read = (straight w b).pc := by
  rw [straight, h.read, h.pc]

/-- **A sound draft is accepted with straight paths.** -/
theorem exists_straight (hp : 2 ^ 32 < p) (hw : FullHeight w) (h : step w false = some cs)
    (H : HashGadget p) {d : Draft p} (hd : d.Sound) (b : Bool) :
    ∃ z, Accepts H w cs z (straight w b) ∧ ∀ n ∈ mainNames, z (cs.var n) =
      val (d.close H (straight w b)).witness (d.close H (straight w b)).f n :=
  exists_accepts hp h hd.close (Draft.close_verified (hw.same b)) (straight_fit w b)

/-- Straight paths do not all have the directions of one address. -/
theorem straight_ne {n : ℕ} (hn : 0 < n) (dirs : List Bool)
    (h : ∀ b, (List.replicate n (b, (0 : ZMod p))).map Prod.fst = dirs) : False := by
  have htf := (h true).trans (h false).symm
  cases n with
  | zero => omega
  | succ n => simp [List.replicate_succ] at htf

/-- **The fetch is not tied to `pc`**: at no address, for no hash functions. -/
theorem fetch_unsound (hp : 2 ^ 32 < p) (hw : FullHeight w) (h : step w false = some cs)
    (H : HashGadget p) (pc : U32) : ¬ FetchedWord H w cs pc ∧ ¬ FetchedPath H w cs pc := by
  have hparse : parseU32 0x13 = some (.alui .add 0 0 0) := by decide
  have hd : (plain ⟨pc, fun _ => 0⟩ 0x13 19 0 : Draft p).Sound :=
    plain_sound hp (by decide) (by decide)
  refine ⟨fun hs => ?_, fun hs => ?_⟩
  · obtain ⟨z, hacc, hval⟩ := exists_straight hp hw h H hd true
    have hinst := hs z _ hacc (hval .pc (by decide))
    have hlo : z (cs.var (.lo .pcMem)) = 0 := hval _ (by decide)
    have hhi : z (cs.var (.hi .pcMem)) = 0 := hval _ (by decide)
    have hword : z (cs.var .inst) = ((0x13#32).toNat : ZMod p) := hval .inst (by decide)
    have hzero : unitAt (0 : ZMod p) 0 32 pc = (0#32).toNat := by
      simp [unitAt]
    rw [hlo, hhi, hword, hzero] at hinst
    exact absurd (word_inj hp hinst) (by decide)
  · refine straight_ne (p := p) (n := w.pcProof.auth.length) (by rw [hw.pc]; decide) (lineDirs pc)
      fun b => ?_
    obtain ⟨z, hacc, hval⟩ := exists_straight hp hw h H hd b
    exact hs z _ hacc (hval .pc (by decide))

theorem idle_fullHeight : FullHeight (idle : Draft p).witness :=
  ⟨List.length_replicate, List.length_replicate, List.length_replicate⟩

/-- Hash functions that add. -/
def addHash : HashGadget p := ⟨fun l => l.1 + 2 * l.2, fun l r => 2 * l + r⟩

/-- The circuit of the idle step with hash functions that add. -/
theorem fetch_unsound_idle :
    ∃ cs : R1CS Var (ZMod prime521), step (idle : Draft prime521).witness false = some cs ∧
      ¬ FetchSound addHash (idle : Draft prime521).witness cs 0 := by
  obtain ⟨cs, hcs⟩ := idle_built word_lt_prime521
  refine ⟨cs, hcs, fun hs => ?_⟩
  exact (fetch_unsound word_lt_prime521 idle_fullHeight hcs _ 0).1 hs.1

/-- `addi x0, x0, 0` is accepted as the instruction at address `0` of a memory of zeros. -/
theorem fetch_forged :
    ∃ cs : R1CS Var (ZMod prime521), step (idle : Draft prime521).witness false = some cs ∧
      ∃ z auths, Accepts addHash (idle : Draft prime521).witness cs z auths ∧
        z (cs.var .pc) = 0 ∧ z (cs.var (.lo .pcMem)) = 0 ∧ z (cs.var (.hi .pcMem)) = 0 ∧
        z (cs.var .inst) = ((0x13 : ℕ) : ZMod prime521) := by
  obtain ⟨cs, hcs⟩ := idle_built word_lt_prime521
  obtain ⟨z, hacc, hval⟩ := exists_straight word_lt_prime521 idle_fullHeight hcs addHash idle_sound
    true
  exact ⟨cs, hcs, z, _, hacc, (hval .pc (by decide)).trans Nat.cast_zero, hval _ (by decide),
    hval _ (by decide), hval .inst (by decide)⟩

/-- A word for each load, with no operands. -/
def loadWord : LOP → U32
  | .lb => 0x00000003
  | .lh => 0x00001003
  | .lw => 0x00002003
  | .lbu => 0x00004003
  | .lhu => 0x00005003

theorem parse_loadWord (lop : LOP) : parseU32 (loadWord lop) = some (.load lop 0 0 0) := by
  cases lop <;> decide

/-- A load from a line that starts with `v`, whose unit is taken at index `k`. -/
def loadDraft (lop : LOP) (x i : U32) (k : ℕ) (v : ZMod p) : Draft p :=
  let d : Draft p := plain ⟨0, fun _ => x⟩ (loadWord lop) (RV32.load lop 0 0 0).indexJ i
  { d with f := { d.f with unit := fun _ => k }, readProof := ⟨0, (v, v), []⟩ }

variable {v : ZMod p}

theorem loadDraft_sound (hp : 2 ^ 32 < p) (lop : LOP) (x i : U32) {k : ℕ} (hk : k < 4)
    (hv : v.val < 2 ^ 128) : (loadDraft lop x i k v).Sound := by
  have hparse := parse_loadWord lop
  have hd : (plain ⟨0, fun _ => x⟩ (loadWord lop) (RV32.load lop 0 0 0).indexJ i : Draft p).Sound :=
    plain_sound hp (opcode_mem_of_parse hparse) (decodes_of_parse hparse)
  have hJ : 11 ≤ (RV32.load lop 0 0 0).indexJ ∧ (RV32.load lop 0 0 0).indexJ ≤ 15 := by
    cases lop <;> decide
  have hstore : ∀ {j : ℕ}, 16 ≤ j → (RV32.load lop 0 0 0).indexJ = j → False := by
    intro j hj he
    omega
  refine ⟨hd.opcode, hd.decodes, hd.sub, hd.subi, hd.eqXY, hd.eqXI, fun width hw => ?_, hv, hv,
    hd.writeLo, hd.writeHi, fun he => (hstore (by omega) he).elim,
    fun he => (hstore (by omega) he).elim, fun he => (hstore (by omega) he).elim⟩
  show k < 128 / width
  fin_cases hw <;> omega

theorem loadDraft_chosen {lop : LOP} {x i : U32} {k width : ℕ} {H : HashGadget p} {auths : Auths p} :
    chosen ((loadDraft lop x i k v).close H auths).pre ((loadDraft lop x i k v).close H auths).f
      ((loadDraft lop x i k v).close H auths).readProof width = unitOf v width k := by
  have hhalf : lineHalf ((loadDraft lop x i k v).close H auths).pre
      ((loadDraft lop x i k v).close H auths).readProof = v := by
    unfold lineHalf
    split_ifs <;> rfl
  rw [chosen, hhalf]
  rfl

/-- `sx` is sign extension. -/
theorem signExtend_unit {n v : ℕ} (hn : n < 31) (hv : v < 2 ^ (n + 1)) :
    BitVec.ofNat 32 (signExtend n v) = (BitVec.ofNat (n + 1) v).signExtend 32 := by
  have hpow : 2 ^ (n + 1) ≤ 2 ^ 31 := Nat.pow_le_pow_right (by omega) (by omega)
  have hsucc : 2 ^ (n + 1) = 2 * 2 ^ n := by rw [pow_succ, Nat.mul_comm]
  have hdiv := Nat.div_add_mod v (2 ^ n)
  have hmsb : (BitVec.ofNat (n + 1) v).msb = v.testBit n := by
    rw [BitVec.msb_eq_getLsbD_last, BitVec.getLsbD_ofNat, Nat.add_sub_cancel]
    simp
  have hbit : v.testBit n = decide (v / 2 ^ n % 2 = 1) := Nat.testBit_eq_decide_div_mod_eq
  have hq : v / 2 ^ n < 2 := Nat.div_lt_of_lt_mul (by omega)
  refine BitVec.eq_of_toNat_eq ?_
  rw [BitVec.toNat_signExtend, hmsb, BitVec.toNat_setWidth, BitVec.toNat_ofNat, BitVec.toNat_ofNat,
    Nat.mod_eq_of_lt (signExtend_lt (by omega)), Nat.mod_eq_of_lt hv, Nat.mod_eq_of_lt (by omega),
    signExtend, hbit]
  generalize v / 2 ^ n = q at hdiv hq
  obtain rfl | rfl : q = 0 ∨ q = 1 := by omega
  · rw [Nat.mul_zero] at hdiv
    simp only [Nat.zero_mod, zero_ne_one, decide_false, Bool.false_eq_true, if_false]
    omega
  · rw [Nat.mul_one] at hdiv
    simp only [Nat.one_mod, decide_true, if_true]
    omega

/-- The value that a load draft gives. -/
theorem loadDraft_Z {lop : LOP} {x i : U32} {k : ℕ} {H : HashGadget p} {auths : Auths p} :
    ((loadDraft lop x i k v).close H auths).witness.Z =
      loadExtend lop (unitOf v (loadBits lop) k) := by
  cases lop with
  | lb =>
    exact (congrArg (fun n => BitVec.ofNat 32 (signExtend 7 n)) loadDraft_chosen).trans
      (signExtend_unit (by omega) (Nat.mod_lt _ (Nat.two_pow_pos _)))
  | lh =>
    exact (congrArg (fun n => BitVec.ofNat 32 (signExtend 15 n)) loadDraft_chosen).trans
      (signExtend_unit (by omega) (Nat.mod_lt _ (Nat.two_pow_pos _)))
  | lw => exact congrArg (BitVec.ofNat 32) loadDraft_chosen
  | lbu => exact congrArg (BitVec.ofNat 32) loadDraft_chosen
  | lhu => exact congrArg (BitVec.ofNat 32) loadDraft_chosen

/-- A unit other than the one at an offset, in a line whose halves are both `1`. -/
def wrongUnit (offset : ℕ) : ℕ := if offset % 16 = 0 then 1 else 0

theorem wrongUnit_ne : ∀ (lop : LOP) (offset : Fin 32),
    loadExtend lop (1 / 2 ^ (loadBits lop * wrongUnit offset.val) % 2 ^ loadBits lop) ≠
      loadExtend lop ((1 + 2 ^ 128 * 1) / 2 ^ (8 * offset.val) % 2 ^ loadBits lop) := by
  intro lop
  cases lop <;> decide +kernel

/-- **Loads are not tied to their address**: for no load and no operands is the
value determined by the opened line, nor is the path; a load of more than a byte
is accepted at addresses that are not aligned. -/
theorem load_unsound (hp : 2 ^ 32 < p) (hw : FullHeight w) (h : step w false = some cs)
    (H : HashGadget p) (lop : LOP) :
    (∀ x i, ¬ LoadedValue H w cs lop x i) ∧ (∀ x i, ¬ LoadedPath H w cs lop x i) ∧
      ∀ x i, (x + i).toNat % (loadBits lop / 8) ≠ 0 → ¬ LoadAligned H w cs lop x i := by
  have hsel : ∀ {x i : U32} {k : ℕ} {v : ZMod p} {auths : Auths p},
      val ((loadDraft lop x i k v).close H auths).witness
        ((loadDraft lop x i k v).close H auths).f (.is .J (RV32.load lop 0 0 0).indexJ) = 1 :=
    if_pos rfl
  have hname : Var.is .J (RV32.load lop 0 0 0).indexJ ∈ mainNames := by cases lop <;> decide
  have hone : (1 : ZMod p).val = 1 := by
    rw [ZMod.val_one_eq_one_mod, Nat.mod_eq_of_lt (by omega)]
  have hzero : (0 : ZMod p).val < 2 ^ 128 := by
    rw [ZMod.val_zero]
    positivity
  refine ⟨fun x i hs => ?_, fun x i hs => ?_, fun x i hne hs => ?_⟩
  · have hlt : (x + i).toNat % 32 < 32 := Nat.mod_lt _ (by decide)
    have hk : wrongUnit ((x + i).toNat % 32) < 4 := by
      unfold wrongUnit
      split_ifs <;> decide
    have hd : (loadDraft lop x i (wrongUnit ((x + i).toNat % 32)) (1 : ZMod p)).Sound :=
      loadDraft_sound hp lop x i hk (by rw [hone]; decide)
    obtain ⟨z, hacc, hval⟩ := exists_straight hp hw h H hd true
    have hZ := hs z _ hacc ((hval _ hname).trans hsel) (hval .X (by decide)) (hval .I (by decide))
    have hlo : z (cs.var (.lo .readMem)) = 1 := hval _ (by decide)
    have hhi : z (cs.var (.hi .readMem)) = 1 := hval _ (by decide)
    have hout := hval .Z (by decide)
    rw [hlo, hhi, hout] at hZ
    have heq := loadDraft_Z.symm.trans (word_inj hp hZ)
    rw [unitOf, unitAt, hone] at heq
    exact wrongUnit_ne lop ⟨_, hlt⟩ heq
  · refine straight_ne (p := p) (n := w.readProof.auth.length) ?_ (lineDirs (x + i)) fun b => ?_
    · rw [hw.read]
      decide
    · obtain ⟨z, hacc, hval⟩ := exists_straight hp hw h H
        (loadDraft_sound hp lop x i (k := 0) (by omega) hzero) b
      exact hs z _ hacc ((hval _ hname).trans hsel) (hval .X (by decide)) (hval .I (by decide))
  · obtain ⟨z, hacc, hval⟩ := exists_straight hp hw h H
      (loadDraft_sound hp lop x i (k := 0) (by omega) hzero) true
    exact hne (hs z _ hacc ((hval _ hname).trans hsel) (hval .X (by decide)) (hval .I (by decide)))

/-- The circuit of the idle step with hash functions that add: no `lw` is sound. -/
theorem load_unsound_idle :
    ∃ cs : R1CS Var (ZMod prime521), step (idle : Draft prime521).witness false = some cs ∧
      ¬ LoadSound addHash (idle : Draft prime521).witness cs .lw 0 0 := by
  obtain ⟨cs, hcs⟩ := idle_built word_lt_prime521
  refine ⟨cs, hcs, fun hs => ?_⟩
  exact (load_unsound word_lt_prime521 idle_fullHeight hcs _ .lw).1 0 0 hs.1

/-- `lw` at address `1` is accepted, with the low word of the line. -/
theorem load_forged :
    ∃ cs : R1CS Var (ZMod prime521), step (idle : Draft prime521).witness false = some cs ∧
      ∃ z auths, Accepts addHash (idle : Draft prime521).witness cs z auths ∧
        z (cs.var (.is .J 13)) = 1 ∧ z (cs.var .X) = 0 ∧ z (cs.var .I) = 1 ∧
        z (cs.var (.lo .readMem)) = 1 ∧ z (cs.var (.hi .readMem)) = 1 ∧ z (cs.var .Z) = 1 ∧
        unitAt (1 : ZMod prime521) 1 32 1 = 0 := by
  obtain ⟨cs, hcs⟩ := idle_built word_lt_prime521
  have hone : (1 : ZMod prime521).val = 1 := by
    rw [ZMod.val_one_eq_one_mod, Nat.mod_eq_of_lt (by have := word_lt_prime521; omega)]
  have hd : (loadDraft .lw 0 1 0 (1 : ZMod prime521)).Sound :=
    loadDraft_sound word_lt_prime521 .lw 0 1 (by decide) (by rw [hone]; decide)
  obtain ⟨z, hacc, hval⟩ := exists_straight word_lt_prime521 idle_fullHeight hcs addHash hd true
  refine ⟨cs, hcs, z, _, hacc, hval _ (by decide), (hval .X (by decide)).trans Nat.cast_zero,
    (hval .I (by decide)).trans Nat.cast_one, hval _ (by decide), hval _ (by decide), ?_, ?_⟩
  · rw [hval .Z (by decide)]
    show (((loadDraft .lw 0 1 0 (1 : ZMod prime521)).close _ _).witness.Z.toNat : ZMod prime521) = 1
    rw [loadDraft_Z, unitOf, hone]
    exact Nat.cast_one
  · rw [unitAt, hone]
    decide

/-! ## Stores -/

/-- A path for each of the three proofs, to the line of an address, with a free
digest at the top of the one that is written. -/
def aimed (addr : U32) (d : ZMod p) : Auths p where
  pc := (lineDirs addr).map (·, 0)
  read := (lineDirs addr).map (·, 0)
  write := List.replicate (cacheLog - 1) (true, 0) ++ [(true, d)]

theorem aimed_fit (hw : FullHeight w) (addr : U32) (d : ZMod p) : (aimed addr d).Fit w where
  pc := by simp [aimed, lineDirs, hw.pc]
  read := by simp [aimed, lineDirs, hw.read]
  write := by
    rw [hw.write, aimed, List.length_append, List.length_replicate]
    rfl

theorem aimed_dirs (addr : U32) (d : ZMod p) :
    (aimed addr d).read.map Prod.fst = lineDirs addr := by
  simp [aimed, Function.comp_def]

omit [Fact p.Prime] in
/-- A climb ends with the last digest. -/
theorem climbCircuit_concat (H : HashGadget p) (auth : List (Bool × ZMod p)) (hash d : ZMod p) :
    climbCircuit H hash (auth ++ [(true, d)]) = H.compress (climbCircuit H hash auth) d := by
  induction auth generalizing hash with
  | nil => rfl
  | cons bd auth ih => exact ih _

/-- **Any draft is accepted with a free output root.** -/
theorem exists_aimed (hp : 2 ^ 32 < p) (hw : FullHeight w) (h : step w false = some cs)
    {H : HashGadget p} (hH : ∀ a, Function.Injective (H.compress a)) {d : Draft p} (hd : d.Sound)
    (addr : U32) (root : ZMod p) :
    ∃ z auths v, Accepts H w cs z auths ∧ z (cs.var .ROOT) ≠ root ∧
      verifyCircuit H ((lineDirs addr).map (·, 0)) (z (cs.var .root)) d.readProof.leaf ∧
      ∀ n ∈ mainNames, z (cs.var n) =
        val (d.close H (aimed addr v)).witness (d.close H (aimed addr v)).f n := by
  have haccept : ∀ v : ZMod p, ∃ z, Accepts H w cs z (aimed addr v) ∧ ∀ n ∈ mainNames,
      z (cs.var n) = val (d.close H (aimed addr v)).witness (d.close H (aimed addr v)).f n :=
    fun v => exists_accepts hp h hd.close (Draft.close_verified rfl) (aimed_fit hw addr v)
  have hROOT : ∀ v : ZMod p, val (d.close H (aimed addr v)).witness (d.close H (aimed addr v)).f
      .ROOT = H.compress (climbCircuit H (H.leaf d.writeProof.leaf)
        (List.replicate (cacheLog - 1) (true, 0))) v :=
    fun v => climbCircuit_concat H _ _ v
  obtain ⟨v, hv⟩ : ∃ v : ZMod p, H.compress (climbCircuit H (H.leaf d.writeProof.leaf)
      (List.replicate (cacheLog - 1) (true, 0))) v ≠ root := by
    by_contra hall
    push Not at hall
    exact zero_ne_one (hH _ ((hall 0).trans (hall 1).symm))
  obtain ⟨z, hacc, hval⟩ := haccept v
  refine ⟨z, _, v, hacc, ?_, ?_, hval⟩
  · rw [hval .ROOT (by decide), hROOT]
    exact hv
  · rw [hval .root (by decide)]
    exact rfl

/-- `sb`, `sh` and `sw` with base `x1` and source `x2`. -/
def storeInst : SOP → U32
  | .sb => 0x00208023
  | .sh => 0x00209023
  | .sw => 0x0020a023

theorem parse_storeInst (sop : SOP) : parseU32 (storeInst sop) = some (.store sop 1 2 0) := by
  cases sop <;> decide

/-- A store with two given operands. -/
def storeDraft (sop : SOP) (x y i : U32) : Draft p :=
  plain (twoRegs x y) (storeInst sop) (RV32.store sop 1 2 0).indexJ i

theorem storeDraft_X (sop : SOP) (x y i : U32) : (storeDraft sop x y i : Draft p).X = x := by
  have hx : Fin.ofNat 32 (if (opcode (storeInst sop)).toNat ∈ [opcLui, opcAuipc, opcJal, opcEcall]
      then 0 else rs1 (storeInst sop)).toNat = 1 := by cases sop <;> decide
  show (twoRegs x y).x (Fin.ofNat 32 (if (opcode (storeInst sop)).toNat ∈
    [opcLui, opcAuipc, opcJal, opcEcall] then 0 else rs1 (storeInst sop)).toNat) = x
  rw [hx]
  rfl

theorem storeDraft_Y (sop : SOP) (x y i : U32) : (storeDraft sop x y i : Draft p).Y = y := by
  have hy : Fin.ofNat 32 (if (opcode (storeInst sop)).toNat ∈ [opcBr, opcStore, opcAlu]
      then rs2 (storeInst sop) else 0).toNat = 2 := by cases sop <;> decide
  show (twoRegs x y).x (Fin.ofNat 32 (if (opcode (storeInst sop)).toNat ∈
    [opcBr, opcStore, opcAlu] then rs2 (storeInst sop) else 0).toNat) = y
  rw [hy]
  rfl

/-- **The output root is free**: for no store and no operands does it follow from
the input root, and no other instruction forces it to stay. -/
theorem store_unsound (hp : 2 ^ 32 < p) (hw : FullHeight w) (h : step w false = some cs)
    {H : HashGadget p} (hH : ∀ a, Function.Injective (H.compress a)) :
    (∀ sop x y i, ¬ StoreSound H w cs sop x y i) ∧
      ∀ word i, parseU32 word = some i → ¬ FrameSound H w cs i.indexJ := by
  refine ⟨fun sop x y i hs => ?_, fun word i hparse hs => ?_⟩
  · have hparse := parse_storeInst sop
    have hd : (storeDraft sop x y i : Draft p).Sound :=
      plain_sound hp (opcode_mem_of_parse hparse) (decodes_of_parse hparse)
    have hname : Var.is .J (RV32.store sop 0 0 0).indexJ ∈ mainNames := by cases sop <;> decide
    have hcast : ∀ {a b : U32}, a = b → (a.toNat : ZMod p) = (b.toNat : ZMod p) :=
      fun h => by rw [h]
    have hX := hcast (storeDraft_X (p := p) sop x y i)
    have hY := hcast (storeDraft_Y (p := p) sop x y i)
    obtain ⟨z, auths, v, hacc, hROOT, hroot, hval⟩ := exists_aimed hp hw h hH hd (x + i)
      (climbCircuit H (H.leaf (storeLine (storeBits sop) (x + i) y (0, 0)))
        ((lineDirs (x + i)).map (·, 0)))
    have hsel : z (cs.var (.is .J (RV32.store sop 0 0 0).indexJ)) = 1 :=
      (hval _ hname).trans (if_pos (by cases sop <;> rfl))
    refine hROOT (hs z auths hacc hsel ((hval .X (by decide)).trans hX)
      ((hval .Y (by decide)).trans hY) (hval .I (by decide)) (0, 0) _ ?_ hroot).symm
    exact aimed_dirs (p := p) (x + i) 0
  · have hd : (plain (twoRegs 0 0) word i.indexJ 0 : Draft p).Sound :=
      plain_sound hp (opcode_mem_of_parse hparse) (decodes_of_parse hparse)
    have hname := isJ_mem_mainNames i
    obtain ⟨z, auths, v, hacc, hROOT, hroot, hval⟩ := exists_aimed hp hw h hH hd 0
      (climbCircuit H (H.leaf ((0 : ZMod p), (0 : ZMod p))) ((lineDirs 0).map (·, 0)))
    exact hROOT ((hs z auths hacc ((hval _ hname).trans (if_pos rfl))).trans hroot.symm)

theorem addHash_injective (a : ZMod p) :
    Function.Injective ((addHash : HashGadget p).compress a) :=
  add_right_injective (2 * a)

/-- The circuit of the idle step with hash functions that add: `sw` is not sound. -/
theorem store_unsound_idle :
    ∃ cs : R1CS Var (ZMod prime521), step (idle : Draft prime521).witness false = some cs ∧
      ¬ StoreSound addHash (idle : Draft prime521).witness cs .sw 0 0 0 := by
  obtain ⟨cs, hcs⟩ := idle_built word_lt_prime521
  exact ⟨cs, hcs,
    (store_unsound word_lt_prime521 idle_fullHeight hcs addHash_injective).1 .sw 0 0 0⟩

/-- `addi x0, x0, 0` is accepted with a change of the memory's root. -/
theorem store_forged :
    ∃ cs : R1CS Var (ZMod prime521), step (idle : Draft prime521).witness false = some cs ∧
      ∃ z auths, Accepts addHash (idle : Draft prime521).witness cs z auths ∧
        z (cs.var (.is .J 19)) = 1 ∧ z (cs.var .ROOT) ≠ z (cs.var .root) := by
  obtain ⟨cs, hcs⟩ := idle_built word_lt_prime521
  obtain ⟨z, auths, v, hacc, hROOT, hroot, hval⟩ := exists_aimed word_lt_prime521 idle_fullHeight
    hcs addHash_injective idle_sound 0
    (climbCircuit addHash (addHash.leaf ((0 : ZMod prime521), 0)) ((lineDirs 0).map (·, 0)))
  have hsel : z (cs.var (.is .J 19)) = 1 := by
    rw [hval _ (by decide)]
    rfl
  refine ⟨cs, hcs, z, auths, hacc, hsel, fun heq => ?_⟩
  exact hROOT (heq.trans hroot.symm)

end Properties

end NexusVm.Circuit
