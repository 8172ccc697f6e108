import NexusVm.Spartan.SparseMatEval
import NexusVm.Spartan.Crr1csComplete
import NexusVm.OfflineMemory

/-!
# The prover of sparse evaluations

The memory that `spartan/src/sparse_mlpoly.rs` builds for the entries of matrices, and the products
in which its reads are checked.  With the times of `AddrTimestamps` the products agree for all
challenges exactly if every read has the value of its cell.
-/

namespace NexusVm.Spartan

open Nova OfflineMemory

section Model

variable {F : Type} [Field F]

/-- `AddrTimestamps`. -/
structure AddrTimestamps (F : Type) where
  opsAddrUsize : List (List ℕ)
  opsAddr : List (DensePolynomial F)
  readTs : List (DensePolynomial F)
  auditTs : DensePolynomial F

/-- `DensePolynomial::from_usize`. -/
def fromUsize {E : Type} (Z : List ℕ) : Run E (DensePolynomial F) := denseNew (Z.map Nat.cast)

namespace AddrTimestamps

/-- The reads of one instance in `AddrTimestamps::new`; each leaves a later time in its cell. -/
def readInstance {E : Type} (numCells : ℕ) : List ℕ → List ℕ → Run E (List ℕ × List ℕ)
  | auditTs, [] => .ok ([], auditTs)
  | auditTs, addr :: ops => do
      Run.assert (addr < numCells)
      let rTs := auditTs.getD addr 0
      let rest ← readInstance numCells (auditTs.set addr (rTs + 1)) ops
      .ok (rTs :: rest.1, rest.2)

/-- The instances read one after the other, from the same cells. -/
def readInstances {E : Type} (numCells : ℕ) : List ℕ → List (List ℕ) →
    Run E (List (DensePolynomial F) × List (DensePolynomial F) × List ℕ)
  | auditTs, [] => .ok ([], [], auditTs)
  | auditTs, ops :: opsAddr => do
      let reads ← readInstance numCells auditTs ops
      let addr ← fromUsize ops
      let readTs ← fromUsize reads.1
      let rest ← readInstances numCells reads.2 opsAddr
      .ok (addr :: rest.1, readTs :: rest.2.1, rest.2.2)

/-- `AddrTimestamps::new`. -/
def new {E : Type} (numCells numOps : ℕ) (opsAddr : List (List ℕ)) :
    Run E (AddrTimestamps F) := do
  Run.assert (∀ ops ∈ opsAddr, ops.length = numOps)
  let reads ← readInstances numCells (List.replicate numCells 0) opsAddr
  let auditTs ← fromUsize reads.2.2
  .ok ⟨opsAddr, reads.1, reads.2.1, auditTs⟩

/-- `AddrTimestamps::deref_mem`. -/
def derefMem {E : Type} (addr : List ℕ) (memVal : List F) : Run E (DensePolynomial F) := do
  Run.assert (∀ a ∈ addr, a < memVal.length)
  denseNew (addr.map (memVal.getD · 0))

/-- `AddrTimestamps::deref`; an instance without addresses panics. -/
def deref {E : Type} (t : AddrTimestamps F) (memVal : List F) : Run E (List (DensePolynomial F)) :=
  (List.range t.opsAddr.length).mapM fun i => derefMem (t.opsAddrUsize.getD i []) memVal

end AddrTimestamps

/-- `DensePolynomial::split`. -/
def denseSplit {E : Type} (poly : DensePolynomial F) (idx : ℕ) :
    Run E (DensePolynomial F × DensePolynomial F) := do
  Run.assert (idx < poly.Z.length)
  let left ← denseNew (poly.Z.take idx)
  -- the end of the slice
  Run.assert (2 * idx ≤ poly.Z.length)
  let right ← denseNew ((poly.Z.drop idx).take idx)
  .ok (left, right)

/-- `ProductCircuit`. -/
structure ProductCircuit (F : Type) where
  leftVec : List (DensePolynomial F)
  rightVec : List (DensePolynomial F)

namespace ProductCircuit

/-- `ProductCircuit::compute_layer`. -/
def computeLayer {E : Type} (inpLeft inpRight : DensePolynomial F) :
    Run E (DensePolynomial F × DensePolynomial F) := do
  let len := inpLeft.Z.length + inpRight.Z.length
  -- the indices
  Run.assert (len / 2 ≤ inpLeft.Z.length ∧ len / 2 ≤ inpRight.Z.length)
  let outp := (List.zipWith (· * ·) inpLeft.Z inpRight.Z).take (len / 2)
  let outpLeft ← denseNew (outp.take (len / 4))
  let outpRight ← denseNew (outp.drop (len / 4))
  .ok (outpLeft, outpRight)

/-- The layers of `ProductCircuit::new`, each from the one before. -/
def layers {E : Type} : ℕ → DensePolynomial F → DensePolynomial F → Run E (ProductCircuit F)
  | 0, left, right => .ok ⟨[left], [right]⟩
  | n + 1, left, right => do
      let outp ← computeLayer left right
      let rest ← layers n outp.1 outp.2
      .ok ⟨left :: rest.leftVec, right :: rest.rightVec⟩

/-- `ProductCircuit::new`; a single entry cannot be split. -/
def new {E : Type} (poly : DensePolynomial F) : Run E (ProductCircuit F) := do
  let numLayers ← log2 poly.Z.length
  let outp ← denseSplit poly (poly.Z.length / 2)
  layers (numLayers - 1) outp.1 outp.2

/-- `ProductCircuit::evaluate`. -/
def evaluate {E : Type} (circuit : ProductCircuit F) : Run E F := do
  Run.assert (circuit.leftVec ≠ [] ∧ circuit.leftVec.length ≤ circuit.rightVec.length)
  let left := circuit.leftVec.getLastD ⟨0, []⟩
  let right := circuit.rightVec.getD (circuit.leftVec.length - 1) ⟨0, []⟩
  Run.assert (left.numVars = 0)
  Run.assert (right.numVars = 0)
  Run.assert (left.Z ≠ [] ∧ right.Z ≠ [])
  .ok (left.Z.getD 0 0 * right.Z.getD 0 0)

end ProductCircuit

/-- The entries of the cells, with the times of their last reads. -/
def cellEntries (evalTable times : List F) : List (Entry F) :=
  (List.range evalTable.length).map fun i : ℕ => ⟨i, evalTable.getD i 0, times.getD i 0⟩

/-- The entries that an instance reads. -/
def readEntries (addrs derefs readTs : List F) : List (Entry F) :=
  (List.range addrs.length).map fun i => ⟨addrs.getD i 0, derefs.getD i 0, readTs.getD i 0⟩

/-- The polynomial of the hashes of entries. -/
def hashed {E : Type} (rMemCheck : F × F) (entries : List (Entry F)) :
    Run E (DensePolynomial F) :=
  denseNew (entries.map fun e => hashFunc rMemCheck e.addr e.val e.time)

/-- `ProductLayer`. -/
structure ProductLayer (F : Type) where
  init : ProductCircuit F
  readVec : List (ProductCircuit F)
  writeVec : List (ProductCircuit F)
  audit : ProductCircuit F

/-- The entries that an instance reads, from its addresses, values and times. -/
def readsOf (inst : DensePolynomial F × DensePolynomial F × DensePolynomial F) : List (Entry F) :=
  readEntries inst.1.Z inst.2.1.Z inst.2.2.Z

namespace ProductLayer

/-- The hashes of an instance in `Layers::build_hash_layer`; a write is one step after its read. -/
def hashInstance {E : Type} (rMemCheck : F × F)
    (inst : DensePolynomial F × DensePolynomial F × DensePolynomial F) :
    Run E (DensePolynomial F × DensePolynomial F) := do
  Run.assert (inst.1.Z.length = inst.2.1.Z.length)
  Run.assert (inst.1.Z.length = inst.2.2.Z.length)
  let read ← hashed rMemCheck (readsOf inst)
  let write ← hashed rMemCheck ((readsOf inst).map Entry.later)
  .ok (read, write)

/-- `Layers::build_hash_layer`: the cells before, the reads, the writes and the cells after. -/
def buildHashLayer {E : Type} (evalTable : List F)
    (addrsVec derefsVec readTsVec : List (DensePolynomial F)) (auditTs : DensePolynomial F)
    (rMemCheck : F × F) :
    Run E (DensePolynomial F × List (DensePolynomial F) × List (DensePolynomial F) ×
      DensePolynomial F) := do
  let init ← hashed rMemCheck (cellEntries evalTable (List.replicate evalTable.length 0))
  Run.assert (evalTable.length ≤ auditTs.Z.length)
  let audit ← hashed rMemCheck (cellEntries evalTable auditTs.Z)
  Run.assert (addrsVec.length ≤ derefsVec.length ∧ addrsVec.length ≤ readTsVec.length)
  let ops ← (addrsVec.zip (derefsVec.zip readTsVec)).mapM (hashInstance rMemCheck)
  .ok (init, ops.map Prod.fst, ops.map Prod.snd, audit)

/-- The values that `Layers::new` and `ProductLayerProof::prove` compare. -/
def evals {E : Type} (layer : ProductLayer F) : Run E (F × List F × List F × F) := do
  let init ← layer.init.evaluate
  let audit ← layer.audit.evaluate
  let read ← layer.readVec.mapM ProductCircuit.evaluate
  let write ← layer.writeVec.mapM ProductCircuit.evaluate
  .ok (init, read, write, audit)

/-- `Layers::new`; a build with debug assertions compares what is written and what is read. -/
def new {E : Type} [DecidableEq F] (debug : Bool) (evalTable : List F) (t : AddrTimestamps F)
    (polyOpsVal : List (DensePolynomial F)) (rMemCheck : F × F) : Run E (ProductLayer F) := do
  let hashed ← buildHashLayer evalTable t.opsAddr polyOpsVal t.readTs t.auditTs rMemCheck
  let init ← ProductCircuit.new hashed.1
  let readVec ← hashed.2.1.mapM ProductCircuit.new
  let writeVec ← hashed.2.2.1.mapM ProductCircuit.new
  let audit ← ProductCircuit.new hashed.2.2.2
  let layer : ProductLayer F := ⟨init, readVec, writeVec, audit⟩
  let evals ← layer.evals
  Run.assert (debug = true → evals.1 * evals.2.2.1.prod = evals.2.1.prod * evals.2.2.2)
  .ok layer

end ProductLayer

/-! ## Runs and entries -/

/-- A run goes on with what its first part returned. -/
theorem bind_of_eq_ok {E α β : Type} {x : Run E α} {a : α} (h : x = .ok a) (f : α → Run E β) :
    (x >>= f) = f a := by
  rw [h]
  rfl

/-- A run goes on after an assertion that holds. -/
theorem assert_bind {E β : Type} {c : Prop} [Decidable c] (h : c) (f : Unit → Run E β) :
    (Run.assert c >>= f) = f () :=
  bind_of_eq_ok (assert_eq_ok.mpr h) f

/-- The entries that all instances read. -/
def opEntries (addrsVec derefsVec readTsVec : List (DensePolynomial F)) : List (Entry F) :=
  (addrsVec.zip (derefsVec.zip readTsVec)).flatMap readsOf

@[simp] theorem length_cellEntries (evalTable times : List F) :
    (cellEntries evalTable times).length = evalTable.length := by
  simp [cellEntries]

@[simp] theorem length_readEntries (addrs derefs readTs : List F) :
    (readEntries addrs derefs readTs).length = addrs.length := by
  simp [readEntries]

theorem readEntries_cons (a v t : F) (addrs derefs readTs : List F) :
    readEntries (a :: addrs) (v :: derefs) (t :: readTs) =
      ⟨a, v, t⟩ :: readEntries addrs derefs readTs := by
  simp [readEntries, List.range_succ_eq_map, Function.comp_def]

/-- A read changes the time of its cell. -/
theorem cellEntries_set (evalTable : List F) {times : List F} {i : ℕ} (hi : i < times.length)
    (t : F) : cellEntries evalTable (times.set i t) =
      (cellEntries evalTable times).set i ⟨i, evalTable.getD i 0, t⟩ := by
  apply List.ext_getElem
  · simp
  · intro j hj hj'
    rw [List.getElem_set]
    simp only [cellEntries, List.getElem_map, List.getElem_range]
    split
    · next h =>
        subst h
        simp [List.getD_eq_getElem?_getD, hi]
    · next h => simp [List.getD_eq_getElem?_getD, List.getElem?_set_ne h]

namespace AddrTimestamps

variable {mem : List F} {E : Type}

/-- **An instance** of reads leaves a balanced memory. -/
theorem balanced_readInstance {times times' ops reads : List ℕ} (htimes : times.length = mem.length)
    (h : (readInstance mem.length times ops : Run E _) = .ok (reads, times')) :
    times'.length = mem.length ∧ reads.length = ops.length ∧ (∀ a ∈ ops, a < mem.length) ∧
      Balanced (cellEntries mem (times.map Nat.cast))
        (readEntries (ops.map Nat.cast) (ops.map (mem.getD · 0)) (reads.map Nat.cast))
        (cellEntries mem (times'.map Nat.cast)) := by
  induction ops generalizing times reads with
  | nil =>
      cases h
      exact ⟨htimes, rfl, by simp, .nil _⟩
  | cons a ops ih =>
      obtain ⟨_, ha, h⟩ := bind_eq_ok.mp h
      rw [assert_eq_ok] at ha
      obtain ⟨⟨reads, _⟩, hrest, h⟩ := bind_eq_ok.mp h
      cases h
      have hlt : a < (cellEntries mem (times.map Nat.cast)).length := by simpa using ha
      have hget : (cellEntries mem (times.map Nat.cast))[a] =
          ⟨a, mem.getD a 0, (times.getD a 0 : ℕ)⟩ := by
        simp [cellEntries, List.getD_eq_getElem?_getD, htimes ▸ ha]
      -- the new time of the cell is that of the entry one step later
      have hread := balanced_read hlt hget
      rw [Entry.later, ← Nat.cast_succ, ← cellEntries_set mem (by simpa [htimes] using ha),
        ← List.map_set] at hread
      obtain ⟨htimes', hlen, hops, hbalanced⟩ := ih (by simpa using htimes) hrest
      refine ⟨htimes', by simpa using hlen, List.forall_mem_cons.mpr ⟨ha, hops⟩, ?_⟩
      simpa [readEntries_cons] using hread.append hbalanced

theorem fromUsize_eq {Z : List ℕ} {k : ℕ} (h : Z.length = 2 ^ k) :
    (fromUsize Z : Run E (DensePolynomial F)) = .ok ⟨k, Z.map Nat.cast⟩ :=
  denseNew_eq (by rw [List.length_map, h])

/-- The values of the cells that an instance reads. -/
def valuesAt (mem : List F) (k : ℕ) (ops : List ℕ) : DensePolynomial F :=
  ⟨k, ops.map (mem.getD · 0)⟩

/-- What `new` makes of the addresses of some instances: cells whose times balance the reads. -/
structure Timed (mem : List F) (k : ℕ) (opsAddr : List (List ℕ)) (times : List F)
    (addrsVec readTs : List (DensePolynomial F)) (times' : List F) : Prop where
  addrs : addrsVec = opsAddr.map fun ops => ⟨k, ops.map Nat.cast⟩
  length_readTs : readTs.length = opsAddr.length
  length_of_mem : ∀ ts ∈ readTs, ts.Z.length = 2 ^ k
  length_times : times'.length = mem.length
  inside : ∀ ops ∈ opsAddr, ops.length = 2 ^ k ∧ ∀ a ∈ ops, a < mem.length
  balanced : Balanced (cellEntries mem times)
    (opEntries addrsVec (opsAddr.map (valuesAt mem k)) readTs) (cellEntries mem times')

variable {opsAddr : List (List ℕ)}

/-- **All instances** of reads leave a balanced memory. -/
theorem timed_of_readInstances {k : ℕ} {times times' : List ℕ}
    {addrsVec readTs : List (DensePolynomial F)} (htimes : times.length = mem.length)
    (hops : ∀ ops ∈ opsAddr, ops.length = 2 ^ k)
    (h : (readInstances mem.length times opsAddr : Run E _) = .ok (addrsVec, readTs, times')) :
    Timed mem k opsAddr (times.map Nat.cast) addrsVec readTs (times'.map Nat.cast) := by
  induction opsAddr generalizing times addrsVec readTs with
  | nil =>
      cases h
      exact ⟨rfl, rfl, by simp, by simpa using htimes, by simp, .nil _⟩
  | cons ops opsAddr ih =>
      obtain ⟨hlen, hops⟩ := List.forall_mem_cons.mp hops
      obtain ⟨⟨reads, _⟩, hreads, h⟩ := bind_eq_ok.mp h
      obtain ⟨htimes', hlength, hinside, hbalanced⟩ := balanced_readInstance htimes hreads
      obtain ⟨addr, haddr, h⟩ := bind_eq_ok.mp h
      obtain ⟨ts, hts, h⟩ := bind_eq_ok.mp h
      obtain ⟨⟨addrsVec, readTs, _⟩, hrest, h⟩ := bind_eq_ok.mp h
      cases h
      rw [fromUsize_eq hlen] at haddr
      rw [fromUsize_eq (hlength.trans hlen)] at hts
      cases haddr
      cases hts
      have hrest := ih htimes' hops hrest
      refine ⟨congrArg _ hrest.addrs, congrArg (· + 1) hrest.length_readTs, ?_,
        hrest.length_times, List.forall_mem_cons.mpr ⟨⟨hlen, hinside⟩, hrest.inside⟩, ?_⟩
      · refine List.forall_mem_cons.mpr ⟨?_, hrest.length_of_mem⟩
        rw [List.length_map, hlength, hlen]
      · exact hbalanced.append hrest.balanced

/-- **The times of `AddrTimestamps::new`** balance what is written and what is read. -/
theorem timed_of_new {k m : ℕ} {t : AddrTimestamps F} (hmem : mem.length = 2 ^ m)
    (h : (new mem.length (2 ^ k) opsAddr : Run E _) = .ok t) :
    t.opsAddrUsize = opsAddr ∧ Timed mem k opsAddr (List.replicate mem.length 0) t.opsAddr t.readTs
      t.auditTs.Z := by
  obtain ⟨_, hops, h⟩ := bind_eq_ok.mp h
  obtain ⟨⟨addrsVec, readTs, times⟩, hreads, h⟩ := bind_eq_ok.mp h
  have htimed : Timed mem k opsAddr _ addrsVec readTs _ :=
    timed_of_readInstances (by simp) (assert_eq_ok.mp hops) hreads
  rw [List.map_replicate, Nat.cast_zero] at htimed
  obtain ⟨auditTs, haudit, h⟩ := bind_eq_ok.mp h
  cases h
  have hlength := htimed.length_times
  rw [List.length_map, hmem] at hlength
  rw [fromUsize_eq hlength] at haudit
  cases haudit
  exact ⟨rfl, htimed⟩

/-- The values that a dereference returns. -/
theorem deref_eq {k : ℕ} {t : AddrTimestamps F} (husize : t.opsAddrUsize = opsAddr)
    (hlength : t.opsAddr.length = opsAddr.length)
    (hinside : ∀ ops ∈ opsAddr, ops.length = 2 ^ k ∧ ∀ a ∈ ops, a < mem.length) :
    (t.deref mem : Run E _) = .ok (opsAddr.map (valuesAt mem k)) := by
  have hrange : opsAddr.map (valuesAt mem k) =
      (List.range t.opsAddr.length).map fun i => valuesAt mem k (opsAddr.getD i []) := by
    apply List.ext_getElem
    · simp [hlength]
    · intro i hi _
      simp [List.getD_eq_getElem?_getD, (by simpa using hi : i < opsAddr.length)]
  rw [deref, hrange, mapM_eq_ok_iff, List.forall₂_map_right_iff, List.forall₂_same]
  intro i hi
  rw [List.mem_range, hlength] at hi
  rw [husize, List.getD_eq_getElem _ _ hi]
  obtain ⟨hlen, hinside⟩ := hinside _ (List.getElem_mem hi)
  rw [derefMem, assert_bind hinside]
  exact denseNew_eq (by rw [List.length_map, hlen])

end AddrTimestamps

/-! ## Products, the check and two cells -/

namespace ProductCircuit

/-- The layers end in two entries, whose product is that of all entries. -/
theorem exists_layers {E : Type} {n : ℕ} {L R : List F} (hL : L.length = 2 ^ n)
    (hR : R.length = 2 ^ n) : ∃ lefts rights x y,
      (layers n ⟨n, L⟩ ⟨n, R⟩ : Run E _) = .ok ⟨lefts ++ [⟨0, [x]⟩], rights ++ [⟨0, [y]⟩]⟩ ∧
      rights.length = lefts.length ∧ x * y = L.prod * R.prod := by
  induction n generalizing L R with
  | zero =>
      obtain ⟨x, rfl⟩ := List.length_eq_one_iff.mp hL
      obtain ⟨y, rfl⟩ := List.length_eq_one_iff.mp hR
      exact ⟨[], [], x, y, rfl, rfl, by simp⟩
  | succ n ih =>
      -- the products of a layer, in two halves, are the layer after it
      have hlen : (List.zipWith (· * ·) L R).length = 2 ^ n + 2 ^ n := by
        rw [List.length_zipWith, hL, hR, min_self, pow_succ, mul_two]
      have hleft : ((List.zipWith (· * ·) L R).take (2 ^ n)).length = 2 ^ n := by simp [hlen]
      have hright : ((List.zipWith (· * ·) L R).drop (2 ^ n)).length = 2 ^ n := by simp [hlen]
      obtain ⟨lefts, rights, x, y, hlayers, hsides, hprod⟩ := ih hleft hright
      refine ⟨⟨n + 1, L⟩ :: lefts, ⟨n + 1, R⟩ :: rights, x, y, ?_, congrArg (· + 1) hsides, ?_⟩
      · have hhalf : (L.length + R.length) / 2 = 2 ^ n + 2 ^ n := by rw [hL, hR, pow_succ]; omega
        have hquarter : (L.length + R.length) / 4 = 2 ^ n := by rw [hL, hR, pow_succ]; omega
        have hinside : 2 ^ n + 2 ^ n ≤ L.length ∧ 2 ^ n + 2 ^ n ≤ R.length := by
          rw [hL, hR, pow_succ]
          omega
        have hlayer : (computeLayer ⟨n + 1, L⟩ ⟨n + 1, R⟩ : Run E _) =
            .ok (⟨n, (List.zipWith (· * ·) L R).take (2 ^ n)⟩,
              ⟨n, (List.zipWith (· * ·) L R).drop (2 ^ n)⟩) := by
          simp only [computeLayer, hhalf, hquarter, List.take_of_length_le hlen.le]
          rw [assert_bind hinside, bind_of_eq_ok (denseNew_eq hleft),
            bind_of_eq_ok (denseNew_eq hright)]
        rw [layers, bind_of_eq_ok hlayer, bind_of_eq_ok hlayers]
        rfl
      · rw [hprod, ← List.prod_append, List.take_append_drop,
          List.prod_mul_prod_eq_prod_zipWith_of_length_eq L R (hL.trans hR.symm)]

/-- **A product circuit** evaluates to the product of its entries. -/
theorem exists_new {E : Type} {n : ℕ} {Z : List F} (hZ : Z.length = 2 ^ (n + 1)) :
    ∃ circuit, (new ⟨n + 1, Z⟩ : Run E _) = .ok circuit ∧
      (circuit.evaluate : Run E F) = .ok Z.prod := by
  have hleft : (Z.take (2 ^ n)).length = 2 ^ n := by rw [List.length_take, hZ, pow_succ]; omega
  have hright : (Z.drop (2 ^ n)).length = 2 ^ n := by rw [List.length_drop, hZ, pow_succ]; omega
  obtain ⟨lefts, rights, x, y, hlayers, hsides, hprod⟩ := exists_layers (E := E) hleft hright
  have hhalf : Z.length / 2 = 2 ^ n := by rw [hZ, pow_succ]; omega
  have hpos := Nat.two_pow_pos n
  have hne : Z.length ≠ 0 := by omega
  have hlog : (log2 Z.length : Run E ℕ) = .ok (n + 1) :=
    log2_eq_ok.mpr ⟨hne, by rw [hZ, clog_two_pow]⟩
  have hsplit : (denseSplit ⟨n + 1, Z⟩ (2 ^ n) : Run E _) =
      .ok (⟨n, Z.take (2 ^ n)⟩, ⟨n, Z.drop (2 ^ n)⟩) := by
    have hinside : 2 ^ n < Z.length := by omega
    have hend : 2 * 2 ^ n ≤ Z.length := by omega
    simp only [denseSplit, List.take_of_length_le hright.le]
    rw [assert_bind hinside, bind_of_eq_ok (denseNew_eq hleft), assert_bind hend,
      bind_of_eq_ok (denseNew_eq hright)]
  have hnew : (new ⟨n + 1, Z⟩ : Run E _) =
      .ok ⟨lefts ++ [⟨0, [x]⟩], rights ++ [⟨0, [y]⟩]⟩ := by
    simp only [new, hhalf]
    rw [bind_of_eq_ok hlog, bind_of_eq_ok hsplit]
    exact hlayers
  refine ⟨_, hnew, ?_⟩
  rw [← List.take_append_drop (2 ^ n) Z, List.prod_append, ← hprod]
  simp [evaluate, Run.assert, hsides, bind, Except.bind]

end ProductCircuit

/-- The product of the hashes of entries. -/
def fingerprint (rMemCheck : F × F) (entries : List (Entry F)) : F :=
  (entries.map fun e => hashFunc rMemCheck e.addr e.val e.time).prod

theorem fingerprint_append (rMemCheck : F × F) (l l' : List (Entry F)) :
    fingerprint rMemCheck (l ++ l') = fingerprint rMemCheck l * fingerprint rMemCheck l' := by
  simp [fingerprint]

theorem prod_fingerprint {α : Type} (rMemCheck : F × F) (l : List α) (f : α → List (Entry F)) :
    (l.map fun a => fingerprint rMemCheck (f a)).prod = fingerprint rMemCheck (l.flatMap f) := by
  induction l with
  | nil => rfl
  | cons a l ih => rw [List.map_cons, List.prod_cons, List.flatMap_cons, fingerprint_append, ih]

theorem exists_circuit {E : Type} {n : ℕ} (rMemCheck : F × F) {l : List (Entry F)}
    (hl : l.length = 2 ^ (n + 1)) : ∃ poly circuit, (hashed rMemCheck l : Run E _) = .ok poly ∧
      (ProductCircuit.new poly : Run E _) = .ok circuit ∧
      (circuit.evaluate : Run E _) = .ok (fingerprint rMemCheck l) := by
  have hlen := (List.length_map fun e => hashFunc rMemCheck e.addr e.val e.time).trans hl
  obtain ⟨circuit, hnew, hvalue⟩ := ProductCircuit.exists_new (E := E) hlen
  exact ⟨_, circuit, denseNew_eq hlen, hnew, hvalue⟩

namespace ProductLayer

/-- The circuits of some instances evaluate to their fingerprints. -/
theorem exists_ops {E : Type} {k : ℕ} (rMemCheck : F × F)
    {insts : List (DensePolynomial F × DensePolynomial F × DensePolynomial F)}
    (h : ∀ inst ∈ insts, inst.1.Z.length = 2 ^ (k + 1) ∧ inst.2.1.Z.length = 2 ^ (k + 1) ∧
      inst.2.2.Z.length = 2 ^ (k + 1)) :
    ∃ ops readVec writeVec, (insts.mapM (hashInstance rMemCheck) : Run E _) = .ok ops ∧
      ((ops.map Prod.fst).mapM ProductCircuit.new : Run E _) = .ok readVec ∧
      ((ops.map Prod.snd).mapM ProductCircuit.new : Run E _) = .ok writeVec ∧
      (readVec.mapM ProductCircuit.evaluate : Run E _) =
        .ok (insts.map fun inst => fingerprint rMemCheck (readsOf inst)) ∧
      (writeVec.mapM ProductCircuit.evaluate : Run E _) =
        .ok (insts.map fun inst => fingerprint rMemCheck ((readsOf inst).map Entry.later)) := by
  induction insts with
  | nil => exact ⟨[], [], [], rfl, rfl, rfl, rfl, rfl⟩
  | cons inst insts ih =>
      obtain ⟨⟨haddrs, hderefs, hreadTs⟩, hinsts⟩ := List.forall_mem_cons.mp h
      obtain ⟨ops, readVec, writeVec, hops, hreads, hwrites, hreadValues, hwriteValues⟩ := ih hinsts
      have hlen : (readsOf inst).length = 2 ^ (k + 1) := (length_readEntries _ _ _).trans haddrs
      have hlater := (List.length_map Entry.later).trans hlen
      obtain ⟨read, readCircuit, hread, hreadNew, hreadValue⟩ :=
        exists_circuit (E := E) rMemCheck hlen
      obtain ⟨write, writeCircuit, hwrite, hwriteNew, hwriteValue⟩ :=
        exists_circuit (E := E) rMemCheck hlater
      have hinst : (hashInstance rMemCheck inst : Run E _) = .ok (read, write) := by
        rw [hashInstance, assert_bind (haddrs.trans hderefs.symm),
          assert_bind (haddrs.trans hreadTs.symm), bind_of_eq_ok hread, bind_of_eq_ok hwrite]
      refine ⟨(read, write) :: ops, readCircuit :: readVec, writeCircuit :: writeVec, ?_, ?_, ?_,
        ?_, ?_⟩
      all_goals simp only [List.map_cons, List.mapM_cons, hinst, hops, hreadNew, hreads, hwriteNew,
        hwrites, hreadValue, hreadValues, hwriteValue, hwriteValues, bind, Except.bind, pure,
        Except.pure]

/-- **What a layer evaluates to**: the two sides of its check are the fingerprints of what is put
into the memory and of what is taken out of it. -/
theorem exists_new {E : Type} [DecidableEq F] {m k : ℕ} {mem : List F} {t : AddrTimestamps F}
    {derefsVec : List (DensePolynomial F)} (hmem : mem.length = 2 ^ (m + 1))
    (hcount : t.opsAddr.length ≤ derefsVec.length ∧ t.opsAddr.length ≤ t.readTs.length)
    (haudit : mem.length ≤ t.auditTs.Z.length)
    (hlen : ∀ poly ∈ t.opsAddr ++ (derefsVec ++ t.readTs), poly.Z.length = 2 ^ (k + 1))
    (debug : Bool) (rMemCheck : F × F) : ∃ (layer : ProductLayer F) (values : _),
      (layer.evals : Run E _) = .ok values ∧
      values.2.1.length = t.opsAddr.length ∧ values.2.2.1.length = t.opsAddr.length ∧
      values.1 * values.2.2.1.prod = fingerprint rMemCheck
        (cellEntries mem (List.replicate mem.length 0) ++
          (opEntries t.opsAddr derefsVec t.readTs).map Entry.later) ∧
      values.2.1.prod * values.2.2.2 = fingerprint rMemCheck
        (opEntries t.opsAddr derefsVec t.readTs ++ cellEntries mem t.auditTs.Z) ∧
      (new debug mem t derefsVec rMemCheck : Run E _) = (do
        Run.assert (debug = true → values.1 * values.2.2.1.prod = values.2.1.prod * values.2.2.2)
        .ok layer) := by
  have hcells : ∀ times, (cellEntries mem times).length = 2 ^ (m + 1) := by simp [hmem]
  obtain ⟨init, initCircuit, hinit, hinitNew, hinitValue⟩ :=
    exists_circuit (E := E) rMemCheck (hcells (List.replicate mem.length 0))
  obtain ⟨audit, auditCircuit, haudit', hauditNew, hauditValue⟩ :=
    exists_circuit (E := E) rMemCheck (hcells t.auditTs.Z)
  have hinsts : ∀ inst ∈ t.opsAddr.zip (derefsVec.zip t.readTs), inst.1.Z.length = 2 ^ (k + 1) ∧
      inst.2.1.Z.length = 2 ^ (k + 1) ∧ inst.2.2.Z.length = 2 ^ (k + 1) := by
    rintro ⟨addrs, derefs, readTs⟩ hinst
    obtain ⟨haddrs, hrest⟩ := List.of_mem_zip hinst
    obtain ⟨hderefs, hreadTs⟩ := List.of_mem_zip hrest
    simp only [List.mem_append] at hlen
    exact ⟨hlen _ (.inl haddrs), hlen _ (.inr (.inl hderefs)), hlen _ (.inr (.inr hreadTs))⟩
  obtain ⟨ops, readVec, writeVec, hops, hreads, hwrites, hreadValues, hwriteValues⟩ :=
    exists_ops (E := E) rMemCheck hinsts
  have hvalues : (evals ⟨initCircuit, readVec, writeVec, auditCircuit⟩ : Run E _) =
      .ok (fingerprint rMemCheck (cellEntries mem (List.replicate mem.length 0)),
        (t.opsAddr.zip (derefsVec.zip t.readTs)).map fun inst =>
          fingerprint rMemCheck (readsOf inst),
        (t.opsAddr.zip (derefsVec.zip t.readTs)).map fun inst =>
          fingerprint rMemCheck ((readsOf inst).map Entry.later),
        fingerprint rMemCheck (cellEntries mem t.auditTs.Z)) := by
    rw [evals, bind_of_eq_ok hinitValue, bind_of_eq_ok hauditValue, bind_of_eq_ok hreadValues,
      bind_of_eq_ok hwriteValues]
  have hlayer : (buildHashLayer mem t.opsAddr derefsVec t.readTs t.auditTs rMemCheck : Run E _) =
      .ok (init, ops.map Prod.fst, ops.map Prod.snd, audit) := by
    rw [buildHashLayer, bind_of_eq_ok hinit, assert_bind haudit, bind_of_eq_ok haudit',
      assert_bind hcount, bind_of_eq_ok hops]
  refine ⟨_, _, hvalues, ?_, ?_, ?_, ?_, ?_⟩
  · simp [hcount]
  · simp [hcount]
  · rw [prod_fingerprint, fingerprint_append, opEntries, List.map_flatMap]
  · rw [prod_fingerprint, fingerprint_append, opEntries]
  · rw [new, hlayer]
    simp only [bind, Except.bind, hinitNew, hreads, hwrites, hauditNew, hvalues]

end ProductLayer

theorem length_opEntries {k : ℕ} {addrsVec derefsVec readTsVec : List (DensePolynomial F)}
    (hcount : addrsVec.length ≤ derefsVec.length ∧ addrsVec.length ≤ readTsVec.length)
    (hlen : ∀ poly ∈ addrsVec, poly.Z.length = 2 ^ k) :
    (opEntries addrsVec derefsVec readTsVec).length = addrsVec.length * 2 ^ k := by
  have hinst : ∀ inst ∈ addrsVec.zip (derefsVec.zip readTsVec), (readsOf inst).length = 2 ^ k :=
    fun inst hinst => (length_readEntries _ _ _).trans (hlen _ (List.of_mem_zip hinst).1)
  rw [opEntries, List.length_flatMap, List.map_congr_left hinst]
  simp [hcount]

variable {opsAddr : List (List ℕ)}

/-- Values that every read finds in its cell are those of the cells. -/
theorem eq_valuesAt {mem : List F} {k : ℕ} {vals readTs : List (DensePolynomial F)}
    (hmem : mem.length < ringChar F) (hvals : vals.length = opsAddr.length)
    (hreadTs : readTs.length = opsAddr.length)
    (hvars : ∀ poly ∈ vals, poly.numVars = k ∧ poly.Z.length = 2 ^ k)
    (hinside : ∀ ops ∈ opsAddr, ops.length = 2 ^ k ∧ ∀ a ∈ ops, a < mem.length)
    (h : ∀ e ∈ opEntries (opsAddr.map fun ops => ⟨k, ops.map Nat.cast⟩) vals readTs, ∃ i < mem.length, e.addr = (i : F) ∧ e.val = mem.getD i 0) :
    vals = opsAddr.map (AddrTimestamps.valuesAt mem k) := by
  induction opsAddr generalizing vals readTs with
  | nil => exact List.length_eq_zero_iff.mp hvals
  | cons ops opsAddr ih =>
      obtain ⟨poly, vals, rfl⟩ := List.exists_cons_of_length_eq_add_one hvals
      obtain ⟨ts, readTs, rfl⟩ := List.exists_cons_of_length_eq_add_one hreadTs
      obtain ⟨⟨hnum, hlen⟩, hvars⟩ := List.forall_mem_cons.mp hvars
      obtain ⟨⟨hops, hin⟩, hinside⟩ := List.forall_mem_cons.mp hinside
      simp only [opEntries, List.map_cons, List.zip_cons_cons, List.flatMap_cons,
        List.mem_append] at h
      rw [List.map_cons, ← ih (by simpa using hvals) (by simpa using hreadTs) hvars hinside
        fun e he => h e (.inr he)]
      congr 1
      obtain ⟨numVars, Z⟩ := poly
      obtain rfl : numVars = k := hnum
      rw [AddrTimestamps.valuesAt, DensePolynomial.mk.injEq]
      refine ⟨rfl, List.ext_getElem (by simp [hops, hlen]) fun j hj hj' => ?_⟩
      rw [List.length_map] at hj'
      have hmem' : (⟨(ops[j] : F), Z[j], ts.Z.getD j 0⟩ : Entry F) ∈
          readsOf (⟨numVars, ops.map Nat.cast⟩, ⟨numVars, Z⟩, ts) := by
        refine List.mem_map.mpr ⟨j, by simpa using hj', ?_⟩
        simp [List.getD_eq_getElem?_getD, hj, hj']
      obtain ⟨i, hi, haddr, hval⟩ := h _ (.inl hmem')
      -- below the characteristic an address names one cell
      have hlt := hin _ (List.getElem_mem hj')
      have heq : ops[j] = i := natCast_injOn (hlt.trans hmem) (hi.trans hmem) haddr
      rw [List.getElem_map, heq]
      exact hval

variable [DecidableEq F] {C : Type} {T : Transcript F C}

/-- The layer of some values is built, and what it evaluates to passes the check of the verifier. -/
def ProductLayer.Passes (E : Type) (debug : Bool) (mem : List F) (t : AddrTimestamps F)
    (vals : List (DensePolynomial F)) (axis : String) (st : T.State) (rMemCheck : F × F) : Prop :=
  ∃ layer values, (new debug mem t vals rMemCheck : Run E _) = .ok layer ∧
    (layer.evals : Run E _) = .ok values ∧
    (verifySubset axis t.opsAddr.length values st : Run E _) = .ok (absorbAxis axis values st)

/-- **Offline memory checking**: claimed values of the reads pass the check of the prover and of
the verifier at every challenge exactly if they are the values of the cells. -/
theorem memory_check_iff {E : Type} {m k : ℕ} {mem : List F} (hmem : mem.length = 2 ^ (m + 1))
    {t : AddrTimestamps F}
    (ht : (AddrTimestamps.new mem.length (2 ^ (k + 1)) opsAddr : Run E _) = .ok t)
    (hchar : 2 * (mem.length + opsAddr.length * 2 ^ (k + 1)) < ringChar F)
    {vals : List (DensePolynomial F)} (hvals : vals.length = opsAddr.length)
    (hvars : ∀ poly ∈ vals, poly.numVars = k + 1 ∧ poly.Z.length = 2 ^ (k + 1)) (debug : Bool)
    (axis : String) (st : T.State) :
    (∀ rMemCheck, ProductLayer.Passes E debug mem t vals axis st rMemCheck) ↔
      (t.deref mem : Run E _) = .ok vals := by
  obtain ⟨husize, htimed⟩ := AddrTimestamps.timed_of_new hmem ht
  have haddrs : t.opsAddr.length = opsAddr.length := by rw [htimed.addrs, List.length_map]
  have hcount : t.opsAddr.length ≤ vals.length ∧ t.opsAddr.length ≤ t.readTs.length :=
    ⟨(haddrs.trans hvals.symm).le, (haddrs.trans htimed.length_readTs.symm).le⟩
  have haddrsLen : ∀ poly ∈ t.opsAddr, poly.Z.length = 2 ^ (k + 1) := by
    rw [htimed.addrs]
    simpa using fun ops hops => (htimed.inside ops hops).1
  have hlen : ∀ poly ∈ t.opsAddr ++ (vals ++ t.readTs), poly.Z.length = 2 ^ (k + 1) := by
    simp only [List.forall_mem_append]
    exact ⟨haddrsLen, fun poly hpoly => (hvars poly hpoly).2, htimed.length_of_mem⟩
  -- everything but the comparison of the products always succeeds
  have hcheck : ∀ rMemCheck, ProductLayer.Passes E debug mem t vals axis st rMemCheck ↔
      fingerprint rMemCheck (cellEntries mem (List.replicate mem.length 0) ++
          (opEntries t.opsAddr vals t.readTs).map Entry.later) =
        fingerprint rMemCheck
          (opEntries t.opsAddr vals t.readTs ++ cellEntries mem t.auditTs.Z) := by
    intro rMemCheck
    obtain ⟨layer, values, hvalues, hreads, hwrites, hin, hout, hnew⟩ := ProductLayer.exists_new
      (E := E) hmem hcount htimed.length_times.ge hlen debug rMemCheck
    rw [← hin, ← hout]
    constructor
    · rintro ⟨layer', values', hnew', hvalues', hsubset⟩
      rw [hnew] at hnew'
      obtain ⟨_, -, hlayer⟩ := bind_eq_ok.mp hnew'
      cases hlayer
      rw [hvalues] at hvalues'
      cases hvalues'
      obtain ⟨_, -, hsubset⟩ := bind_eq_ok.mp hsubset
      obtain ⟨_, -, hsubset⟩ := bind_eq_ok.mp hsubset
      obtain ⟨_, heq, -⟩ := bind_eq_ok.mp hsubset
      exact assert_eq_ok.mp heq
    · intro heq
      refine ⟨layer, values, ?_, hvalues, ?_⟩
      · rw [hnew, assert_bind fun _ => heq]
      · rw [verifySubset, assert_bind hwrites, assert_bind hreads, assert_bind heq]
  simp only [hcheck]
  rw [AddrTimestamps.deref_eq husize haddrs htimed.inside, Except.ok.injEq]
  have hops : (opEntries t.opsAddr vals t.readTs).length = opsAddr.length * 2 ^ (k + 1) := by
    rw [length_opEntries hcount haddrsLen, haddrs]
  constructor
  · intro h
    have hperm := perm_of_prod_hash (by simp [add_comm]) (by simpa [hops] using hchar)
      fun r γ => h (r, γ)
    have hcells : ∀ times, ∀ e ∈ cellEntries mem times,
        ∃ i < mem.length, e.addr = (i : F) ∧ e.val = mem.getD i 0 := by
      intro times e he
      obtain ⟨i, hi, rfl⟩ := List.mem_map.mp he
      exact ⟨i, List.mem_range.mp hi, rfl, rfl⟩
    refine (eq_valuesAt (by omega) hvals htimed.length_readTs hvars htimed.inside ?_).symm
    rw [← htimed.addrs]
    exact Balanced.forall_read (S := fun addr val => ∃ i < mem.length, addr = (i : F) ∧
      val = mem.getD i 0) hperm (hcells _) (hcells _) (by omega)
  · -- for the values of the cells the two sides are products of the same entries
    rintro rfl rMemCheck
    exact (List.Perm.map _ htimed.balanced).prod_eq

end Model

section Example

open Bn254

/-- **Two cells, each read once**: at every challenge the values of the cells pass the check. -/
theorem memory_check_iff_two :
    ∃ t : AddrTimestamps (ZMod fr), (AddrTimestamps.new 2 2 [[1, 0]] : Run Empty _) = .ok t ∧
      ∀ rMemCheck, ProductLayer.Passes Empty true [5, 7] t [⟨1, [7, 5]⟩] "row"
        (T := zeroTranscript (ZMod fr) Unit) () rMemCheck := by
  have hmem : ([5, 7] : List (ZMod fr)).length = 2 ^ (0 + 1) := rfl
  have ht : (AddrTimestamps.new ([5, 7] : List (ZMod fr)).length (2 ^ (0 + 1)) [[1, 0]] :
      Run Empty (AddrTimestamps (ZMod fr))) =
        .ok ⟨[[1, 0]], [⟨1, [1, 0]⟩], [⟨1, [0, 0]⟩], ⟨1, [1, 1]⟩⟩ := rfl
  refine ⟨_, ht, (memory_check_iff hmem ht ?_ rfl ?_ true "row" ()).mpr rfl⟩
  · rw [ZMod.ringChar_zmod_n]
    norm_num [fr]
  · simp

end Example

end NexusVm.Spartan
