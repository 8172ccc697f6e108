import Mathlib.Algebra.Field.ZMod
import Mathlib.Tactic.NormNum.Prime
import NexusVm.Mangrove.Chain

/-!
# The Mangrove permutation argument

The index tables of the builder pair the output bytes of each leaf with the input bytes of the
next one and fix the first input and the last output.  The products of all leaves agree as
polynomials in the challenges exactly if the leaves form a chain.
-/

namespace NexusVm.Mangrove

open Nova Polynomial

/-- The number of a cell: 32 input bytes and 32 output bytes for each leaf. -/
def cellIndex (c : ℕ × ℕ) : ℕ := c.1 * 64 + c.2

/-- The cell that a cell of `leafs` leaves is tied to. -/
def nextCell (leafs : ℕ) (c : ℕ × ℕ) : ℕ × ℕ :=
  if c.2 < 32 then
    if c.1 = 0 then c else (c.1 - 1, c.2 + 32)
  else if c.1 < leafs - 1 then (c.1 + 1, c.2 - 32) else c

/-- The cells of `leafs` leaves. -/
def cellsUpTo (leafs : ℕ) : Finset (ℕ × ℕ) := Finset.range leafs ×ˢ Finset.range 64

variable {c : ℕ × ℕ} {leafs : ℕ}

theorem mem_cellsUpTo : c ∈ cellsUpTo leafs ↔ c.1 < leafs ∧ c.2 < 64 := by
  rw [cellsUpTo, Finset.mem_product, Finset.mem_range, Finset.mem_range]

theorem nextCell_mem (hc : c ∈ cellsUpTo leafs) :
    nextCell leafs c ∈ cellsUpTo leafs := by
  rw [mem_cellsUpTo] at hc ⊢
  unfold nextCell
  split_ifs
  · exact hc
  · constructor <;> simp only [] <;> omega
  · constructor <;> simp only [] <;> omega
  · exact hc

/-- The tables are made of two-cycles and fixed points. -/
theorem nextCell_nextCell (hc : c ∈ cellsUpTo leafs) :
    nextCell leafs (nextCell leafs c) = c := by
  obtain ⟨i, k⟩ := c
  rw [mem_cellsUpTo] at hc
  simp only at hc
  by_cases hk : k < 32
  · by_cases hi : i = 0
    · simp [nextCell, hk, hi]
    · have hin : i - 1 < leafs - 1 := by omega
      have hback : i - 1 + 1 = i := by omega
      simp [nextCell, hk, hi, hin, hback]
  · by_cases hi : i < leafs - 1
    · have hout : k - 32 < 32 := by omega
      have hback : k - 32 + 32 = k := by omega
      simp [nextCell, hk, hi, hout, hback]
    · simp [nextCell, hk, hi]

theorem cellIndex_injOn {p leafs : ℕ} (hp : 64 * leafs ≤ p) :
    Set.InjOn (fun c => (cellIndex c : ZMod p)) (cellsUpTo leafs) := by
  intro c hc d hd h
  rw [Finset.mem_coe, mem_cellsUpTo] at hc hd
  have hlt : ∀ {e : ℕ × ℕ}, e.1 < leafs ∧ e.2 < 64 → cellIndex e < p := by
    intro e he
    unfold cellIndex
    omega
  have hindex : cellIndex c = cellIndex d :=
    CharP.natCast_injOn_Iio (ZMod p) p (Set.mem_Iio.mpr (hlt hc)) (Set.mem_Iio.mpr (hlt hd)) h
  unfold cellIndex at hindex
  apply Prod.ext <;> omega

section Builder

variable {sha256 : List UInt8 → List UInt8} {b : SHA256ChainBuilder}

/-- A map over a list with positions, where the results depend on the positions. -/
theorem mapM_zipIdx_eq {E α β : Type} {l : List α} {f : α × ℕ → Run E β} {g : ℕ → β}
    (h : ∀ i a, l[i]? = some a → f (a, i) = .ok (g i)) :
    l.zipIdx.mapM f = .ok ((List.range l.length).map g) := by
  rw [mapM_eq_ok_iff, List.forall₂_iff_get]
  constructor
  · simp
  · intro i h₁ h₂
    have hi : i < l.length := by simpa using h₁
    simpa using h i l[i] (List.getElem?_eq_getElem hi)

/-- The tables of a leaf. -/
structure Tables (b : SHA256ChainBuilder) (i : ℕ) (c : SHA256ChainMangroveComputation) : Prop where
  input : c.inputIndices = (List.range 32).map fun k => cellIndex (i, k)
  inputNext : c.inputNextIndices =
    (List.range 32).map fun k => cellIndex (nextCell b.numLeafs (i, k))
  output : c.outputIndices = (List.range 32).map fun k => cellIndex (i, k + 32)
  outputNext : c.outputNextIndices =
    (List.range 32).map fun k => cellIndex (nextCell b.numLeafs (i, k + 32))

/-- A computation is made from its request and its position. -/
theorem computation_eq_ok {i : ℕ} {request : SHA256ChainRequest}
    {c : SHA256ChainMangroveComputation} (h : b.computation sha256 i request = .ok c) :
    c.initialInput = request.input ∧
      (SHA256ChainBuilder.hashesFrom sha256 request.numIterations request.input).getLast? =
        some c.finalOutput ∧ Tables b i c := by
  unfold SHA256ChainBuilder.computation at h
  cases hlast : (SHA256ChainBuilder.hashesFrom sha256 request.numIterations
      request.input).getLast? with
  | none =>
      simp only [hlast] at h
      cases h
  | some finalOutput =>
      simp only [hlast, Except.ok.injEq] at h
      subst h
      refine ⟨rfl, rfl, ?_⟩
      constructor
      · rfl
      · apply List.map_congr_left
        intro k hk
        rw [List.mem_range] at hk
        simp only [SHA256ChainBuilder.inputNextIndex, nextCell, cellIndex, if_pos hk]
        split_ifs
        · rfl
        · simp only []
          omega
      · apply List.map_congr_left
        intro k _
        simp only [cellIndex]
        omega
      · apply List.map_congr_left
        intro k hk
        have hge : ¬ k + 32 < 32 := by omega
        simp only [SHA256ChainBuilder.outputNextIndex, nextCell, cellIndex, if_neg hge]
        split_ifs <;> simp only <;> omega

/-- The computations of a run, by position. -/
theorem tables_of_run {requests : List SHA256ChainRequest}
    {cs : List SHA256ChainMangroveComputation}
    (h : b.computeMangroveConstraints sha256 requests = .ok cs) :
    cs.length = b.numLeafs ∧ ∀ i c, cs[i]? = some c →
      ∃ request, requests[i]? = some request ∧ b.computation sha256 i request = .ok c := by
  unfold SHA256ChainBuilder.computeMangroveConstraints at h
  simp only [bind_eq_ok, assert_eq_ok, exists_const, mapM_eq_ok_iff] at h
  obtain ⟨hlen, hrun⟩ := h
  obtain ⟨hlen', hget⟩ := List.forall₂_iff_get.mp hrun
  rw [List.length_zipIdx] at hlen'
  refine ⟨hlen'.symm.trans hlen, fun i c hc => ?_⟩
  obtain ⟨hi, rfl⟩ := List.getElem?_eq_some_iff.mp hc
  have hi' : i < requests.length := by omega
  have hstep := hget i (by simpa using hi') hi
  refine ⟨requests[i], List.getElem?_eq_getElem hi', ?_⟩
  simpa using hstep

end Builder

/-! ## The products of the leaves and the products as polynomials -/

section Products

variable {R : Type} [CommSemiring R]

/-- The value of a cell. -/
def cellValue (inputs outputs : ℕ → List R) (c : ℕ × ℕ) : R :=
  if c.2 < 32 then (inputs c.1).getD c.2 0 else (outputs c.1).getD (c.2 - 32) 0

/-- The cells of a vector of 32 values. -/
theorem cellsOf_eq {values : List R} (hlen : values.length = 32) (index next : ℕ → ℕ) :
    cellsOf values (((List.range 32).map index).map Nat.cast)
        (((List.range 32).map next).map Nat.cast) =
      (List.range 32).map fun k => ⟨values.getD k 0, index k, next k⟩ := by
  apply List.ext_getElem
  · simp [cellsOf, hlen]
  · intro k h₁ h₂
    have hk : k < values.length := by
      rw [hlen]
      simpa using h₂
    simp [cellsOf, List.getElem_zipWith, hk]

theorem prod_range_eq {n : ℕ} (f : ℕ → R) :
    ((List.range n).map f).prod = ∏ i ∈ Finset.range n, f i := by
  induction n with
  | zero => rfl
  | succ n ih =>
      rw [List.range_succ, List.map_append, List.prod_append, ih, Finset.prod_range_succ,
        List.map_singleton, List.prod_singleton]

/-- The products of a vector of 32 values with its tables. -/
theorem nativeProducts_eq {values : List R} (hlen : values.length = 32) (index next : ℕ → ℕ)
    (alpha beta : R) :
    computePermutationPartialProductsNative values ((List.range 32).map index)
        ((List.range 32).map next) alpha beta =
      .ok (∏ k ∈ Finset.range 32, (alpha * (index k : R) + beta + values.getD k 0),
        ∏ k ∈ Finset.range 32, (alpha * (next k : R) + beta + values.getD k 0)) := by
  unfold computePermutationPartialProductsNative
  refine bind_eq_ok.mpr ⟨(), assert_eq_ok.mpr (by simp [hlen]), ?_⟩
  refine bind_eq_ok.mpr ⟨(), assert_eq_ok.mpr (by simp [hlen]), ?_⟩
  rw [cellsOf_eq hlen, partialProducts_eq, List.map_map, List.map_map, prod_range_eq,
    prod_range_eq]
  rfl

variable {b : SHA256ChainBuilder} {inputs outputs : ℕ → List R}

/-- The products of a leaf run over its cells. -/
theorem leafProducts_eq {i : ℕ} {c : SHA256ChainMangroveComputation} (hc : Tables b i c)
    (hin : (inputs i).length = 32) (hout : (outputs i).length = 32) (alpha beta : R) :
    leafProducts c (inputs i) (outputs i) alpha beta =
      .ok (∏ k ∈ Finset.range 64,
          (alpha * (cellIndex (i, k) : R) + beta + cellValue inputs outputs (i, k)),
        ∏ k ∈ Finset.range 64, (alpha * (cellIndex (nextCell b.numLeafs (i, k)) : R) + beta +
          cellValue inputs outputs (i, k))) := by
  have hsplit : ∀ f : ℕ → R, ∏ k ∈ Finset.range 64, f k =
      (∏ k ∈ Finset.range 32, f k) * ∏ k ∈ Finset.range 32, f (k + 32) := by
    intro f
    rw [show 64 = 32 + 32 from rfl, Finset.prod_range_add]
    simp only [Nat.add_comm]
  have hlow : ∀ k ∈ Finset.range 32, cellValue inputs outputs (i, k) = (inputs i).getD k 0 :=
    fun k hk => if_pos (Finset.mem_range.mp hk)
  have hhigh : ∀ k, cellValue inputs outputs (i, k + 32) = (outputs i).getD k 0 := by
    intro k
    have hge : ¬ k + 32 < 32 := by omega
    simp only [cellValue, if_neg hge, Nat.add_sub_cancel]
  unfold leafProducts
  rw [hc.input, hc.inputNext, hc.output, hc.outputNext, nativeProducts_eq hin,
    nativeProducts_eq hout, hsplit, hsplit]
  simp only [hhigh]
  have hcongr : ∀ label : ℕ → R, ∏ k ∈ Finset.range 32, (alpha * label k + beta +
      cellValue inputs outputs (i, k)) =
        ∏ k ∈ Finset.range 32, (alpha * label k + beta + (inputs i).getD k 0) := by
    intro label
    exact Finset.prod_congr rfl fun k hk => by rw [hlow k hk]
  rw [hcongr, hcongr]
  rfl

/-- **The products of all leaves** run over all cells. -/
theorem allProducts_eq {sha256 : List UInt8 → List UInt8} {requests : List SHA256ChainRequest}
    {cs : List SHA256ChainMangroveComputation}
    (h : b.computeMangroveConstraints sha256 requests = .ok cs)
    (hin : ∀ i < b.numLeafs, (inputs i).length = 32)
    (hout : ∀ i < b.numLeafs, (outputs i).length = 32) (alpha beta : R) :
    allProducts cs inputs outputs alpha beta =
      .ok (∏ c ∈ cellsUpTo b.numLeafs,
          (alpha * (cellIndex c : R) + beta + cellValue inputs outputs c),
        ∏ c ∈ cellsUpTo b.numLeafs, (alpha * (cellIndex (nextCell b.numLeafs c) : R) + beta +
          cellValue inputs outputs c)) := by
  obtain ⟨hlen, hcs⟩ := tables_of_run h
  have hmap : (cs.zipIdx.mapM fun c => leafProducts c.1 (inputs c.2) (outputs c.2) alpha beta) =
      .ok ((List.range cs.length).map fun i => (∏ k ∈ Finset.range 64,
          (alpha * (cellIndex (i, k) : R) + beta + cellValue inputs outputs (i, k)),
        ∏ k ∈ Finset.range 64, (alpha * (cellIndex (nextCell b.numLeafs (i, k)) : R) + beta +
          cellValue inputs outputs (i, k)))) := by
    apply mapM_zipIdx_eq
    intro i c hc
    obtain ⟨request, -, hstep⟩ := hcs i c hc
    have hi : i < b.numLeafs := by
      rw [← hlen]
      exact (List.getElem?_eq_some_iff.mp hc).1
    exact leafProducts_eq (computation_eq_ok hstep).2.2 (hin i hi) (hout i hi) alpha beta
  unfold allProducts
  refine bind_eq_ok.mpr ⟨_, hmap, ?_⟩
  rw [hlen, List.map_map, List.map_map, cellsUpTo, Finset.prod_product, Finset.prod_product,
    prod_range_eq, prod_range_eq]
  rfl

end Products

section Polynomials

variable {p : ℕ}

/-- Values as constant polynomials in both challenges. -/
noncomputable def constants (values : ℕ → List (ZMod p)) (i : ℕ) : List (ZMod p)[X][X] :=
  (values i).map fun v => C (C v)

theorem cellValue_constants (inputs outputs : ℕ → List (ZMod p)) (c : ℕ × ℕ) :
    cellValue (constants inputs) (constants outputs) c = C (C (cellValue inputs outputs c)) := by
  have hget : ∀ (values : List (ZMod p)) (k : ℕ),
      (values.map fun v => (C (C v) : (ZMod p)[X][X])).getD k 0 = C (C (values.getD k 0)) := by
    intro values k
    simp only [List.getD_eq_getElem?_getD, List.getElem?_map]
    cases values[k]? <;> simp
  unfold cellValue constants
  split_ifs
  · exact hget _ _
  · exact hget _ _

variable {inputs outputs : ℕ → List (ZMod p)} {leafs : ℕ}

/-- The chain condition, cell by cell. -/
theorem cellValue_nextCell_iff (hin : ∀ i < leafs, (inputs i).length = 32)
    (hout : ∀ i < leafs, (outputs i).length = 32) :
    (∀ c ∈ cellsUpTo leafs,
      cellValue inputs outputs c = cellValue inputs outputs (nextCell leafs c)) ↔
      ∀ i, i + 1 < leafs → outputs i = inputs (i + 1) := by
  constructor
  · intro h i hi
    apply List.ext_getElem
    · rw [hout i (by omega), hin (i + 1) hi]
    · intro k hk hk'
      have hk32 : k < 32 := by
        rw [← hout i (by omega)]
        exact hk
      have hcell := h (i, k + 32) (mem_cellsUpTo.mpr ⟨by omega, by omega⟩)
      have hge : ¬ k + 32 < 32 := by omega
      have hlast : i < leafs - 1 := by omega
      simp only [cellValue, nextCell, if_neg hge, if_pos hlast, Nat.add_sub_cancel,
        if_pos hk32] at hcell
      rwa [List.getD_eq_getElem _ _ hk, List.getD_eq_getElem _ _ hk'] at hcell
  · intro h c hc
    obtain ⟨i, k⟩ := c
    rw [mem_cellsUpTo] at hc
    simp only at hc
    by_cases hk : k < 32
    · by_cases hi : i = 0
      · simp only [nextCell, if_pos hk, if_pos hi]
      · have hge : ¬ k + 32 < 32 := by omega
        have hlink := h (i - 1) (by omega)
        rw [Nat.sub_add_cancel (Nat.pos_of_ne_zero hi)] at hlink
        simp only [cellValue, nextCell, if_pos hk, if_neg hi, if_neg hge, Nat.add_sub_cancel,
          hlink]
    · by_cases hi : i < leafs - 1
      · have hlt : k - 32 < 32 := by omega
        simp only [cellValue, nextCell, if_neg hk, if_pos hi, if_pos hlt, h i (by omega)]
      · simp only [nextCell, if_neg hk, if_neg hi]

/-- **Product equality** of all cells is the chain condition. -/
theorem prod_cells_iff [Fact p.Prime] (hp : 64 * leafs ≤ p)
    (hin : ∀ i < leafs, (inputs i).length = 32) (hout : ∀ i < leafs, (outputs i).length = 32) :
    (∏ c ∈ cellsUpTo leafs, (C X * (cellIndex c : (ZMod p)[X][X]) + X +
        cellValue (constants inputs) (constants outputs) c) =
      ∏ c ∈ cellsUpTo leafs, (C X * (cellIndex (nextCell leafs c) : (ZMod p)[X][X]) + X +
        cellValue (constants inputs) (constants outputs) c)) ↔
      ∀ i, i + 1 < leafs → outputs i = inputs (i + 1) := by
  have hterm : ∀ (n : ℕ) (c : ℕ × ℕ), C X * (n : (ZMod p)[X][X]) + X +
      cellValue (constants inputs) (constants outputs) c =
        GrandProduct.term ((n : ZMod p), cellValue inputs outputs c) := by
    intro n c
    rw [cellValue_constants, GrandProduct.term, map_natCast, map_natCast]
  simp only [hterm]
  rw [GrandProduct.prod_permuted_iff (fun _ => nextCell_mem) (fun _ => nextCell_nextCell)
    (cellIndex_injOn hp), cellValue_nextCell_iff hin hout]

/-- The product of all cells, evaluated at the challenges. -/
theorem evalEval_prod_cells (index : ℕ × ℕ → ℕ) (inputs outputs : ℕ → List (ZMod p))
    (alpha beta : ZMod p) :
    evalEval alpha beta (∏ c ∈ cellsUpTo leafs, (C X * (index c : (ZMod p)[X][X]) + X +
        cellValue (constants inputs) (constants outputs) c)) =
      ∏ c ∈ cellsUpTo leafs,
        (alpha * (index c : ZMod p) + beta + cellValue inputs outputs c) := by
  simp only [cellValue_constants]
  rw [← coe_evalEvalRingHom, map_prod]
  apply Finset.prod_congr rfl
  intro c _
  simp only [map_add, map_mul, map_natCast, coe_evalEvalRingHom, evalEval_C, evalEval_X, eval_X,
    eval_C]

end Polynomials

/-! ## Honest chains -/

section Honest

variable {sha256 : List UInt8 → List UInt8} {b : SHA256ChainBuilder}

/-- The bytes of a leaf as field values. -/
def byteValues {R : Type} [NatCast R] (field : SHA256ChainMangroveComputation → List UInt8)
    (cs : List SHA256ChainMangroveComputation) (i : ℕ) : List R :=
  ((cs[i]?.map field).getD []).map fun byte => (byte.toNat : R)

theorem requestsFrom_getElem? (leafSize : ℕ) (input : List UInt8) (leafs i : ℕ) (hi : i < leafs) :
    (SHA256ChainBuilder.requestsFrom sha256 leafSize leafs input)[i]? =
      some ⟨(sha256^[leafSize])^[i] input, leafSize⟩ := by
  induction leafs generalizing input i with
  | zero => omega
  | succ leafs ih =>
      cases i with
      | zero => rfl
      | succ i => exact ih (sha256^[leafSize] input) i (by omega)

theorem length_requestsFrom (leafSize : ℕ) (input : List UInt8) (leafs : ℕ) :
    (SHA256ChainBuilder.requestsFrom sha256 leafSize leafs input).length = leafs := by
  induction leafs generalizing input with
  | zero => rfl
  | succ leafs ih => exact congrArg (· + 1) (ih _)

theorem hashesFrom_getLast? (iterations : ℕ) (input : List UInt8) :
    (SHA256ChainBuilder.hashesFrom sha256 (iterations + 1) input).getLast? =
      some (sha256^[iterations + 1] input) := by
  induction iterations generalizing input with
  | zero => rfl
  | succ iterations ih =>
      rw [SHA256ChainBuilder.hashesFrom, List.getLast?_cons, ih (sha256 input)]
      rfl

theorem new_eq_ok {chainLength numLeafs : ℕ}
    (h : SHA256ChainBuilder.new chainLength numLeafs = .ok b) :
    b.numLeafs = numLeafs ∧ 0 < b.leafSize := by
  unfold SHA256ChainBuilder.new at h
  simp only [bind_eq_ok, assert_eq_ok, exists_const] at h
  obtain ⟨hchain, hleafs, hmod, hb⟩ := h
  cases hb
  constructor
  · rfl
  · exact Nat.div_pos (Nat.le_of_dvd hchain (Nat.dvd_of_mod_eq_zero hmod)) hleafs

/-- The leaves of an honest chain, by position. -/
theorem honest_leaf {initialInput : List UInt8} (hsize : 0 < b.leafSize)
    {cs : List SHA256ChainMangroveComputation}
    (h : b.computeMangroveConstraints sha256 (b.generateRequests sha256 initialInput) = .ok cs)
    {i : ℕ} (hi : i < b.numLeafs) : ∃ c, cs[i]? = some c ∧
      c.initialInput = (sha256^[b.leafSize])^[i] initialInput ∧
      c.finalOutput = (sha256^[b.leafSize])^[i + 1] initialInput := by
  obtain ⟨hlen, hcs⟩ := tables_of_run h
  have hic : i < cs.length := by rwa [hlen]
  have hget : cs[i]? = some cs[i] := List.getElem?_eq_getElem hic
  obtain ⟨request, hrequest, hstep⟩ := hcs i cs[i] hget
  rw [SHA256ChainBuilder.generateRequests, requestsFrom_getElem? _ _ _ _ hi,
    Option.some_inj] at hrequest
  obtain ⟨hinput, hlast, -⟩ := computation_eq_ok hstep
  obtain ⟨n, hn⟩ := Nat.exists_eq_succ_of_ne_zero hsize.ne'
  rw [← hrequest] at hinput hlast
  simp only [hn, Nat.succ_eq_add_one, hashesFrom_getLast?, Option.some_inj] at hlast
  refine ⟨cs[i], hget, hinput, ?_⟩
  rw [← hlast, hn, ← Function.iterate_succ_apply' (sha256^[n + 1])]

variable (sha256) in
/-- An honest chain is built. -/
theorem honest_chain_ok (initialInput : List UInt8) (hsize : 0 < b.leafSize) :
    ∃ cs, b.computeMangroveConstraints sha256 (b.generateRequests sha256 initialInput) =
      .ok cs := by
  unfold SHA256ChainBuilder.computeMangroveConstraints SHA256ChainBuilder.generateRequests
  simp only [bind_eq_ok, assert_eq_ok, exists_const, length_requestsFrom, true_and]
  rw [exists_mapM]
  rintro ⟨request, i⟩ hmem
  have hi := List.mem_zipIdx_iff_getElem?.mp hmem
  have hlt : i < b.numLeafs := by
    have := (List.getElem?_eq_some_iff.mp hi).1
    rwa [length_requestsFrom] at this
  rw [requestsFrom_getElem? _ _ _ _ hlt, Option.some_inj] at hi
  obtain ⟨n, hn⟩ := Nat.exists_eq_succ_of_ne_zero hsize.ne'
  unfold SHA256ChainBuilder.computation
  rw [← hi]
  simp only [hn, Nat.succ_eq_add_one, hashesFrom_getLast?]
  exact ⟨_, rfl⟩

/-- The bytes along an honest chain keep their number. -/
theorem length_iterate (hsha : ∀ message, (sha256 message).length = 32) {message : List UInt8}
    (hmessage : message.length = 32) (n : ℕ) : (sha256^[n] message).length = 32 := by
  induction n generalizing message with
  | zero => exact hmessage
  | succ n ih => exact ih (hsha message)

end Honest

/-- **The permutation argument**: the products of all leaves agree as polynomials in the
challenges exactly if the leaves form a chain, and they do for every honest chain. -/
theorem mangrove_permutation {p : ℕ} [Fact p.Prime] (sha256 : List UInt8 → List UInt8)
    (b : SHA256ChainBuilder) (hp : 64 * b.numLeafs ≤ p) :
    (∀ requests cs, b.computeMangroveConstraints sha256 requests = .ok cs →
      ∀ inputs outputs : ℕ → List (ZMod p), (∀ i < b.numLeafs, (inputs i).length = 32) →
        (∀ i < b.numLeafs, (outputs i).length = 32) → ∃ numerator denominator : (ZMod p)[X][X],
          allProducts cs (constants inputs) (constants outputs) (C X) X =
            .ok (numerator, denominator) ∧
          (∀ alpha beta, allProducts cs inputs outputs alpha beta =
            .ok (numerator.evalEval alpha beta, denominator.evalEval alpha beta)) ∧
          (numerator = denominator ↔ ∀ i, i + 1 < b.numLeafs → outputs i = inputs (i + 1))) ∧
    (∀ chainLength initialInput, SHA256ChainBuilder.new chainLength b.numLeafs = .ok b →
      (∀ message, (sha256 message).length = 32) → initialInput.length = 32 →
        ∃ cs, b.computeMangroveConstraints sha256 (b.generateRequests sha256 initialInput) =
            .ok cs ∧
          ∃ product : (ZMod p)[X][X],
            allProducts cs (constants (byteValues (·.initialInput) cs))
              (constants (byteValues (·.finalOutput) cs)) (C X) X = .ok (product, product)) := by
  have hlift : ∀ {leafs : ℕ} {values : ℕ → List (ZMod p)},
      (∀ i < leafs, (values i).length = 32) →
        ∀ i < leafs, (constants values i).length = 32 := by
    intro leafs values h i hi
    rw [constants, List.length_map, h i hi]
  constructor
  · intro requests cs hrun inputs outputs hin hout
    refine ⟨_, _, allProducts_eq hrun (hlift hin) (hlift hout) _ _, ?_, ?_⟩
    · intro alpha beta
      rw [allProducts_eq hrun hin hout]
      exact congrArg Except.ok (Prod.ext (evalEval_prod_cells cellIndex _ _ _ _).symm
        (evalEval_prod_cells (fun c => cellIndex (nextCell b.numLeafs c)) _ _ _ _).symm)
    · exact prod_cells_iff hp hin hout
  · intro chainLength initialInput hnew hsha hinput
    have hsize := (new_eq_ok hnew).2
    obtain ⟨cs, hrun⟩ := honest_chain_ok sha256 initialInput hsize
    have hlen : ∀ n, ((sha256^[b.leafSize])^[n] initialInput).length = 32 := by
      intro n
      rw [← Function.iterate_mul]
      exact length_iterate hsha hinput _
    have hin : ∀ i < b.numLeafs,
        (byteValues (R := ZMod p) (·.initialInput) cs i).length = 32 := by
      intro i hi
      obtain ⟨c, hc, hc₁, -⟩ := honest_leaf hsize hrun hi
      simp only [byteValues, hc, Option.map_some, Option.getD_some, List.length_map, hc₁, hlen]
    have hout : ∀ i < b.numLeafs,
        (byteValues (R := ZMod p) (·.finalOutput) cs i).length = 32 := by
      intro i hi
      obtain ⟨c, hc, -, hc₂⟩ := honest_leaf hsize hrun hi
      simp only [byteValues, hc, Option.map_some, Option.getD_some, List.length_map, hc₂, hlen]
    have hchain : ∀ i, i + 1 < b.numLeafs → byteValues (R := ZMod p) (·.finalOutput) cs i =
        byteValues (·.initialInput) cs (i + 1) := by
      intro i hi
      obtain ⟨c, hc, -, hc₂⟩ := honest_leaf hsize hrun (Nat.lt_of_succ_lt hi)
      obtain ⟨d, hd, hd₁, -⟩ := honest_leaf hsize hrun hi
      simp only [byteValues, hc, hd, Option.map_some, Option.getD_some, hc₂, hd₁]
    have hproducts := allProducts_eq hrun (hlift hin) (hlift hout) (C X) X
    rw [(prod_cells_iff hp hin hout).mpr hchain] at hproducts
    exact ⟨cs, hrun, _, hproducts⟩

/-- Two leaves of one hash each, with a hash that counts. -/
theorem mangrove_permutation_two : ∃ cs : List SHA256ChainMangroveComputation,
    ∃ numerator denominator product : (ZMod 131)[X][X],
      allProducts cs (constants fun i => List.replicate 32 (i : ZMod 131))
          (constants fun i => List.replicate 32 ((i + 1 : ℕ) : ZMod 131)) (C X) X =
        .ok (numerator, denominator) ∧ numerator = denominator ∧
      allProducts cs (constants (byteValues (·.initialInput) cs))
        (constants (byteValues (·.finalOutput) cs)) (C X) X = .ok (product, product) := by
  have : Fact (Nat.Prime 131) := ⟨by norm_num⟩
  obtain ⟨hproducts, hhonest⟩ := mangrove_permutation (p := 131)
    (fun message => List.replicate 32 (message.headD 0 + 1)) ⟨2, 2, 1⟩ (by norm_num)
  obtain ⟨cs, hrun, product, hproduct⟩ :=
    hhonest 2 (List.replicate 32 0) rfl (fun _ => List.length_replicate) List.length_replicate
  obtain ⟨numerator, denominator, hall, -, hiff⟩ := hproducts _ cs hrun
    (fun i => List.replicate 32 (i : ZMod 131))
    (fun i => List.replicate 32 ((i + 1 : ℕ) : ZMod 131))
    (fun _ _ => List.length_replicate) (fun _ _ => List.length_replicate)
  exact ⟨cs, numerator, denominator, product, hall, hiff.mpr fun _ _ => rfl, hproduct⟩

end NexusVm.Mangrove
