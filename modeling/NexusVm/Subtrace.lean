import NexusVm.Nova.Run
import NexusVm.Trace

/-!
# Subtraces

`vm/src/trace.rs`: the blocks of a trace by their index, and parts of a trace.
-/

namespace NexusVm

open Nova

section Subtraces

variable {P : Type}

/-- The block with index `n`, if it is in this (sub)trace. -/
def Trace.block (tr : Trace P) (n : ℕ) : Option (Block P) :=
  if n < tr.start ∨ tr.start + tr.blocks.length ≤ n then none else tr.blocks[n - tr.start]?

/-- The subtrace of block `n` only. -/
def Trace.get (tr : Trace P) (n : ℕ) : Option (Trace P) :=
  (tr.block n).map fun block => { k := tr.k, start := n, blocks := [block] }

/-- Subtraces of `n` blocks each; the last may have fewer.  They are numbered from zero. -/
def Trace.splitBy (tr : Trace P) (n : ℕ) : List (Trace P) :=
  (List.range ((tr.blocks.length + n - 1) / n)).map fun index =>
    { k := tr.k, start := index * n, blocks := (tr.blocks.drop (index * n)).take n }

/-- The circuit input for block `n`; a block without steps panics. -/
def Trace.input {E F : Type} [NatCast F] (commit : P → F) (tr : Trace P) (n : ℕ) :
    Run E (Option (List F)) :=
  match tr.block n with
  | none => .ok none
  | some block =>
      match block.steps with
      | [] => .error .panic
      | first :: _ => .ok (some ((block.regs.pc.toNat : F) ::
          (List.ofFn fun i => ((block.regs.x i).toNat : F)) ++ [commit first.pcProof]))

variable {tr : Trace P} {n : ℕ}

theorem Trace.block_eq_some_iff {block : Block P} :
    tr.block n = some block ↔ tr.start ≤ n ∧ tr.blocks[n - tr.start]? = some block := by
  unfold Trace.block
  split_ifs with h
  · constructor
    · intro hnone
      cases hnone
    · rintro ⟨hstart, hget⟩
      obtain ⟨hlt, -⟩ := List.getElem?_eq_some_iff.mp hget
      omega
  · rw [not_or, not_lt] at h
    exact ⟨fun hget => ⟨h.1, hget⟩, And.right⟩

/-- A trace from index zero has its blocks at their positions. -/
theorem Trace.block_of_start (h : tr.start = 0) (n : ℕ) :
    tr.block n = tr.blocks[n]? := by
  ext block
  rw [Trace.block_eq_some_iff, h, Nat.sub_zero]
  exact ⟨And.right, fun hget => ⟨Nat.zero_le n, hget⟩⟩

theorem Trace.exists_block (h : tr.start = 0) (hn : n < tr.blocks.length) :
    ∃ block, tr.block n = some block := by
  rw [Trace.block_of_start h]
  exact ⟨_, List.getElem?_eq_getElem hn⟩

variable {tr part : Trace P}

/-- A part of a trace from index zero has its first block. -/
theorem Trace.block_of_splitBy (hn : 0 < n) (hstart : tr.start = 0) (h : part ∈ tr.splitBy n) :
    part.start < tr.blocks.length ∧ part.block part.start = tr.block part.start := by
  obtain ⟨index, hindex, rfl⟩ := List.mem_map.mp h
  rw [List.mem_range, Nat.lt_div_iff_mul_lt hn] at hindex
  have hlt : index * n < tr.blocks.length := by
    have hcomm := Nat.mul_comm index n
    omega
  refine ⟨hlt, ?_⟩
  rw [Trace.block_of_start hstart]
  obtain ⟨block, hblock⟩ : ∃ block, tr.blocks[index * n]? = some block :=
    ⟨_, List.getElem?_eq_getElem hlt⟩
  rw [hblock, Trace.block_eq_some_iff]
  refine ⟨le_refl _, ?_⟩
  rw [Nat.sub_self, List.getElem?_take_of_lt hn, List.getElem?_drop, Nat.add_zero, hblock]

/-- The input depends on the block only. -/
theorem Trace.input_congr {E F : Type} [NatCast F] {commit : P → F} (h : part.block n = tr.block n) :
    (part.input commit n : Run E (Option (List F))) = tr.input commit n := by
  unfold Trace.input
  rw [h]

/-- Inputs come from blocks with a step. -/
theorem Trace.input_eq_ok {E F : Type} [NatCast F] {commit : P → F} :
    (∃ z, (tr.input commit n : Run E _) = .ok (some z)) ↔
      ∃ block, tr.block n = some block ∧ block.steps ≠ [] := by
  unfold Trace.input
  constructor
  · rintro ⟨z, hz⟩
    split at hz
    · cases hz
    · rename_i block hblock
      split at hz
      · cases hz
      · rename_i first rest hsteps
        exact ⟨block, hblock, by rw [hsteps]; exact List.cons_ne_nil _ _⟩
  · rintro ⟨block, hblock, hsteps⟩
    obtain ⟨first, rest, hcons⟩ := List.exists_cons_of_ne_nil hsteps
    rw [hblock]
    dsimp only
    rw [hcons]
    exact ⟨_, rfl⟩

/-- **A split that keeps the indices**: the parts have the blocks in order, a block of the
trace is answered by one part only, and other indices by none. -/
structure Trace.SplitKeeps (tr : Trace P) (n : ℕ) : Prop where
  blocks : (tr.splitBy n).flatMap Trace.blocks = tr.blocks
  answered : ∀ {i : ℕ} {block : Block P}, tr.block i = some block →
    ∃ (j : ℕ) (part : Trace P), (tr.splitBy n)[j]? = some part ∧ part.block i = some block ∧
      ∀ (j' : ℕ) (part' : Trace P), (tr.splitBy n)[j']? = some part' →
        (part'.block i).isSome → j' = j
  unanswered : ∀ {i : ℕ}, tr.block i = none → ∀ part ∈ tr.splitBy n, part.block i = none

/-- Chunks of `n` items cover the items before the end of the last chunk. -/
theorem flatMap_chunks {α : Type} (l : List α) (n m : ℕ) :
    ((List.range m).flatMap fun index => (l.drop (index * n)).take n) = l.take (m * n) := by
  induction m with
  | zero => rw [Nat.zero_mul, List.take_zero, List.range_zero, List.flatMap_nil]
  | succ m ih =>
      rw [List.range_succ, List.flatMap_append, ih, List.flatMap_singleton, Nat.succ_mul,
        List.take_add]

theorem Trace.flatMap_splitBy (tr : Trace P) (hn : 0 < n) :
    (tr.splitBy n).flatMap Trace.blocks = tr.blocks := by
  have hceil : tr.blocks.length ≤ (tr.blocks.length + n - 1) / n * n := by
    have hdiv := Nat.div_add_mod (tr.blocks.length + n - 1) n
    have hmod := Nat.mod_lt (tr.blocks.length + n - 1) hn
    rw [Nat.mul_comm] at hdiv
    omega
  rw [Trace.splitBy, List.flatMap_map, flatMap_chunks, List.take_of_length_le hceil]

/-- The part with a given position. -/
theorem Trace.getElem?_splitBy {n j : ℕ} (hn : 0 < n) :
    (tr.splitBy n)[j]? = some part ↔ j * n < tr.blocks.length ∧
      part = ⟨tr.k, j * n, (tr.blocks.drop (j * n)).take n⟩ := by
  have hlt : j < (tr.blocks.length + n - 1) / n ↔ j * n < tr.blocks.length := by
    rw [Nat.lt_div_iff_mul_lt hn, Nat.mul_comm]
    omega
  rw [Trace.splitBy, List.getElem?_map, Option.map_eq_some_iff, ← hlt]
  constructor
  · rintro ⟨index, hindex, rfl⟩
    obtain ⟨hj, rfl⟩ := List.getElem?_eq_some_iff.mp hindex
    rw [List.length_range] at hj
    rw [List.getElem_range]
    exact ⟨hj, rfl⟩
  · rintro ⟨hj, rfl⟩
    exact ⟨j, List.getElem?_range hj, rfl⟩

/-- A chunk answers the indices of its blocks, counted from zero. -/
theorem Trace.block_chunk {n j i : ℕ} {block : Block P} :
    Trace.block ⟨tr.k, j * n, (tr.blocks.drop (j * n)).take n⟩ i = some block ↔
      j * n ≤ i ∧ i < j * n + n ∧ tr.blocks[i]? = some block := by
  rw [Trace.block_eq_some_iff]
  dsimp only
  rw [List.getElem?_take, List.getElem?_drop]
  constructor
  · rintro ⟨hle, hget⟩
    split_ifs at hget with hlt
    have hi : j * n + (i - j * n) = i := Nat.add_sub_cancel' hle
    rw [hi] at hget
    exact ⟨hle, by omega, hget⟩
  · rintro ⟨hle, hlt, hget⟩
    refine ⟨hle, ?_⟩
    rw [if_pos (by omega), Nat.add_sub_cancel' hle, hget]

/-- A trace from index zero is split with its indices. -/
theorem Trace.splitKeeps_of_start (hn : 0 < n) (hstart : tr.start = 0) :
    tr.SplitKeeps n := by
  constructor
  · exact tr.flatMap_splitBy hn
  · intro i block hblock
    rw [Trace.block_of_start hstart] at hblock
    obtain ⟨hlen, -⟩ := List.getElem?_eq_some_iff.mp hblock
    have hdiv : i / n * n ≤ i := Nat.div_mul_le_self i n
    have hnext : i < i / n * n + n := by
      have hmod := Nat.mod_lt i hn
      have hsum := Nat.div_add_mod i n
      rw [Nat.mul_comm] at hsum
      omega
    refine ⟨i / n, _, (Trace.getElem?_splitBy hn).mpr ⟨by omega, rfl⟩,
      Trace.block_chunk.mpr ⟨hdiv, hnext, hblock⟩, ?_⟩
    intro j part hpart hsome
    obtain ⟨-, rfl⟩ := (Trace.getElem?_splitBy hn).mp hpart
    obtain ⟨block', hblock'⟩ := Option.isSome_iff_exists.mp hsome
    obtain ⟨hle, hlt, -⟩ := Trace.block_chunk.mp hblock'
    symm
    rw [Nat.div_eq_iff hn]
    omega
  · intro i hnone part hpart
    rw [Trace.block_of_start hstart] at hnone
    obtain ⟨j, hj⟩ := List.mem_iff_getElem?.mp hpart
    obtain ⟨-, rfl⟩ := (Trace.getElem?_splitBy hn).mp hj
    cases hblock : Trace.block ⟨tr.k, j * n, (tr.blocks.drop (j * n)).take n⟩ i with
    | none => rfl
    | some block =>
        obtain ⟨-, -, hget⟩ := Trace.block_chunk.mp hblock
        rw [hnone] at hget
        cases hget

/-- **A split keeps the indices** exactly if the trace starts at index zero, or has no
blocks: the parts are numbered from zero, not from the start of the trace. -/
theorem Trace.splitKeeps_iff (tr : Trace P) (hn : 0 < n) :
    tr.SplitKeeps n ↔ tr.start = 0 ∨ tr.blocks = [] := by
  constructor
  · intro hkeeps
    by_contra hne
    rw [not_or] at hne
    obtain ⟨hstart, hblocks⟩ := hne
    have hpos : 0 * n < tr.blocks.length := by
      rw [Nat.zero_mul]
      exact List.length_pos_iff.mpr hblocks
    have hfirst := (Trace.getElem?_splitBy hn).mpr ⟨hpos, rfl⟩
    have hnone : tr.block 0 = none := by
      unfold Trace.block
      rw [if_pos (Or.inl (Nat.pos_of_ne_zero hstart))]
    have hunanswered := hkeeps.unanswered hnone _ (List.mem_of_getElem? hfirst)
    have hhead : tr.blocks[0]? = some (tr.blocks.head hblocks) := by
      rw [← List.head?_eq_getElem?, List.head?_eq_some_head]
    have hanswer : Trace.block ⟨tr.k, 0 * n, (tr.blocks.drop (0 * n)).take n⟩ 0 =
        some (tr.blocks.head hblocks) :=
      Trace.block_chunk.mpr ⟨by omega, by omega, hhead⟩
    rw [hunanswered] at hanswer
    cases hanswer
  · rintro (hstart | hblocks)
    · exact Trace.splitKeeps_of_start hn hstart
    · have hnil : tr.splitBy n = [] := by
        have hdiv : (0 + n - 1) / n = 0 := Nat.div_eq_of_lt (by omega)
        rw [Trace.splitBy, hblocks, List.length_nil, hdiv, List.range_zero, List.map_nil]
      have hnone : ∀ i, tr.block i = none := by
        intro i
        unfold Trace.block
        rw [hblocks, List.getElem?_nil, ite_self]
      constructor
      · rw [hnil, hblocks, List.flatMap_nil]
      · intro i block hblock
        rw [hnone] at hblock
        cases hblock
      · intro i _ part hpart
        rw [hnil] at hpart
        cases hpart

end Subtraces

/-- Two blocks without steps, from the registers with the given program counters. -/
def twoBlocks : Trace Unit := ⟨1, 0, [⟨⟨0, fun _ => 0⟩, []⟩, ⟨⟨4, fun _ => 0⟩, []⟩]⟩

theorem splitKeeps_twoBlocks : twoBlocks.SplitKeeps 1 :=
  (twoBlocks.splitKeeps_iff Nat.one_pos).mpr (Or.inl rfl)

/-- The subtrace of the second block: its only part answers index zero. -/
theorem not_splitKeeps_get : ∃ tr, twoBlocks.get 1 = some tr ∧ ¬ tr.SplitKeeps 1 := by
  refine ⟨_, rfl, fun hkeeps => ?_⟩
  have hnone := hkeeps.unanswered (i := 0) rfl _ List.mem_cons_self
  cases hnone

end NexusVm
