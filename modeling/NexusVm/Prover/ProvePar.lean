import NexusVm.Nova.Circuits.PcdParent
import NexusVm.Subtrace
import NexusVm.TraceShape

/-!
# The parallel prover

`core/src/prover/nova`.  Leaves prove the even blocks of a trace; nodes are joined level by level,
and each join proves the block between its children.

If a trace is numbered from zero, has one block less than a power of two and a step in every even
block, the root covers all blocks once and in order.  The guards of the source exclude other
traces.  Proving a leaf or a node is a parameter; a join that fails makes the prover fail.  What is
proved about the steps inside the blocks is not the subject here.
-/

namespace NexusVm.Prover

open Nova Nova.R1cs Nova.Cyclefold Nova.Circuits Nova.Circuits.Pcd

/-- `ProofError`, the variants that proofs of nodes return. -/
inductive ProofError
  | circuitError
  | witnessError (e : R1cs.Error)
  | invalidIndex (i : ℕ)
  | novaProofError

/-- `From<NovaError>`. -/
def ProofError.fromNova : Cyclefold.Error → ProofError
  | .r1cs e => .witnessError e
  | .synthesis => .circuitError
  | .invalidPublicInput => .novaProofError

/-- `usize::is_power_of_two`. -/
def isPowerOfTwo (n : ℕ) : Bool := 2 ^ Nat.log2 n = n

theorem isPowerOfTwo_iff {n : ℕ} : isPowerOfTwo n = true ↔ ∃ m, n = 2 ^ m := by
  rw [isPowerOfTwo, decide_eq_true_eq]
  constructor
  · intro h
    exact ⟨_, h.symm⟩
  · rintro ⟨m, rfl⟩
    rw [Nat.log2_two_pow]

section TraceCircuit

variable {n b : ℕ} {G1 G2 PP1 PP2 P : Type} [Fact n.Prime] [Fact b.Prime] [AddCommGroup G1]
  [Module (ZMod n) G1] [AddCommGroup G2] [Module (ZMod b) G2]
  {c : Setting n b G1 G2 PP1 PP2}

/-- The index that the circuit takes from the value of `k`: its lowest limb. -/
def stepIndex (k : ZMod n) : ℕ := k.val % 2 ^ 64

/-- What is behind the proofs of nodes: public parameters, the circuit of a block and its shape. -/
structure BlockProver (c : Setting n b G1 G2 PP1 PP2) (P : Type) where
  params : PublicParams (ZMod n) PP1 PP2
  SC : StepCircuit (ZMod n)
  system : System c SC
  /-- The values that `build_constraints` allocates for a block. -/
  blockHint : Block P → List (ZMod n) → SC.Aux
  /-- `MemoryProof::commit`. -/
  commit : P → ZMod n

/-- `Tr`, as a step circuit: the constraints do not depend on the trace, the values do. -/
def BlockProver.tr (prover : BlockProver c P) (trace : Trace P) : StepCircuit (ZMod n) where
  arity := prover.SC.arity
  Aux := prover.SC.Aux
  hint k z :=
    match trace.block (stepIndex k) with
    | some block => prover.blockHint block z
    | none => prover.SC.hint k z
  generateConstraints := prover.SC.generateConstraints
  length_value := prover.SC.length_value

/-- Lengths do not depend on the trace. -/
theorem BlockProver.valid_iff (prover : BlockProver c P) (trace : Trace P)
    {input : InputVar n b G2} :
    input.Valid (prover.tr trace) ↔ input.Valid prover.SC := by
  constructor
  · intro h
    exact ⟨⟨h.z_i, h.z_j, h.z_k⟩, h.left, h.right, h.proof_E_0, h.proof_E_1, h.proof_W⟩
  · intro h
    exact ⟨⟨h.z_i, h.z_j, h.z_k⟩, h.left, h.right, h.proof_E_0, h.proof_E_1, h.proof_W⟩

/-- The shape is the same for all traces. -/
def BlockProver.trSystem (prover : BlockProver c P) (trace : Trace P) :
    System c (prover.tr trace) where
  shape := prover.system.shape
  isAugmented := prover.system.isAugmented
  witness := prover.system.witness
  length_witness input h := prover.system.length_witness input ((prover.valid_iff trace).mp h)
  rows_iff input x h := prover.system.rows_iff input x ((prover.valid_iff trace).mp h)
  decode := prover.system.decode
  decode_holds x W hlen hrows := by
    obtain ⟨hvalid, hholds⟩ := prover.system.decode_holds x W hlen hrows
    exact ⟨(prover.valid_iff trace).mpr hvalid, hholds⟩

/-- `build_constraints` fails without the block. -/
def BlockProver.lookup (_ : BlockProver c P) (trace : Trace P) (k : ZMod n) :
    Run Cyclefold.Error Unit :=
  Run.failIf (trace.block (stepIndex k) = none) .synthesis

/-- `PCDNode::prove_leaf` with a trace. -/
def BlockProver.proveLeaf (prover : BlockProver c P) (trace : Trace P) (i : ℕ)
    (z_i : List (ZMod n)) : Run Cyclefold.Error (PCDNode n b G1 G2) := do
  prover.lookup trace (UInt64.ofNat i).toNat
  .ok (Pcd.proveLeaf (prover.trSystem trace) prover.params (UInt64.ofNat i) z_i)

/-- `PCDNode::prove_parent` with a trace: the middle step has the index `j` of the left node. -/
def BlockProver.proveParent (prover : BlockProver c P) (trace : Trace P)
    (left_node right_node : PCDNode n b G1 G2) : Run Cyclefold.Error (PCDNode n b G1 G2) := do
  let node ← Pcd.proveParent (prover.trSystem trace) prover.params left_node right_node
  prover.lookup trace left_node.j.toNat
  .ok node

/-- A call of the prover. -/
inductive Call (n b : ℕ) (G1 G2 : Type)
  | leaf (i : ℕ)
  | parent (ab0 ab1 : PCDNode n b G1 G2)

/-- The block whose step a call proves. -/
def Call.block : Call n b G1 G2 → ℕ
  | .leaf i => i
  | .parent ab0 _ => ab0.j.toNat

variable (prover : BlockProver c P) (tr : Trace P)

/-- `prove_par_leaf_step`. -/
def proveParLeafStep (i : ℕ) : Run ProofError (PCDNode n b G1 G2) := do
  Run.assert (isPowerOfTwo (tr.blocks.length + 1))
  let input ← tr.input prover.commit i
  match input with
  | none => .error (.error (.invalidIndex i))
  | some z => (prover.proveLeaf tr i z).mapError .fromNova

/-- `prove_par_parent_step`. -/
def proveParParentStep (ab0 ab1 : PCDNode n b G1 G2) : Run ProofError (PCDNode n b G1 G2) := do
  Run.assert (isPowerOfTwo (tr.blocks.length + 1))
  (prover.proveParent tr ab0 ab1).mapError .fromNova

/-- The leaves, and the calls that were made. -/
def proveLeaves : List ℕ → Run ProofError (List (PCDNode n b G1 G2)) × List (Call n b G1 G2)
  | [] => (.ok [], [])
  | i :: rest =>
      match proveParLeafStep prover tr i with
      | .error e => (.error e, [.leaf i])
      | .ok v => ((proveLeaves rest).1.map (v :: ·), .leaf i :: (proveLeaves rest).2)

/-- A pass over `vs.chunks(2)`, and the calls that were made; a single node at the end panics. -/
def proveLevel : List (PCDNode n b G1 G2) →
    Run ProofError (List (PCDNode n b G1 G2)) × List (Call n b G1 G2)
  | [] => (.ok [], [])
  | [_] => (.error .panic, [])
  | ab0 :: ab1 :: vs =>
      match proveParParentStep prover tr ab0 ab1 with
      | .error e => (.error e, [.parent ab0 ab1])
      | .ok v => ((proveLevel vs).1.map (v :: ·), .parent ab0 ab1 :: (proveLevel vs).2)

/-- The loop of `prove_par`; `none` is lack of fuel. -/
def proveLevels : ℕ → List (PCDNode n b G1 G2) →
    Option (Run ProofError (PCDNode n b G1 G2) × List (Call n b G1 G2))
  | 0, _ => none
  | _ + 1, [v] => some (.ok v, [])
  | fuel + 1, vs =>
      match proveLevel prover tr vs with
      | (.error e, calls) => some (.error e, calls)
      | (.ok vs, calls) => (proveLevels fuel vs).map fun out => (out.1, calls ++ out.2)

/-- `prove_par`, and the calls that were made. -/
def provePar (fuel : ℕ) : Option (Run ProofError (PCDNode n b G1 G2) × List (Call n b G1 G2)) :=
  if isPowerOfTwo (tr.blocks.length + 1) then
    match proveLeaves prover tr (List.range' 0 ((tr.blocks.length + 1) / 2) 2) with
    | (.error e, calls) => some (.error e, calls)
    | (.ok vs, calls) => (proveLevels prover tr fuel vs).map fun out => (out.1, calls ++ out.2)
  else some (.error .panic, [])

/-- The blocks below a node, from left to right. -/
inductive Spans : PCDNode n b G1 G2 → List ℕ → Prop
  | leaf {i : ℕ} {v : PCDNode n b G1 G2} : proveParLeafStep prover tr i = .ok v → Spans v [i]
  | parent {ab0 ab1 v : PCDNode n b G1 G2} {blocks0 blocks1 : List ℕ} : Spans ab0 blocks0 →
      Spans ab1 blocks1 → proveParParentStep prover tr ab0 ab1 = .ok v →
      Spans v (blocks0 ++ ab0.j.toNat :: blocks1)

/-- A node over adjacent ranges, with the block between them for the middle step. -/
structure Joins (ab0 ab1 : PCDNode n b G1 G2) : Prop where
  adjacent : ab1.i.toNat = ab0.j.toNat + 1
  middle : ∃ block, tr.block ab0.j.toNat = some block ∧
    ∀ z, (prover.tr tr).hint (ab0.j.toNat : ZMod n) z = prover.blockHint block z

/-- **What a run should do**: join adjacent nodes, use no block twice, and end with a root over all
blocks in their order, unless the prover of a parent fails. -/
structure Covers (out : Run ProofError (PCDNode n b G1 G2) × List (Call n b G1 G2)) : Prop where
  joins : ∀ ab0 ab1, .parent ab0 ab1 ∈ out.2 → Joins prover tr ab0 ab1
  nodup : (out.2.map Call.block).Nodup
  root : (∃ root, out.1 = .ok root ∧ root.i = 0 ∧ root.j.toNat = tr.blocks.length ∧
      Spans prover tr root (List.range tr.blocks.length)) ∨
    ∃ ab0 ab1 e, .parent ab0 ab1 ∈ out.2 ∧ proveParParentStep prover tr ab0 ab1 = .error e ∧
      out.1 = .error e

variable {prover tr}

theorem stepIndex_natCast (hn : 2 ^ 64 ≤ n) {k : ℕ} (hk : k < 2 ^ 64) :
    stepIndex (k : ZMod n) = k := by
  rw [stepIndex, ZMod.val_cast_of_lt (hk.trans_le hn), Nat.mod_eq_of_lt hk]

variable (prover) in
/-- A leaf is proved exactly if its block is there and has a step. -/
theorem proveParLeafStep_iff (hn : 2 ^ 64 ≤ n) (hpow : isPowerOfTwo (tr.blocks.length + 1) = true)
    {i : ℕ} (hi : i + 1 < 2 ^ 64) :
    (∃ v, proveParLeafStep prover tr i = .ok v ∧ v.i.toNat = i ∧ v.j.toNat = i + 1) ↔
      ∃ block, tr.block i = some block ∧ block.steps ≠ [] := by
  have hcast : (UInt64.ofNat i).toNat = i :=
    UInt64.toNat_ofNat_of_lt (show i < 2 ^ 64 by omega)
  constructor
  · rintro ⟨v, hv, -⟩
    obtain ⟨u, -, hv⟩ := bind_eq_ok.mp hv
    obtain ⟨input, hinput, hv⟩ := bind_eq_ok.mp hv
    cases input with
    | none => cases hv
    | some z => exact Trace.input_eq_ok.mp ⟨z, hinput⟩
  · intro h
    obtain ⟨z, hz⟩ : ∃ z, (tr.input prover.commit i : Run ProofError _) = .ok (some z) :=
      Trace.input_eq_ok.mpr h
    obtain ⟨block, hblock, -⟩ := h
    have hlookup : prover.lookup tr ((UInt64.ofNat i).toNat : ZMod n) = .ok () := by
      apply failIf_eq_ok.mpr
      rw [hcast, stepIndex_natCast hn (by omega), hblock]
      exact Option.some_ne_none block
    refine ⟨Pcd.proveLeaf (prover.trSystem tr) prover.params (UInt64.ofNat i) z, bind_eq_ok.mpr
      ⟨(), assert_eq_ok.mpr hpow, bind_eq_ok.mpr ⟨some z, hz, mapError_eq_ok.mpr
        (bind_eq_ok.mpr ⟨(), hlookup, rfl⟩)⟩⟩, hcast, ?_⟩
    show (UInt64.ofNat i + 1).toNat = i + 1
    rw [UInt64.toNat_add, hcast, UInt64.toNat_one, Nat.mod_eq_of_lt hi]

variable {ab0 ab1 v : PCDNode n b G1 G2}

/-- A parent has the ends of its children. -/
theorem proveParParentStep_range (h : proveParParentStep prover tr ab0 ab1 = .ok v) :
    v.i = ab0.i ∧ v.j = ab1.j := by
  obtain ⟨u, -, h⟩ := bind_eq_ok.mp h
  obtain ⟨node, hnode, h⟩ := bind_eq_ok.mp (mapError_eq_ok.mp h)
  obtain ⟨u', -, h⟩ := bind_eq_ok.mp h
  cases h
  obtain ⟨fold_l, fold_r, fold, nodes, hparent⟩ :=
    (proveParent_eq_ok (prover.trSystem tr)).mp hnode
  rw [hparent.eq]
  exact ⟨rfl, rfl⟩

/-! ## Levels and the loop -/

variable (prover tr)

/-- A node over the `w - 1` blocks from `s` on. -/
structure NodeAt (v : PCDNode n b G1 G2) (s w : ℕ) : Prop where
  i : v.i.toNat = s
  j : v.j.toNat + 1 = s + w
  spans : Spans prover tr v (List.range' s (w - 1))

/-- Nodes of one width, each from one block after the end of the node before. -/
def LevelAt (w : ℕ) : ℕ → List (PCDNode n b G1 G2) → Prop
  | _, [] => True
  | s, v :: vs => NodeAt prover tr v s w ∧ LevelAt w (s + w) vs

/-- What a pass leaves, for nodes of width `w` from `s` on. -/
structure LevelOut (w s : ℕ) (vs : List (PCDNode n b G1 G2))
    (out : Run ProofError (List (PCDNode n b G1 G2)) × List (Call n b G1 G2)) : Prop where
  joins : ∀ ab0 ab1, .parent ab0 ab1 ∈ out.2 → Joins prover tr ab0 ab1
  sorted : (out.2.map Call.block).Pairwise (· < ·)
  block : ∀ block ∈ out.2.map Call.block, ∃ t, block + 1 = s + w + 2 * w * t
  result : (∃ vs', out.1 = .ok vs' ∧ LevelAt prover tr (2 * w) s vs' ∧
      2 * vs'.length = vs.length) ∨
    ∃ ab0 ab1 e, .parent ab0 ab1 ∈ out.2 ∧ proveParParentStep prover tr ab0 ab1 = .error e ∧
      out.1 = .error e

variable {prover tr}

variable {ab0 ab1 : PCDNode n b G1 G2}

/-- Two neighbours are joined by the block between them. -/
theorem NodeAt.joins (hn : 2 ^ 64 ≤ n) (hstart : tr.start = 0) {s w : ℕ}
    (h0 : NodeAt prover tr ab0 s w) (h1 : NodeAt prover tr ab1 (s + w) w)
    (hbound : s + w ≤ tr.blocks.length) (hlen : tr.blocks.length < 2 ^ 64) :
    Joins prover tr ab0 ab1 := by
  have hj := h0.j
  obtain ⟨block, hblock⟩ := Trace.exists_block hstart (show ab0.j.toNat < _ by omega)
  constructor
  · rw [h1.i, ← hj]
  · refine ⟨block, hblock, fun z => ?_⟩
    simp only [BlockProver.tr, stepIndex_natCast hn (show ab0.j.toNat < 2 ^ 64 by omega), hblock]

/-- A joined node covers both ranges and the block between them. -/
theorem NodeAt.parent {s w : ℕ} (hw : 0 < w) (h0 : NodeAt prover tr ab0 s w)
    (h1 : NodeAt prover tr ab1 (s + w) w) (hv : proveParParentStep prover tr ab0 ab1 = .ok v) :
    NodeAt prover tr v s (2 * w) := by
  obtain ⟨hi, hj⟩ := proveParParentStep_range hv
  constructor
  · rw [hi, h0.i]
  · rw [hj, h1.j]
    omega
  · have hspans := Spans.parent h0.spans h1.spans hv
    have hmiddle : ab0.j.toNat = s + (w - 1) := by
      have hj0 := h0.j
      omega
    have hright : s + w = s + (w - 1) + 1 := by omega
    have hwidth : 2 * w - 1 = w - 1 + (w - 1 + 1) := by omega
    rw [hmiddle, hright] at hspans
    rw [hwidth, ← List.range'_append_1, List.range'_succ]
    exact hspans

variable {vs : List (PCDNode n b G1 G2)}

/-- A pass whose first call fails. -/
theorem LevelOut.failed {w s : ℕ} {e : Failure ProofError} (h0 : NodeAt prover tr ab0 s w)
    (hjoins : Joins prover tr ab0 ab1) (hv : proveParParentStep prover tr ab0 ab1 = .error e) :
    LevelOut prover tr w s (ab0 :: ab1 :: vs) (.error e, [.parent ab0 ab1]) where
  joins ab0' ab1' hmem := by
    cases List.mem_singleton.mp hmem
    exact hjoins
  sorted := List.pairwise_singleton _ _
  block block hmem := by
    obtain rfl := List.mem_singleton.mp hmem
    exact ⟨0, h0.j⟩
  result := Or.inr ⟨ab0, ab1, e, List.mem_cons_self, hv, rfl⟩

/-- A pass whose first call returns. -/
theorem LevelOut.cons {w s : ℕ}
    {out : Run ProofError (List (PCDNode n b G1 G2)) × List (Call n b G1 G2)} (hw : 0 < w)
    (h0 : NodeAt prover tr ab0 s w) (h1 : NodeAt prover tr ab1 (s + w) w)
    (hjoins : Joins prover tr ab0 ab1) (hv : proveParParentStep prover tr ab0 ab1 = .ok v)
    (htail : LevelOut prover tr w (s + 2 * w) vs out) :
    LevelOut prover tr w s (ab0 :: ab1 :: vs)
      (out.1.map (v :: ·), .parent ab0 ab1 :: out.2) where
  joins ab0' ab1' hmem := by
    rcases List.mem_cons.mp hmem with heq | hmem
    · cases heq
      exact hjoins
    · exact htail.joins ab0' ab1' hmem
  sorted := by
    apply List.pairwise_cons.mpr
    refine ⟨fun block hmem => ?_, htail.sorted⟩
    obtain ⟨t, ht⟩ := htail.block block hmem
    have hj0 := h0.j
    show ab0.j.toNat < block
    omega
  block block hmem := by
    rcases List.mem_cons.mp hmem with rfl | hmem
    · exact ⟨0, h0.j⟩
    · obtain ⟨t, ht⟩ := htail.block block hmem
      exact ⟨t + 1, by rw [ht]; ring⟩
  result := by
    rcases htail.result with ⟨vs', hvs', hlevel, hlength⟩ | ⟨a0, a1, e, hmem, hfail, he⟩
    · left
      refine ⟨v :: vs', by rw [hvs']; rfl, ⟨h0.parent hw h1 hv, hlevel⟩, ?_⟩
      rw [List.length_cons, List.length_cons, List.length_cons]
      omega
    · right
      exact ⟨a0, a1, e, List.mem_cons_of_mem _ hmem, hfail, by rw [he]; rfl⟩

/-- **A pass** over an even number of nodes. -/
theorem proveLevel_out (hn : 2 ^ 64 ≤ n) (hstart : tr.start = 0)
    (hlen : tr.blocks.length < 2 ^ 64) {w : ℕ} (hw : 0 < w) (k s : ℕ)
    (vs : List (PCDNode n b G1 G2)) (hvs : vs.length = 2 * k) (hlevel : LevelAt prover tr w s vs)
    (hbound : s + w * vs.length ≤ tr.blocks.length + 1) :
    LevelOut prover tr w s vs (proveLevel prover tr vs) := by
  induction k generalizing s vs with
  | zero =>
      obtain rfl := List.eq_nil_of_length_eq_zero hvs
      exact ⟨nofun, List.Pairwise.nil, nofun, Or.inl ⟨[], rfl, trivial, rfl⟩⟩
  | succ k ih =>
      match vs, hvs with
      | ab0 :: ab1 :: vs, hvs =>
          obtain ⟨h0, h1, hrest⟩ := hlevel
          have hvs' : vs.length = 2 * k := by
            simp only [List.length_cons] at hvs
            omega
          have hlength : (ab0 :: ab1 :: vs).length = vs.length + 2 := rfl
          rw [hlength, mul_add] at hbound
          have hjoins := h0.joins hn hstart h1 (by omega) hlen
          have hj0 := h0.j
          cases hv : proveParParentStep prover tr ab0 ab1 with
          | error e =>
              have hout : proveLevel prover tr (ab0 :: ab1 :: vs) =
                  (.error e, [.parent ab0 ab1]) := by
                simp only [proveLevel, hv]
              rw [hout]
              exact LevelOut.failed h0 hjoins hv
          | ok v =>
              have hout : proveLevel prover tr (ab0 :: ab1 :: vs) =
                  ((proveLevel prover tr vs).1.map (v :: ·),
                    .parent ab0 ab1 :: (proveLevel prover tr vs).2) := by
                simp only [proveLevel, hv]
              rw [add_assoc, ← two_mul] at hrest
              have htail := ih (s + 2 * w) vs hvs' hrest (by omega)
              rw [hout]
              exact LevelOut.cons hw h0 h1 hjoins hv htail

variable {fuel : ℕ}

theorem proveLevels_succ (h : vs.length ≠ 1) :
    proveLevels prover tr (fuel + 1) vs =
      match proveLevel prover tr vs with
      | (.error e, calls) => some (.error e, calls)
      | (.ok vs, calls) =>
          (proveLevels prover tr fuel vs).map fun out => (out.1, calls ++ out.2) := by
  match vs, h with
  | [], _ => rfl
  | [_], h => exact absurd rfl h
  | _ :: _ :: _, _ => rfl

variable (prover tr) in
/-- What a run from a level leaves, for nodes of width `w`. -/
structure LevelsOut (w : ℕ)
    (out : Run ProofError (PCDNode n b G1 G2) × List (Call n b G1 G2)) : Prop
    extends Covers prover tr out where
  dvd : ∀ block ∈ out.2.map Call.block, w ∣ block + 1

/-- Calls of a pass and of the passes after it prove different blocks: the next index is an odd
multiple of the width, and an even one later. -/
theorem nodup_append {w : ℕ} (hw : 0 < w)
    {level : Run ProofError (List (PCDNode n b G1 G2)) × List (Call n b G1 G2)}
    {calls : List (Call n b G1 G2)} (h : LevelOut prover tr w 0 vs level)
    (hnodup : (calls.map Call.block).Nodup)
    (hdvd : ∀ block ∈ calls.map Call.block, 2 * w ∣ block + 1) :
    ((level.2 ++ calls).map Call.block).Nodup := by
  rw [List.map_append, List.nodup_append']
  refine ⟨h.sorted.imp fun hlt => hlt.ne, hnodup, fun block hmem hmem' => ?_⟩
  obtain ⟨t, ht⟩ := h.block block hmem
  obtain ⟨q, hq⟩ := hdvd block hmem'
  have hodd : w * (1 + 2 * t) = w * (2 * q) := by
    rw [ht] at hq
    linarith
  have heq := Nat.eq_of_mul_eq_mul_left hw hodd
  omega

/-- **The loop** ends with one node over everything. -/
theorem exists_proveLevels (hn : 2 ^ 64 ≤ n) (hstart : tr.start = 0)
    (hlen : tr.blocks.length < 2 ^ 64) {m w : ℕ} (hw : 0 < w) (hvs : vs.length = 2 ^ m)
    (hlevel : LevelAt prover tr w 0 vs) (hwidth : w * 2 ^ m = tr.blocks.length + 1) :
    ∃ fuel out, proveLevels prover tr fuel vs = some out ∧ LevelsOut prover tr w out := by
  induction m generalizing w vs with
  | zero =>
      obtain ⟨v, rfl⟩ := List.length_eq_one_iff.mp hvs
      obtain ⟨hv, -⟩ := hlevel
      rw [pow_zero, mul_one] at hwidth
      have hi : v.i = 0 := UInt64.toNat.inj hv.i
      have hj := hv.j
      have hspans := hv.spans
      rw [hwidth, Nat.add_sub_cancel, ← List.range_eq_range'] at hspans
      refine ⟨1, (.ok v, []), rfl, ⟨nofun, List.nodup_nil, Or.inl ⟨v, rfl, hi, by omega, hspans⟩⟩,
        nofun⟩
  | succ m ih =>
      have hlength : vs.length = 2 * 2 ^ m := by rw [hvs, pow_succ, mul_comm]
      have hone : vs.length ≠ 1 := by omega
      have hpass := proveLevel_out hn hstart hlen hw (2 ^ m) 0 vs hlength hlevel
        (by rw [zero_add, hvs, hwidth])
      have hdvd : ∀ block ∈ (proveLevel prover tr vs).2.map Call.block, w ∣ block + 1 := by
        intro block hmem
        obtain ⟨t, ht⟩ := hpass.block block hmem
        exact ⟨1 + 2 * t, by rw [ht]; ring⟩
      rcases hpass.result with ⟨vs', hok, hlevel', hlength'⟩ | ⟨ab0, ab1, e, hmem, hfail, herror⟩
      · have hvs' : vs'.length = 2 ^ m := by omega
        obtain ⟨fuel, out, hrun, hout⟩ := ih (show 0 < 2 * w by omega) hvs' hlevel'
          (by rw [← hwidth, pow_succ]; ring)
        refine ⟨fuel + 1, (out.1, (proveLevel prover tr vs).2 ++ out.2), ?_, ⟨?_, ?_, ?_⟩, ?_⟩
        · rw [proveLevels_succ hone, (Prod.ext hok rfl : proveLevel prover tr vs = (.ok vs', _))]
          simp only [hrun, Option.map_some]
        · intro ab0 ab1 hmem
          rcases List.mem_append.mp hmem with hmem | hmem
          · exact hpass.joins ab0 ab1 hmem
          · exact hout.joins ab0 ab1 hmem
        · exact nodup_append hw hpass hout.nodup hout.dvd
        · rcases hout.root with hroot | ⟨ab0, ab1, e, hmem, hfail, herror⟩
          · exact Or.inl hroot
          · exact Or.inr ⟨ab0, ab1, e, List.mem_append_right _ hmem, hfail, herror⟩
        · intro block hmem
          rw [List.map_append] at hmem
          rcases List.mem_append.mp hmem with hmem | hmem
          · exact hdvd block hmem
          · exact (Dvd.intro_left 2 rfl).trans (hout.dvd block hmem)
      · refine ⟨1, (.error e, (proveLevel prover tr vs).2), ?_, ⟨hpass.joins,
          hpass.sorted.imp fun hlt => hlt.ne, Or.inr ⟨ab0, ab1, e, hmem, hfail, rfl⟩⟩, hdvd⟩
        rw [proveLevels_succ hone, (Prod.ext herror rfl : proveLevel prover tr vs = (.error e, _))]

/-! ## The leaves and coverage -/

variable (prover) in
/-- Leaves of even blocks with steps. -/
theorem exists_proveLeaves (hn : 2 ^ 64 ≤ n) (hpow : isPowerOfTwo (tr.blocks.length + 1) = true)
    (k s : ℕ) (hbound : s + 2 * k < 2 ^ 64 + 1)
    (hblocks : ∀ i ∈ List.range' s k 2, ∃ block, tr.block i = some block ∧ block.steps ≠ []) :
    ∃ vs, proveLeaves prover tr (List.range' s k 2) = (.ok vs, (List.range' s k 2).map .leaf) ∧
      vs.length = k ∧ LevelAt prover tr 2 s vs := by
  induction k generalizing s with
  | zero => exact ⟨[], rfl, rfl, trivial⟩
  | succ k ih =>
      rw [List.range'_succ, List.forall_mem_cons] at hblocks
      obtain ⟨v, hv, hi, hj⟩ :=
        (proveParLeafStep_iff prover hn hpow (by omega)).mpr hblocks.1
      obtain ⟨vs, hvs, hlength, hlevel⟩ := ih (s + 2) (by omega) hblocks.2
      refine ⟨v :: vs, ?_, by rw [List.length_cons, hlength], ⟨hi, by omega, .leaf hv⟩, hlevel⟩
      simp only [List.range'_succ, proveLeaves, hv, hvs, List.map_cons]
      rfl

/-- The first pass only proves leaves, and returns nodes only if all leaves are proved. -/
theorem proveLeaves_calls (prover : BlockProver c P) (tr : Trace P) (is : List ℕ) :
    (∀ call ∈ (proveLeaves prover tr is).2, ∃ i, call = .leaf i) ∧
      ∀ vs, (proveLeaves prover tr is).1 = .ok vs → vs.length = is.length ∧
        ∀ i ∈ is, ∃ v, proveParLeafStep prover tr i = .ok v := by
  induction is with
  | nil =>
      refine ⟨nofun, fun vs hvs => ?_⟩
      cases hvs
      exact ⟨rfl, nofun⟩
  | cons i is ih =>
      cases hv : proveParLeafStep prover tr i with
      | error e =>
          simp only [proveLeaves, hv]
          refine ⟨fun call hmem => ⟨i, List.mem_singleton.mp hmem⟩, nofun⟩
      | ok v =>
          simp only [proveLeaves, hv]
          constructor
          · intro call hmem
            rcases List.mem_cons.mp hmem with rfl | hmem
            · exact ⟨i, rfl⟩
            · exact ih.1 call hmem
          · intro vs hvs
            cases hrest : (proveLeaves prover tr is).1 with
            | error e =>
                rw [hrest] at hvs
                cases hvs
            | ok vs' =>
                rw [hrest] at hvs
                cases hvs
                obtain ⟨hlength, hall⟩ := ih.2 vs' hrest
                refine ⟨by rw [List.length_cons, List.length_cons, hlength], ?_⟩
                exact List.forall_mem_cons.mpr ⟨⟨v, hv⟩, hall⟩

/-- Without a node the loop never ends. -/
theorem proveLevels_nil (fuel : ℕ) : proveLevels prover tr fuel [] = none := by
  induction fuel with
  | zero => rfl
  | succ fuel ih =>
      simp only [proveLevels, proveLevel, ih, Option.map_none]

/-- Traces that the parallel prover covers: some block, numbered from zero, and a first step in each
even block. -/
structure Provable (tr : Trace P) : Prop where
  start : tr.start = 0
  blocks : tr.blocks ≠ []
  steps : ∀ i block, tr.blocks[2 * i]? = some block → block.steps ≠ []

variable {out : Run ProofError (PCDNode n b G1 G2) × List (Call n b G1 G2)}

/-- A run that covers the trace has proved all leaves. -/
theorem exists_leaves (hpow : isPowerOfTwo (tr.blocks.length + 1) = true)
    (hrun : provePar prover tr fuel = some out) (hcovers : Covers prover tr out) :
    ∃ vs, (proveLeaves prover tr (List.range' 0 ((tr.blocks.length + 1) / 2) 2)).1 = .ok vs ∧
      ∃ out, proveLevels prover tr fuel vs = some out := by
  rw [provePar, if_pos hpow] at hrun
  obtain ⟨hcalls, -⟩ := proveLeaves_calls prover tr
    (List.range' 0 ((tr.blocks.length + 1) / 2) 2)
  cases hleaves : proveLeaves prover tr (List.range' 0 ((tr.blocks.length + 1) / 2) 2) with
  | mk result calls =>
      rw [hleaves] at hrun hcalls
      cases result with
      | error e =>
          cases hrun
          rcases hcovers.root with ⟨root, hroot, -⟩ | ⟨ab0, ab1, e', hmem, -⟩
          · cases hroot
          · obtain ⟨i, hi⟩ := hcalls _ hmem
            cases hi
      | ok vs =>
          obtain ⟨out', hout', -⟩ := Option.map_eq_some_iff.mp hrun
          exact ⟨vs, rfl, out', hout'⟩

/-- A covered trace is provable. -/
theorem provable_of_covers (hpow : isPowerOfTwo (tr.blocks.length + 1) = true)
    (hrun : provePar prover tr fuel = some out) (hcovers : Covers prover tr out) :
    Provable tr := by
  obtain ⟨vs, hvs, out', hout'⟩ := exists_leaves hpow hrun hcovers
  obtain ⟨hlength, hleaves⟩ := (proveLeaves_calls _ _ _).2 vs hvs
  rw [List.length_range'] at hlength
  have hne : tr.blocks ≠ [] := by
    intro hnil
    rw [hnil, List.length_nil] at hlength
    obtain rfl := List.eq_nil_of_length_eq_zero (show vs.length = 0 by omega)
    rw [proveLevels_nil] at hout'
    cases hout'
  have hblock : ∀ i, 2 * i < tr.blocks.length →
      ∃ block, tr.block (2 * i) = some block ∧ block.steps ≠ [] := by
    intro i hi
    obtain ⟨v, hv⟩ := hleaves (2 * i) (List.mem_range'.mpr ⟨i, by omega, (zero_add _).symm⟩)
    obtain ⟨u, -, hv⟩ := bind_eq_ok.mp hv
    obtain ⟨input, hinput, hv⟩ := bind_eq_ok.mp hv
    cases input with
    | none => cases hv
    | some z => exact Trace.input_eq_ok.mp ⟨z, hinput⟩
  have hstart : tr.start = 0 := by
    obtain ⟨block, hget, -⟩ := hblock 0 (List.length_pos_iff.mpr hne)
    exact Nat.le_zero.mp (Trace.block_eq_some_iff.mp hget).1
  refine ⟨hstart, hne, fun i block hget => ?_⟩
  obtain ⟨block', hblock', hsteps⟩ := hblock i (List.getElem?_eq_some_iff.mp hget).1
  rw [Trace.block_of_start hstart, hget, Option.some.injEq] at hblock'
  rwa [hblock']

/-- A provable trace is covered. -/
theorem covers_of_provable (hn : 2 ^ 64 ≤ n) (hlen : tr.blocks.length < 2 ^ 64) {m : ℕ}
    (hm : tr.blocks.length + 1 = 2 ^ m) (h : Provable tr) :
    ∃ fuel out, provePar prover tr fuel = some out ∧ Covers prover tr out := by
  have hpow : isPowerOfTwo (tr.blocks.length + 1) = true := isPowerOfTwo_iff.mpr ⟨m, hm⟩
  have hpos := List.length_pos_iff.mpr h.blocks
  cases m with
  | zero =>
      rw [pow_zero] at hm
      omega
  | succ m =>
      have hhalf : (tr.blocks.length + 1) / 2 = 2 ^ m := by
        rw [hm, pow_succ, Nat.mul_div_cancel _ Nat.two_pos]
      rw [pow_succ] at hm
      have hblocks : ∀ i ∈ List.range' 0 (2 ^ m) 2,
          ∃ block, tr.block i = some block ∧ block.steps ≠ [] := by
        intro i hi
        obtain ⟨t, ht, rfl⟩ := List.mem_range'.mp hi
        obtain ⟨block, hblock⟩ := Trace.exists_block h.start (show 0 + 2 * t < _ by omega)
        refine ⟨block, hblock, h.steps t block ?_⟩
        rwa [Trace.block_of_start h.start, zero_add] at hblock
      obtain ⟨vs, hvs, hlength, hlevel⟩ :=
        exists_proveLeaves prover hn hpow (2 ^ m) 0 (by omega) hblocks
      obtain ⟨fuel, out, hrun, hout⟩ := exists_proveLevels hn h.start hlen Nat.two_pos hlength
        hlevel (by omega)
      refine ⟨fuel, (out.1, (List.range' 0 (2 ^ m) 2).map .leaf ++ out.2), ?_, ?_, ?_, ?_⟩
      · rw [provePar, if_pos hpow, hhalf, hvs]
        simp only [hrun, Option.map_some]
      · intro ab0 ab1 hmem
        rcases List.mem_append.mp hmem with hmem | hmem
        · obtain ⟨i, -, hi⟩ := List.mem_map.mp hmem
          cases hi
        · exact hout.joins ab0 ab1 hmem
      · rw [List.map_append, List.map_map, List.nodup_append']
        refine ⟨?_, hout.nodup, fun block hmem hmem' => ?_⟩
        · rw [show Call.block ∘ Call.leaf = (id : ℕ → ℕ) from rfl, List.map_id]
          exact List.nodup_range' 2
        · obtain ⟨i, hi, rfl⟩ := List.mem_map.mp hmem
          obtain ⟨t, -, rfl⟩ := List.mem_range'.mp hi
          have hdvd := hout.dvd _ hmem'
          simp only [Function.comp_apply, Call.block] at hdvd
          omega
      · rcases hout.root with hroot | ⟨ab0, ab1, e, hmem, hfail, herror⟩
        · exact Or.inl hroot
        · exact Or.inr ⟨ab0, ab1, e, List.mem_append_right _ hmem, hfail, herror⟩

/-- **The parallel prover covers a trace** of one block less than a power of two exactly if there is
some block, the blocks are numbered from zero and the even blocks have a step. -/
theorem prove_par_covers_iff (hn : 2 ^ 64 ≤ n) (prover : BlockProver c P) (tr : Trace P)
    (hlen : tr.blocks.length < 2 ^ 64) {m : ℕ} (hm : tr.blocks.length + 1 = 2 ^ m) :
    (∃ fuel out, provePar prover tr fuel = some out ∧ Covers prover tr out) ↔ Provable tr := by
  constructor
  · rintro ⟨fuel, out, hrun, hcovers⟩
    exact provable_of_covers (isPowerOfTwo_iff.mpr ⟨m, hm⟩) hrun hcovers
  · exact covers_of_provable hn hlen hm

/-! ## Recorded traces and short traces -/

variable {M : Type} [Memory M P]

variable {vm vm' : NexusVM M P} {fuel k : ℕ}

variable {B : Build}

theorem ne_nil_of_traceLoop {pow : Bool} {blocks out : List (Block P)}
    (h : traceLoop B k pow fuel blocks vm = some (.ok out, vm')) :
    out ≠ [] := by
  induction fuel generalizing blocks vm with
  | zero => cases h
  | succ fuel ih =>
      rw [traceLoop] at h
      rcases hblock : kStep B vm k with ⟨e | block, vm₁⟩
      · rw [hblock] at h
        cases h
      · rw [hblock] at h
        dsimp only at h
        split at h
        · cases h
          exact List.append_ne_nil_of_right_ne_nil _ (List.cons_ne_nil _ _)
        · exact ih h

variable {tr : Trace P}

/-- **A recorded trace** can be proved, if its blocks have steps at all. -/
theorem provable_trace {pow : Bool} (hk : 0 < k) (h : trace B fuel vm k pow = some (.ok tr, vm')) :
    Provable tr := by
  obtain ⟨⟨res, vm₁⟩, hloop, heq⟩ := Option.map_eq_some_iff.mp h
  cases res with
  | error e => cases heq
  | ok blocks =>
      cases heq
      obtain ⟨bs, hbs, hrecorded⟩ := recorded_of_traceLoop hloop
      obtain rfl : blocks = bs := hbs
      refine ⟨rfl, ne_nil_of_traceLoop hloop, fun i block hget => ?_⟩
      have hlength := hrecorded.steps.2 block (List.mem_of_getElem? hget)
      rw [← List.length_pos_iff, hlength]
      exact hk

/-- A trace for proofs has one block less than a power of two. -/
theorem exists_two_pow_of_trace (h : trace B fuel vm k true = some (.ok tr, vm')) :
    ∃ m, tr.blocks.length + 1 = 2 ^ m := by
  obtain ⟨⟨res, vm₁⟩, hloop, heq⟩ := Option.map_eq_some_iff.mp h
  cases res with
  | error e => cases heq
  | ok blocks =>
      cases heq
      have hpos := List.length_pos_iff.mpr (ne_nil_of_traceLoop hloop)
      exact ((nextPowerOfTwo_eq_succ_iff hpos).mp (stops_of_traceLoop hloop rfl)).2

/-- **From the machine to the root**: whatever program ran, the parallel prover covers the trace
that `trace` recorded for proofs, in blocks of any size. -/
theorem prove_par_covers_trace (hn : 2 ^ 64 ≤ n) (prover : BlockProver c P) (hk : 0 < k)
    (h : trace B fuel vm k true = some (.ok tr, vm')) (hlen : tr.blocks.length < 2 ^ 64) :
    ∃ fuel out, provePar prover tr fuel = some out ∧ Covers prover tr out := by
  obtain ⟨m, hm⟩ := exists_two_pow_of_trace h
  exact covers_of_provable hn hlen hm (provable_trace hk h)

end TraceCircuit

section Example

open Bn254

/-- The prover for the circuit that adds the index to the numbers of an input, with two rows: there
are a program counter, the registers and a commitment. -/
noncomputable def sumProver {P : Type} : BlockProver sumSetting P where
  params := sumParams
  SC := addIndex (ZMod fr) 34
  system := sumSystem 34
  blockHint _ _ := ()
  commit _ := 0

section Root

variable {P : Type} {tr : Trace P}

/-- It proves leaves that are accepted. -/
theorem verified_of_leafStep {i : ℕ} (hi : i + 1 < 2 ^ 64) {v : PCDNode fr fq Unit Unit}
    (h : proveParLeafStep sumProver tr i = .ok v) :
    Verified sumSetting sumParams v ∧ v.u.X.head? = some 1 := by
  obtain ⟨_, -, h⟩ := bind_eq_ok.mp h
  obtain ⟨input, hinput, h⟩ := bind_eq_ok.mp h
  cases input with
  | none => cases h
  | some z =>
      obtain ⟨_, -, h⟩ := bind_eq_ok.mp (mapError_eq_ok.mp h)
      obtain rfl := Except.ok.inj h
      have hz : z.length = 34 := by
        unfold Trace.input at hinput
        split at hinput
        · cases hinput
        · split at hinput
          · cases hinput
          · cases hinput
            rfl
      have hf : ((sumProver (P := P)).tr tr).Computes fun i z => z.map (· + i) :=
        ⟨(addIndex_computes (ZMod fr) 34).holds, (addIndex_computes (ZMod fr) 34).value⟩
      have hcast : (UInt64.ofNat i).toNat = i :=
        UInt64.toNat_ofNat_of_lt (show i < 2 ^ 64 by omega)
      exact ⟨(proveLeaf_verified (sumProver.trSystem tr) hf rfl (by rwa [hcast]) hz).1, rfl⟩

/-- Of three blocks it proves the root. -/
theorem provePar_three (hprovable : Provable tr) (hlength : tr.blocks.length = 3) {fuel : ℕ}
    {out : Run ProofError (PCDNode fr fq Unit Unit) × List (Call fr fq Unit Unit)}
    (h : provePar sumProver tr fuel = some out) : ∃ root, out.1 = .ok root := by
  have hn : 2 ^ 64 ≤ fr := by norm_num [fr]
  have hb : 2 ^ 127 ≤ fq := by norm_num [fq]
  have hpow : isPowerOfTwo (tr.blocks.length + 1) = true := by
    rw [hlength]
    rfl
  have hleaf : ∀ i < 2, ∃ v, proveParLeafStep sumProver tr (2 * i) = .ok v ∧
      v.j.toNat = 2 * i + 1 := by
    intro i hi
    obtain ⟨block, hblock⟩ := Trace.exists_block hprovable.start (show 2 * i < _ by omega)
    have hget := hblock
    rw [Trace.block_of_start hprovable.start] at hget
    obtain ⟨v, hv, -, hj⟩ := (proveParLeafStep_iff sumProver hn hpow (i := 2 * i)
      (by omega)).mpr ⟨block, hblock, hprovable.steps i block hget⟩
    exact ⟨v, hv, hj⟩
  obtain ⟨v₀, hv₀, hj⟩ := hleaf 0 (by norm_num)
  obtain ⟨v₁, hv₁, -⟩ := hleaf 1 (by norm_num)
  obtain ⟨hverified₀, hone₀⟩ := verified_of_leafStep (by norm_num) hv₀
  obtain ⟨hverified₁, hone₁⟩ := verified_of_leafStep (by norm_num) hv₁
  obtain ⟨root, hroot⟩ :=
    (proveParent_ok_or_panic (sumProver.trSystem tr) hb hverified₀ hverified₁).1 ⟨hone₀, hone₁⟩
  have hlookup : sumProver.lookup tr (v₀.j.toNat : ZMod fr) = .ok () := by
    obtain ⟨block, hblock⟩ := Trace.exists_block hprovable.start (show 1 < _ by omega)
    apply failIf_eq_ok.mpr
    rw [hj, stepIndex_natCast hn (by norm_num), hblock]
    exact Option.some_ne_none block
  have hparent : proveParParentStep sumProver tr v₀ v₁ = .ok root :=
    bind_eq_ok.mpr ⟨(), assert_eq_ok.mpr hpow, mapError_eq_ok.mpr
      (bind_eq_ok.mpr ⟨root, hroot, bind_eq_ok.mpr ⟨(), hlookup, rfl⟩⟩)⟩
  have hleaves : proveLeaves sumProver tr (List.range' 0 ((3 + 1) / 2) 2) =
      (.ok [v₀, v₁], [.leaf 0, .leaf 2]) := by
    show proveLeaves sumProver tr [0, 2] = _
    simp only [proveLeaves, hv₀, hv₁]
    rfl
  have hlevel : proveLevel sumProver tr [v₀, v₁] = (.ok [root], [.parent v₀ v₁]) := by
    simp only [proveLevel, hparent]
    rfl
  rw [provePar, if_pos hpow, hlength, hleaves] at h
  obtain ⟨levels, hlevels, rfl⟩ := Option.map_eq_some_iff.mp h
  -- one pass makes the root
  cases fuel with
  | zero => cases hlevels
  | succ fuel =>
      have hpair : [v₀, v₁].length ≠ 1 := Nat.succ_ne_self 1
      rw [proveLevels_succ hpair, hlevel] at hlevels
      obtain ⟨last, hlast, rfl⟩ := Option.map_eq_some_iff.mp hlevels
      cases fuel with
      | zero => cases hlast
      | succ fuel =>
          cases hlast
          exact ⟨root, rfl⟩

end Root

/-- A block with this many steps. -/
def zeroBlock (steps : ℕ) : Block Unit where
  regs := ⟨0, fun _ => 0⟩
  steps := List.replicate steps ⟨0, 0, none, (), none, none⟩

/-- A run of the prover covers the trace. -/
def Covered (tr : Trace Unit) : Prop :=
  ∃ fuel out, provePar sumProver tr fuel = some out ∧ Covers sumProver tr out

theorem provable_of_covered {tr : Trace Unit} (hpow : isPowerOfTwo (tr.blocks.length + 1) = true)
    (h : Covered tr) : Provable tr := by
  obtain ⟨fuel, out, hrun, hcovers⟩ := h
  exact provable_of_covers hpow hrun hcovers

/-- **Traces that are not covered**: a subtrace, no block at all, and a block without steps. -/
theorem short_traces_not_covered :
    ¬ (Covered ⟨1, 1, [zeroBlock 1]⟩ ∨ Covered ⟨1, 0, []⟩ ∨ Covered ⟨0, 0, [zeroBlock 0]⟩) := by
  rintro (h | h | h)
  · exact Nat.one_ne_zero (provable_of_covered rfl h).start
  · exact (provable_of_covered rfl h).blocks rfl
  · exact (provable_of_covered rfl h).steps 0 _ rfl rfl

/-- A trace of three blocks is covered, by a root. -/
theorem prove_par_covers_three : ∃ fuel root calls,
    provePar sumProver ⟨1, 0, List.replicate 3 (zeroBlock 1)⟩ fuel = some (.ok root, calls) ∧
      Covers sumProver ⟨1, 0, List.replicate 3 (zeroBlock 1)⟩ (.ok root, calls) := by
  have hprovable : Provable ⟨1, 0, List.replicate 3 (zeroBlock 1)⟩ := by
    refine ⟨rfl, List.cons_ne_nil _ _, fun i block hget => ?_⟩
    obtain rfl := List.eq_of_mem_replicate (List.mem_of_getElem? hget)
    exact List.cons_ne_nil _ _
  obtain ⟨fuel, ⟨result, calls⟩, hrun, hcovers⟩ := (prove_par_covers_iff (by norm_num [fr])
    sumProver ⟨1, 0, List.replicate 3 (zeroBlock 1)⟩ (by norm_num) (m := 2) rfl).mpr hprovable
  obtain ⟨root, rfl⟩ := provePar_three hprovable rfl hrun
  exact ⟨fuel, root, calls, hrun, hcovers⟩

/-- The machine with the program `addi x5, x0, 1; unimp`. -/
def unimpMachine : NexusVM (PagedMemory 7) (UncheckedMemory 7) :=
  programMachine [0x00100293, 0xc0001073]

/-- Its trace for proofs. -/
def unimpTrace : Trace (UncheckedMemory 7) :=
  ((trace ⟨true⟩ 3 unimpMachine 1 true).bind fun out => out.1.toOption).getD ⟨0, 0, []⟩

theorem trace_unimp : ∃ vm', trace ⟨true⟩ 3 unimpMachine 1 true = some (.ok unimpTrace, vm') :=
  ⟨_, rfl⟩

/-- The blocks of this trace are covered, by a root. -/
theorem prove_par_covers_trace_unimp :
    unimpTrace.blocks.length = 3 ∧ ∃ fuel root calls,
      provePar sumProver unimpTrace fuel = some (.ok root, calls) ∧
        Covers sumProver unimpTrace (.ok root, calls) := by
  obtain ⟨vm', htrace⟩ := trace_unimp
  have hlength : unimpTrace.blocks.length = 3 := rfl
  refine ⟨hlength, ?_⟩
  obtain ⟨fuel, ⟨result, calls⟩, hrun, hcovers⟩ := prove_par_covers_trace (by norm_num [fr])
    sumProver Nat.one_pos htrace (by rw [hlength]; norm_num)
  obtain ⟨root, rfl⟩ := provePar_three (provable_trace Nat.one_pos htrace) hlength hrun
  exact ⟨fuel, root, calls, hrun, hcovers⟩

end Example

end NexusVm.Prover
