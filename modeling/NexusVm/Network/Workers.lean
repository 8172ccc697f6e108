import NexusVm.Concurrent.Requests
import NexusVm.Prover.ProvePar

/-!
# Distributed workers

`network/src/bin/pcdnode/workers.rs`.  A PCD worker proves a node and leaves the commitment to its
witness to an MSM worker.  It has only the part of the trace that came with the request.
-/

namespace NexusVm.Network

open Nova Nova.Cyclefold Nova.Circuits Nova.Circuits.Pcd NexusVm.Prover

/-- `NexusMsg`, the requests in the queue of the PCD workers. -/
inductive PcdMsg (n b : ℕ) (G1 G2 P : Type)
  | leafReq (t : Trace P)
  | nodeReq (ns : List (PCDNode n b G1 G2 × Trace P))

section Workers

variable {n b : ℕ} {G1 G2 PP1 PP2 P : Type} [Fact n.Prime] [Fact b.Prime] [AddCommGroup G1]
  [Module (ZMod n) G1] [AddCommGroup G2] [Module (ZMod b) G2] {c : Setting n b G1 G2 PP1 PP2}
  (prover : BlockProver c P)

/-- `prove_leaf`: the block at the start of the subtrace. -/
def proveLeaf (trace : Trace P) : Run Prover.ProofError (PCDNode n b G1 G2) := do
  let i := trace.start
  let input ← trace.input prover.commit i
  match input with
  | none => .error (.error (.invalidIndex i))
  | some z => (prover.proveLeaf trace i z).mapError .fromNova

/-- `prove_node`. -/
def proveNode (trace : Trace P) (l r : PCDNode n b G1 G2) : Run Prover.ProofError (PCDNode n b G1 G2) :=
  (prover.proveParent trace l r).mapError .fromNova

/-- A turn of `local_pcd`; the subtrace of the right node is not used. -/
def localPcd : PcdMsg n b G1 G2 P → Run Prover.ProofError (PCDNode n b G1 G2)
  | .leafReq t => proveLeaf prover t
  | .nodeReq ns =>
      match ns.reverse with
      | (r, _) :: (l, lt) :: _ => proveNode prover lt l r
      | _ => .error .panic

end Workers

/-- The node with the commitment that the reply of `request_msm` brings. -/
def setCommitment {n b : ℕ} {G1 G2 : Type} (node : PCDNode n b G1 G2) (p : G1) :
    PCDNode n b G1 G2 :=
  { node with u := { node.u with commitment_W := p } }

section Workers

variable {n b : ℕ} {G1 G2 PP1 PP2 P : Type} [Fact n.Prime] [Fact b.Prime] [AddCommGroup G1]
  [Module (ZMod n) G1] [AddCommGroup G2] [Module (ZMod b) G2] {c : Setting n b G1 G2 PP1 PP2}
  (prover : BlockProver c P)

/-- The PCD workers, and `local_msm`. -/
def pools : Concurrent.Requests.Pools (PcdMsg n b G1 G2 P) (PCDNode n b G1 G2) (List (ZMod n)) G1
    where
  start msg :=
    match localPcd prover msg with
    | .ok node => some (node.w.W, setCommitment node)
    | .error _ => none
  run fs := c.C1.commit prover.params.pp fs

/-! ## They prove what the local prover proves and commitments -/

variable {prover} {tr part : Trace P}

/-- Only the block with the index of the step is looked up. -/
theorem hint_congr {k : ZMod n} (h : part.block (stepIndex k) = tr.block (stepIndex k))
    (z : List (ZMod n)) : (prover.tr part).hint k z = (prover.tr tr).hint k z := by
  unfold BlockProver.tr
  simp only [h]

theorem lookup_congr {k : ZMod n} (h : part.block (stepIndex k) = tr.block (stepIndex k)) :
    prover.lookup part k = prover.lookup tr k := by
  unfold BlockProver.lookup
  rw [h]

/-- So a synthesis from a part of the trace is the same. -/
theorem synthesize_congr {input : InputVar n b G2}
    (h : part.block (stepIndex input.j) = tr.block (stepIndex input.j)) :
    synthesize (prover.trSystem part) prover.params input =
      synthesize (prover.trSystem tr) prover.params input := by
  let out (aux : prover.SC.Aux) :=
    let hash_input := hash c (body c (prover.tr tr) aux input).value.1
    let W := prover.system.witness (aux, input)
    ((⟨c.C1.commit prover.params.pp W, [1, hash_input]⟩ : R1cs.R1CSInstance (ZMod n) G1),
      (⟨W⟩ : R1cs.R1CSWitness (ZMod n)),
      (generateConstraints c (prover.tr tr) aux input hash_input).value)
  calc
    synthesize (prover.trSystem part) prover.params input =
        out ((prover.tr part).hint input.j input.z_j) := rfl
    _ = out ((prover.tr tr).hint input.j input.z_j) := by
        rw [hint_congr h]
    _ = synthesize (prover.trSystem tr) prover.params input := rfl

/-- A leaf from a part of the trace. -/
theorem proveLeaf_congr {i : ℕ} (hn : 2 ^ 64 ≤ n) (hi : i < 2 ^ 64)
    (h : part.block i = tr.block i) (z : List (ZMod n)) :
    prover.proveLeaf part i z = prover.proveLeaf tr i z := by
  have hblock : part.block (stepIndex ((UInt64.ofNat i).toNat : ZMod n)) =
      tr.block (stepIndex ((UInt64.ofNat i).toNat : ZMod n)) := by
    rw [show (UInt64.ofNat i).toNat = i from UInt64.toNat_ofNat_of_lt hi,
      stepIndex_natCast hn hi, h]
  unfold BlockProver.proveLeaf
  rw [lookup_congr hblock]
  unfold Pcd.proveLeaf
  rw [synthesize_congr hblock]

/-- **A worker that is asked for a leaf** proves what the local prover proves. -/
theorem proveLeaf_eq (hn : 2 ^ 64 ≤ n) (hpow : isPowerOfTwo (tr.blocks.length + 1) = true)
    (hi : part.start < 2 ^ 64) (h : part.block part.start = tr.block part.start) :
    proveLeaf prover part = proveParLeafStep prover tr part.start := by
  have hassert : (Run.assert (isPowerOfTwo (tr.blocks.length + 1) = true) : Run Prover.ProofError Unit) =
      .ok () := assert_eq_ok.mpr hpow
  unfold proveLeaf proveParLeafStep
  dsimp only
  rw [hassert, Trace.input_congr h]
  show (tr.input prover.commit part.start >>= _) = tr.input prover.commit part.start >>= _
  apply bind_congr
  intro input
  cases input with
  | none => rfl
  | some z =>
      show (prover.proveLeaf part part.start z).mapError _ = _
      rw [proveLeaf_congr hn hi h]

variable {v : PCDNode n b G1 G2}

/-- The ends of a proved leaf, and its commitment. -/
theorem proveLeaf_ok (h : proveLeaf prover part = .ok v) :
    v.i = UInt64.ofNat part.start ∧ v.j = UInt64.ofNat part.start + 1 ∧
      v.u.commitment_W = c.C1.commit prover.params.pp v.w.W := by
  obtain ⟨input, -, h⟩ := bind_eq_ok.mp h
  cases input with
  | none => cases h
  | some z =>
      obtain ⟨u, -, h⟩ := bind_eq_ok.mp (mapError_eq_ok.mp h)
      cases h
      exact ⟨rfl, rfl, rfl⟩

/-- The ends of a proved node, and its commitment. -/
theorem proveNode_ok {l r v : PCDNode n b G1 G2} (h : proveNode prover part l r = .ok v) :
    v.i = l.i ∧ v.j = r.j ∧ v.u.commitment_W = c.C1.commit prover.params.pp v.w.W := by
  obtain ⟨node, hnode, h⟩ := bind_eq_ok.mp (mapError_eq_ok.mp h)
  obtain ⟨u, -, h⟩ := bind_eq_ok.mp h
  cases h
  obtain ⟨fold_l, fold_r, fold, nodes, hparent⟩ :=
    (proveParent_eq_ok (prover.trSystem part)).mp hnode
  rw [hparent.eq]
  exact ⟨rfl, rfl, rfl⟩

variable {msg : PcdMsg n b G1 G2 P}

/-- A turn of a worker that serves its request. -/
theorem localPcd_ok (h : localPcd prover msg = .ok v) :
    v.u.commitment_W = c.C1.commit prover.params.pp v.w.W := by
  unfold localPcd at h
  split at h
  · exact (proveLeaf_ok h).2.2
  · split at h
    · exact (proveNode_ok h).2.2
    · cases h

/-- **The reply of the MSM worker** makes the node of the local prover. -/
theorem start_eq_some_iff {job : List (ZMod n)} {make : G1 → PCDNode n b G1 G2}
    (h : (pools prover).start msg = some (job, make)) :
    localPcd prover msg = .ok (make ((pools prover).run job)) := by
  unfold pools at h ⊢
  dsimp only at h ⊢
  split at h
  · rename_i node hnode
    cases h
    rw [hnode, ← localPcd_ok hnode]
    rfl
  · cases h

end Workers

end NexusVm.Network
