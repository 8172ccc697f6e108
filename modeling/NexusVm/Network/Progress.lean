import NexusVm.Network.ManageProof

/-!
# The progress of proofs

`network/src/bin/pcdnode/post.rs` and `db.rs`: the tasks of all submitted programs count what they
have done in one database.  What the workers do meanwhile is only seen by their answers.
-/

namespace NexusVm.Network

open Nova Nova.Cyclefold Nova.Circuits Nova.Circuits.Pcd NexusVm.Prover
open Concurrent.Requests (Task)

/-- `Proof`. -/
structure Proof where
  hash : String
  totalNodes : U32
  completeNodes : U32
  proof : Option (List UInt8)

/-- `Proof::default`. -/
def Proof.default : Proof := ⟨"", 0, 0, none⟩

/-- `DBase` behind its lock; `none` once a panic has poisoned it. -/
abbrev DB : Type := Option (String → Option Proof)

namespace DB

/-- `new_proof`; an entry with the hash keeps its other fields. -/
def newProof (proofs : String → Option Proof) (hash : String) (total : U32) :
    String → Option Proof :=
  let proof := (proofs hash).getD .default
  Function.update proofs hash (some { proof with hash := hash, totalNodes := total })

/-- `update_complete`; an overflow that is checked panics while the lock is held. -/
def updateComplete (B : Build) (db : DB) (hash : String) (complete : U32) : DB :=
  db.bind fun proofs =>
    match proofs hash with
    | none => some proofs
    | some p =>
        match B.add p.completeNodes complete with
        | .ok completeNodes =>
            some (Function.update proofs hash (some { p with completeNodes := completeNodes }))
        | .error _ => none

/-- `update_proof`. -/
def updateProof (db : DB) (hash : String) (proof : List UInt8) : DB :=
  db.map fun proofs =>
    match proofs hash with
    | none => proofs
    | some p => Function.update proofs hash (some { p with proof := some proof })

end DB

/-! ## Submissions -/

/-- A task: not started, waiting for the answer to its request, or ended. -/
inductive TaskState (n b : ℕ) (G1 G2 P : Type)
  | idle
  | asked (req : PcdMsg n b G1 G2 P)
  | done (node : PCDNode n b G1 G2)
  | panicked

/-- The task that waits for the last handle. -/
inductive FinalState (n b : ℕ) (G1 G2 : Type)
  | waiting
  | counted (node : PCDNode n b G1 G2)
  | stored
  | panicked

/-- What `manage_proof` has spawned for a program. -/
structure Submission (n b : ℕ) (G1 G2 P : Type) where
  hash : String
  trace : Trace P
  tasks : List (Task (PcdMsg n b G1 G2 P) (PCDNode n b G1 G2))
  root : ℕ
  states : ℕ → TaskState n b G1 G2 P
  final : FinalState n b G1 G2

/-- One task goes on. -/
def Submission.setState {n b : ℕ} {G1 G2 P : Type} (sub : Submission n b G1 G2 P) (h : ℕ)
    (st : TaskState n b G1 G2 P) : Submission n b G1 G2 P :=
  { sub with states := Function.update sub.states h st }

@[simp] theorem Submission.states_setState_self {n b : ℕ} {G1 G2 P : Type}
    (sub : Submission n b G1 G2 P) (h : ℕ) (st : TaskState n b G1 G2 P) :
    (sub.setState h st).states h = st :=
  Function.update_self ..

theorem Submission.states_setState_ne {n b : ℕ} {G1 G2 P : Type} (sub : Submission n b G1 G2 P)
    {h k : ℕ} (hne : k ≠ h) (st : TaskState n b G1 G2 P) :
    (sub.setState h st).states k = sub.states k :=
  Function.update_of_ne hne ..

/-- The node with the submissions so far. -/
structure NodeState (n b : ℕ) (G1 G2 P : Type) where
  db : DB
  submissions : List (Submission n b G1 G2 P)

/-- A node that has just started. -/
def NodeState.initial {n b : ℕ} {G1 G2 P : Type} : NodeState n b G1 G2 P :=
  ⟨some fun _ => none, []⟩

/-- **A trace that `trace` can return** when it rounds up for a tree. -/
structure Traced {P : Type} (tr : Trace P) : Prop where
  start : tr.start = 0
  blocks : tr.blocks ≠ []
  stops : nextPowerOfTwo tr.blocks.length = tr.blocks.length + 1

section Steps

variable {n b : ℕ} {G1 G2 PP1 PP2 P : Type} [Fact n.Prime] [Fact b.Prime] [AddCommGroup G1]
  [Module (ZMod n) G1] [AddCommGroup G2] [Module (ZMod b) G2] {c : Setting n b G1 G2 PP1 PP2}
  (B : Build) (prover : BlockProver c P) (verifyAndEncode : PCDNode n b G1 G2 → Option (List UInt8))

/-- A task of a submission that used the database goes on unless the lock is poisoned. -/
def DB.andThen {α : Type} (db : DB) (next panicked : α) : α :=
  if db.isSome then next else panicked

/-- A step of one submission.  Workers answer a request with what they prove, or not at all; the
results of the children come in any order. -/
inductive SubStep (db : DB) (sub : Submission n b G1 G2 P) :
    DB → Submission n b G1 G2 P → Prop
  | leaf {h : ℕ} {task : Task (PcdMsg n b G1 G2 P) (PCDNode n b G1 G2)}
      {req : PcdMsg n b G1 G2 P} (htask : sub.tasks[h]? = some task)
      (hstate : sub.states h = .idle) (hneeds : task.needs = [])
      (hreq : task.request [] = some req) :
      SubStep db sub db (sub.setState h (.asked req))
  | node {h : ℕ} {task : Task (PcdMsg n b G1 G2 P) (PCDNode n b G1 G2)}
      {results : List (PCDNode n b G1 G2)} (htask : sub.tasks[h]? = some task)
      (hstate : sub.states h = .idle) (hne : task.needs ≠ [])
      (hneeds : task.needs.map sub.states = results.map .done) :
      -- `update_complete` comes before the blocks are looked up
      SubStep db sub (db.updateComplete B sub.hash 2) (sub.setState h
        ((db.updateComplete B sub.hash 2).andThen
          (match task.request results with
          | some req => .asked req
          | none => .panicked) .panicked))
  | childPanicked {h l : ℕ} {task : Task (PcdMsg n b G1 G2 P) (PCDNode n b G1 G2)}
      (htask : sub.tasks[h]? = some task) (hstate : sub.states h = .idle) (hl : l ∈ task.needs)
      (hchild : sub.states l = .panicked) :
      SubStep db sub db (sub.setState h .panicked)
  | answer {h : ℕ} {req : PcdMsg n b G1 G2 P} {node : PCDNode n b G1 G2}
      (hstate : sub.states h = .asked req) (hnode : localPcd prover req = .ok node) :
      SubStep db sub db (sub.setState h (.done node))
  | fail {h : ℕ} {req : PcdMsg n b G1 G2 P} (hstate : sub.states h = .asked req) :
      SubStep db sub db (sub.setState h .panicked)
  | count {node : PCDNode n b G1 G2} (hfinal : sub.final = .waiting)
      (hroot : sub.states sub.root = .done node) :
      SubStep db sub (db.updateComplete B sub.hash 1) { sub with
        final := (db.updateComplete B sub.hash 1).andThen (.counted node) .panicked }
  | rootPanicked (hfinal : sub.final = .waiting) (hroot : sub.states sub.root = .panicked) :
      SubStep db sub db { sub with final := .panicked }
  | store {node : PCDNode n b G1 G2} {bytes : List UInt8} (hfinal : sub.final = .counted node)
      (hbytes : verifyAndEncode node = some bytes) :
      SubStep db sub (db.updateProof sub.hash bytes) { sub with
        final := (db.updateProof sub.hash bytes).andThen .stored .panicked }
  | reject {node : PCDNode n b G1 G2} (hfinal : sub.final = .counted node)
      (hbytes : verifyAndEncode node = none) :
      SubStep db sub db { sub with final := .panicked }

/-- A step of the node: a program with its hash and its trace is submitted, or a task goes on. -/
inductive NodeStep (s : NodeState n b G1 G2 P) :
    Option (String × Trace P) → NodeState n b G1 G2 P → Prop
  | submit {proofs : String → Option Proof} {hash : String} {tr : Trace P} {total : U32} {fuel : ℕ}
      {tasks : List (Task (PcdMsg n b G1 G2 P) (PCDNode n b G1 G2))} {root : ℕ}
      (hdb : s.db = some proofs) (htraced : Traced tr)
      (htotal : B.sub (BitVec.ofNat 32 tr.blocks.length) 1 = .ok total)
      (hspawn : manageProof fuel tr = some (tasks, root)) :
      NodeStep s (some (hash, tr)) ⟨some (DB.newProof proofs hash total),
        s.submissions ++ [⟨hash, tr, tasks, root, fun _ => .idle, .waiting⟩]⟩
  | task {i : ℕ} {sub sub' : Submission n b G1 G2 P} {db' : DB}
      (hsub : s.submissions[i]? = some sub)
      (hstep : SubStep B prover verifyAndEncode s.db sub db' sub') :
      NodeStep s none ⟨db', s.submissions.set i sub'⟩

/-- **What the database should say**: no more nodes are complete than there are, and all are when
the proof is there. -/
def Accounted (s : NodeState n b G1 G2 P) : Prop :=
  ∃ proofs, s.db = some proofs ∧ ∀ hash p, proofs hash = some p →
    p.completeNodes.toNat ≤ p.totalNodes.toNat ∧ (p.proof.isSome → p.completeNodes = p.totalNodes)

/-- A program is submitted for the first time, with fewer than `2 ^ 32` blocks. -/
def FirstTime (s : NodeState n b G1 G2 P) (event : Option (String × Trace P)) : Prop :=
  ∀ hash tr, event = some (hash, tr) →
    (∀ proofs, s.db = some proofs → proofs hash = none) ∧ tr.blocks.length < 2 ^ 32

/-- A step of a run in which no program is submitted again, and traces have fewer than `2 ^ 32`
blocks.  An entry of the database is then made once, and its counts start from zero. -/
def FirstTimeStep (s s' : NodeState n b G1 G2 P) : Prop :=
  ∃ event, FirstTime s event ∧ NodeStep B prover verifyAndEncode s event s'

end Steps

/-- The loop of `trace` stops at such a trace. -/
theorem traced_of_trace {M P : Type} [Memory M P] {B : Build} {fuel k : ℕ} {vm vm' : NexusVM M P}
    {tr : Trace P} (h : trace B fuel vm k true = some (.ok tr, vm')) : Traced tr := by
  obtain ⟨⟨res, vm₁⟩, hloop, heq⟩ := Option.map_eq_some_iff.mp h
  cases res with
  | error e => cases heq
  | ok blocks =>
      cases heq
      exact ⟨rfl, Prover.ne_nil_of_traceLoop hloop, stops_of_traceLoop hloop rfl⟩

end NexusVm.Network
