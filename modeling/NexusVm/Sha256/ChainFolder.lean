import NexusVm.Nova.Run
import NexusVm.Sha256.Chain

/-!
# Folding chains of hashes

`nova/src/parallel_tree/sha256_chain_folder.rs`.  The inputs of the folded steps are built from
native hashes.  The setup of the parameters and the parallel folder are a parameter.
-/

namespace NexusVm.Sha256

open Nova

/-- `Sha256ChainError`; `failed` stands for the errors of the setup and of the parallel folder. -/
inductive Sha256ChainError (E : Type)
  | invalidInput (message : String)
  | failed (e : E)
deriving DecidableEq

/-- `StepFunctionInput`. -/
structure StepFunctionInput (F : Type) where
  i : F
  z_i : List F
deriving DecidableEq

/-- `Sha256ChainResult`; `root` stands for the folded instance and its witness. -/
structure Sha256ChainResult (A : Type) where
  root : A
  final_hash : List UInt8
  num_messages : ℕ
deriving DecidableEq

section Folder

variable {p : ℕ} {E A : Type} (sha256 : List UInt8 → List UInt8)

/-- What the loop of `run` has built: the leaves, and `current_hash`. -/
abbrev Built (p : ℕ) : Type := List (StepFunctionInput (ZMod p)) × Option (List UInt8)

/-- The body of the loop: the first message is hashed, then the previous hash. -/
def pushLeaf (built : Built p) (entry : List UInt8 × ℕ) : Run E (Built p) := do
  let input_data ←
    if entry.2 = 0 then .ok entry.1
    else
      -- `current_hash.clone().unwrap()`
      match built.2 with
      | some hash => .ok hash
      | none => .error .panic
  let hash_result := sha256 input_data
  return (built.1 ++ [⟨(entry.2 : ZMod p), [bytesToField input_data]⟩], some hash_result)

/-- `Sha256ChainFolder::run`, with what folds the leaves. -/
def run (fold : List (StepFunctionInput (ZMod p)) → Run E A) (messages : List (List UInt8)) :
    Run (Sha256ChainError E) (Sha256ChainResult A) := do
  Run.failIf (messages = []) (.invalidInput "Messages list cannot be empty")
  let num_messages := messages.length
  -- `is_power_of_two`
  Run.failIf (2 ^ Nat.log2 num_messages ≠ num_messages)
    (.invalidInput s!"Number of messages must be a power of 2, got {num_messages}")
  let built ← messages.zipIdx.foldlM (pushLeaf sha256) ([], none)
  let root ← (fold built.1).mapError .failed
  match built.2 with
  | some final_hash => return ⟨root, final_hash, num_messages⟩
  | none => .error .panic

/-- `run` folds these leaves and returns this hash. -/
def Builds (p : ℕ) (messages : List (List UInt8)) (leaves : List (StepFunctionInput (ZMod p)))
    (final_hash : List UInt8) : Prop :=
  ∀ (E A : Type) (fold : List (StepFunctionInput (ZMod p)) → Run E A),
    run sha256 fold messages = do
      let root ← (fold leaves).mapError Sha256ChainError.failed
      return ⟨root, final_hash, messages.length⟩

variable {rest : List (List UInt8)}

variable {messages : List (List UInt8)}

variable {sha256} in
/-- There is one list of leaves and one hash. -/
theorem Builds.unique {leaves leaves' : List (StepFunctionInput (ZMod p))} {hash hash' : List UInt8}
    (h : Builds sha256 p messages leaves hash) (h' : Builds sha256 p messages leaves' hash') :
    leaves = leaves' ∧ hash = hash' := by
  have heq := (h Empty _ Except.ok).symm.trans (h' Empty _ Except.ok)
  simp only [Run.mapError, bind, Except.bind, pure, Except.pure, Except.ok.injEq,
    Sha256ChainResult.mk.injEq, and_true] at heq
  exact heq

/-! ## When a chain is built and two messages -/

variable [NeZero p]

variable {final_hash : List UInt8} {leaves : List (StepFunctionInput (ZMod p))}

end Folder

end NexusVm.Sha256
