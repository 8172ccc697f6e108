import NexusVm.GrandProduct
import NexusVm.Mangrove.Leaf
import NexusVm.Nova.Run

/-!
# The SHA-256 chain builder

`nova/src/tree_folding/mangrove/sha256_chain_builder.rs` and `sha256_leaf.rs`.  A chain of hashes
is cut into leaves; the index tables tie the output of each leaf to the input of the next one.
`calculate_sha256_native` is a parameter.
-/

namespace NexusVm.Mangrove

open Nova

/-- `SHA256ChainRequest`. -/
structure SHA256ChainRequest where
  input : List UInt8
  numIterations : ℕ

/-- `SHA256ChainMangroveComputation`. -/
structure SHA256ChainMangroveComputation where
  initialInput : List UInt8
  finalOutput : List UInt8
  intermediateHashes : List (List UInt8)
  numIterations : ℕ
  inputIndices : List ℕ
  inputNextIndices : List ℕ
  outputIndices : List ℕ
  outputNextIndices : List ℕ

structure SHA256ChainBuilder where
  chainLength : ℕ
  numLeafs : ℕ
  leafSize : ℕ

namespace SHA256ChainBuilder

/-- `SHA256ChainBuilder::new`. -/
def new (chainLength numLeafs : ℕ) : Run Empty SHA256ChainBuilder := do
  Run.assert (0 < chainLength)
  Run.assert (0 < numLeafs)
  Run.assert (chainLength % numLeafs = 0)
  .ok ⟨chainLength, numLeafs, chainLength / numLeafs⟩

variable (sha256 : List UInt8 → List UInt8)

/-- The requests of the leaves that are left, from the current input. -/
def requestsFrom (leafSize : ℕ) : ℕ → List UInt8 → List SHA256ChainRequest
  | 0, _ => []
  | leafs + 1, currentInput =>
      ⟨currentInput, leafSize⟩ :: requestsFrom leafSize leafs (sha256^[leafSize] currentInput)

/-- `generate_requests`. -/
def generateRequests (b : SHA256ChainBuilder) (initialInput : List UInt8) :
    List SHA256ChainRequest :=
  requestsFrom sha256 b.leafSize b.numLeafs initialInput

/-- The hashes of a leaf. -/
def hashesFrom : ℕ → List UInt8 → List (List UInt8)
  | 0, _ => []
  | iterations + 1, current => sha256 current :: hashesFrom iterations (sha256 current)

/-- The next index of an input byte: the output byte of the leaf before. -/
def inputNextIndex (leafIdx i : ℕ) : ℕ :=
  if leafIdx = 0 then leafIdx * 64 + i else (leafIdx - 1) * 64 + 32 + i

/-- The next index of an output byte: the input byte of the leaf after. -/
def outputNextIndex (b : SHA256ChainBuilder) (leafIdx i : ℕ) : ℕ :=
  if leafIdx < b.numLeafs - 1 then (leafIdx + 1) * 64 + i else leafIdx * 64 + 32 + i

/-- The body of the loop over the requests; a leaf without hashes panics. -/
def computation (b : SHA256ChainBuilder) (leafIdx : ℕ) (request : SHA256ChainRequest) :
    Run Empty SHA256ChainMangroveComputation :=
  let hashes := hashesFrom sha256 request.numIterations request.input
  match hashes.getLast? with
  | none => .error .panic
  | some finalOutput => .ok
      { initialInput := request.input
        finalOutput := finalOutput
        intermediateHashes := hashes
        numIterations := request.numIterations
        inputIndices := (List.range 32).map fun i => leafIdx * 64 + i
        inputNextIndices := (List.range 32).map fun i => inputNextIndex leafIdx i
        outputIndices := (List.range 32).map fun i => leafIdx * 64 + 32 + i
        outputNextIndices := (List.range 32).map fun i => b.outputNextIndex leafIdx i }

/-- `compute_mangrove_constraints`. -/
def computeMangroveConstraints (b : SHA256ChainBuilder) (requests : List SHA256ChainRequest) :
    Run Empty (List SHA256ChainMangroveComputation) := do
  Run.assert (requests.length = b.numLeafs)
  requests.zipIdx.mapM fun request => b.computation sha256 request.2 request.1

end SHA256ChainBuilder

section Products

variable {R : Type} [CommSemiring R]

/-- `compute_permutation_partial_products` of the builder, over any ring of values. -/
def computePermutationPartialProductsNative (values : List R) (indices nextIndices : List ℕ)
    (alpha beta : R) : Run Empty (R × R) := do
  Run.assert (values.length = indices.length)
  Run.assert (values.length = nextIndices.length)
  .ok (partialProducts alpha beta
    (cellsOf values (indices.map Nat.cast) (nextIndices.map Nat.cast)))

/-- The products of a leaf, for any values of its input and output. -/
def leafProducts (c : SHA256ChainMangroveComputation) (input output : List R) (alpha beta : R) :
    Run Empty (R × R) := do
  let inputProducts ← computePermutationPartialProductsNative input c.inputIndices
    c.inputNextIndices alpha beta
  let outputProducts ← computePermutationPartialProductsNative output c.outputIndices
    c.outputNextIndices alpha beta
  .ok (inputProducts.1 * outputProducts.1, inputProducts.2 * outputProducts.2)

/-- The products of all leaves. -/
def allProducts (cs : List SHA256ChainMangroveComputation) (inputs outputs : ℕ → List R)
    (alpha beta : R) : Run Empty (R × R) := do
  let products ← cs.zipIdx.mapM fun c => leafProducts c.1 (inputs c.2) (outputs c.2) alpha beta
  .ok ((products.map Prod.fst).prod, (products.map Prod.snd).prod)

end Products

end NexusVm.Mangrove
