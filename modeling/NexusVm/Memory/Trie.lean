import NexusVm.Memory.Basic

/-!
# Merkle paths

`vm/src/memory/path.rs`.  The Poseidon hashes come from another crate and are
a parameter: any two functions, which may fail.
-/

namespace NexusVm

/-- The hash functions over the field. -/
structure Params (p : ℕ) where
  hashLeaf : ZMod p × ZMod p → Except NexusVMError (ZMod p)
  compress : ZMod p → ZMod p → Except NexusVMError (ZMod p)

namespace Params

variable {p : ℕ} (params : Params p)

def hashMemory (cl : CacheLine) : Except NexusVMError (ZMod p) :=
  params.hashLeaf (cl.scalars p)

/-- The recursion of `compute_zeros`: digest of an empty subtree of height `n`,
with the digests below it pushed in order. -/
def zerosOfHeight : ℕ → List (ZMod p) → Except NexusVMError (ZMod p × List (ZMod p))
  | 0, v => (params.hashMemory CacheLine.zero).map fun d => (d, v)
  | n + 1, v => do
      let (d, v) ← zerosOfHeight n v
      let d' ← params.compress d d
      pure (d', v ++ [d])

/-- Digests of the empty subtrees, from the root down. -/
def computeZeros : Except NexusVMError (List (ZMod p)) := do
  let (root, v) ← params.zerosOfHeight cacheLog []
  pure (v ++ [root]).reverse

end Params

/-- A path from leaf to root: for each level upwards whether the node is the
left child, and the digest of its sibling. -/
structure Path (p : ℕ) where
  root : ZMod p
  leaf : ZMod p × ZMod p
  auth : List (Bool × ZMod p)
deriving DecidableEq

namespace Path

variable {p : ℕ}

/-- Hash from a leaf's digest up an authentication list. -/
def climb (params : Params p) : ZMod p → List (Bool × ZMod p) → Except NexusVMError (ZMod p)
  | hash, [] => .ok hash
  | hash, (isLeft, s) :: auth => do
      let hash' ← if isLeft then params.compress hash s else params.compress s hash
      climb params hash' auth

/-- Verify a path by checking hashes. -/
def verify (params : Params p) (path : Path p) : Except NexusVMError Bool := do
  let hash ← params.hashLeaf path.leaf
  let hash ← climb params hash path.auth
  pure (decide (path.root = hash))

end Path

instance (p : ℕ) : MemoryProof (Path p) p where
  commit path := path.root
  data path := path.leaf

/-!
## The Merkle trie

`vm/src/memory/trie.rs`: a sparse trie of cache lines with Merkle hashing.
Nodes are indexed by their height above the leaves, so that a leaf where the
source expects a branch cannot be built and its `unreachable!()` arms have no
counterpart; `cacheLog - h` is the source's `level`.
-/

/-- A populated leaf: the digest of its cache line, and the line. -/
structure LeafNode (p : ℕ) where
  digest : ZMod p
  val : CacheLine

/-- A populated internal node with optionally populated children. -/
structure BranchNode (p : ℕ) (N : Type) where
  digest : ZMod p
  left : Option N
  right : Option N

/-- The populated nodes at height `h`. -/
def Node (p : ℕ) : ℕ → Type
  | 0 => LeafNode p
  | h + 1 => BranchNode p (Node p h)

namespace Node

variable {p : ℕ}

def digest : {h : ℕ} → Node p h → ZMod p
  | 0, n => LeafNode.digest n
  | _ + 1, n => BranchNode.digest n

/-- A new node with default data. -/
def new : (h : ℕ) → Node p h
  | 0 => (⟨0, CacheLine.zero⟩ : LeafNode p)
  | h + 1 => (⟨0, none, none⟩ : BranchNode p (Node p h))

/-- Leaf value, or default if not allocated. -/
def leafVal : Option (Node p 0) → CacheLine
  | none => CacheLine.zero
  | some n => LeafNode.val n

/-- Child of a node, or `none` if not allocated. -/
def child {h : ℕ} (node : Option (Node p (h + 1))) (left : Bool) : Option (Node p h) :=
  match node with
  | none => none
  | some n => if left then BranchNode.left n else BranchNode.right n

end Node

/-- A sparse trie of cache lines with Merkle hashing. -/
structure MerkleTrie (p : ℕ) where
  root : Option (Node p cacheLog)
  zeros : List (ZMod p)
  params : Params p

namespace MerkleTrie

variable {p : ℕ}

/-- The empty trie; the source unwraps the result of `compute_zeros`. -/
def default (params : Params p) : Except NexusVMError (MerkleTrie p) := do
  let zeros ← params.computeZeros
  pure { root := none, zeros := zeros, params := params }

/-- Digest of a node, or default if not present. -/
def nodeDigest (t : MerkleTrie p) (level : ℕ) {h : ℕ} : Option (Node p h) → ZMod p
  | none => t.zeros.getD level 0
  | some n => n.digest

def rootDigest (t : MerkleTrie p) : ZMod p := t.nodeDigest 0 t.root

/-- Whether the path goes left at the address bit that is tested next. -/
def isLeft (addr : U32) : Bool := addr &&& 1 == 0

def queryInner (t : MerkleTrie p) :
    (h : ℕ) → Option (Node p h) → U32 → CacheLine × List (Bool × ZMod p)
  | 0, node, _ => (Node.leafVal node, [])
  | h + 1, node, addr =>
      let level := cacheLog - h
      let addr := addr >>> 1
      let left := isLeft addr
      let (cl, auth) := queryInner t h (Node.child node left) addr
      let sibling := Node.child node (!left)
      (cl, auth ++ [(left, t.nodeDigest level sibling)])

/-- The cache line at `addr` and its path. -/
def query (t : MerkleTrie p) (addr : U32) : CacheLine × Path p :=
  let (cl, auth) := t.queryInner cacheLog t.root addr.reverse
  (cl, { root := t.rootDigest, leaf := cl.scalars p, auth := auth })

/-- Update below a node.  Nodes are mutated in place: on an error the nodes
that were allocated on the way down remain. -/
def updateInner (t : MerkleTrie p) (f : UpdateFn) :
    (h : ℕ) → Node p h → U32 →
      Except NexusVMError ((ZMod p × ZMod p) × List (Bool × ZMod p)) × Node p h
  | 0, (⟨d, val⟩ : LeafNode p), _ =>
      match f val with
      | (.error e, val') => (.error e, (⟨d, val'⟩ : LeafNode p))
      | (.ok (), val') =>
          match t.params.hashMemory val' with
          | .error e => (.error e, (⟨d, val'⟩ : LeafNode p))
          | .ok d' => (.ok (val'.scalars p, []), (⟨d', val'⟩ : LeafNode p))
  | h + 1, (⟨d, l, r⟩ : BranchNode p (Node p h)), addr =>
      let level := cacheLog - h
      let addr := addr >>> 1
      let left := isLeft addr
      -- descend, allocating the child if necessary
      let b := (if left then l else r).getD (Node.new h)
      let (res, b') := updateInner t f h b addr
      let l' := if left then some b' else l
      let r' := if left then r else some b'
      match res with
      | .error e => (.error e, (⟨d, l', r'⟩ : BranchNode p (Node p h)))
      | .ok (cl, auth) =>
          let sibling := if left then r' else l'
          match t.params.compress (t.nodeDigest level l') (t.nodeDigest level r') with
          | .error e => (.error e, (⟨d, l', r'⟩ : BranchNode p (Node p h)))
          | .ok d' =>
              (.ok (cl, auth ++ [(left, t.nodeDigest level sibling)]),
                (⟨d', l', r'⟩ : BranchNode p (Node p h)))

/-- Update the cache line at `addr`. -/
def update (t : MerkleTrie p) (addr : U32) (f : UpdateFn) :
    Except NexusVMError (Path p) × MerkleTrie p :=
  let root := t.root.getD (Node.new cacheLog)
  let (res, root') := t.updateInner f cacheLog root addr.reverse
  let t' := { t with root := some root' }
  (res.map fun (cl, auth) => { root := t'.rootDigest, leaf := cl, auth := auth }, t')

end MerkleTrie

instance (p : ℕ) : Memory (MerkleTrie p) (Path p) where
  query := MerkleTrie.query
  update := MerkleTrie.update

end NexusVm
