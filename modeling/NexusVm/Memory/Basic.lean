import NexusVm.Memory.CacheLine

/-!
# Memory controllers

The traits of `vm/src/memory.rs`.  A memory answers queries for cache lines
and updates a line by a callback, each time with a proof of its commitment;
loads and stores are defined once for all memories.  The memory of
`vm/src/memory/paged.rs` has 4K pages of 128 cache lines and no proofs.
-/

namespace NexusVm

/-- Build profile: whether `+` on machine integers panics on overflow or wraps. -/
structure Build where
  overflowChecks : Bool
deriving DecidableEq

/-- Rust's `a + b` on `u32`. -/
def Build.add (B : Build) (a b : U32) : Except NexusVMError U32 :=
  if B.overflowChecks && decide (2 ^ 32 ≤ a.toNat + b.toNat) then .error .panic else .ok (a + b)

/-- Commitment and line data of a memory proof. -/
class MemoryProof (P : Type) (p : outParam ℕ) where
  commit : P → ZMod p
  data : P → ZMod p × ZMod p

/-- A callback that may mutate a line, also when it fails. -/
abbrev UpdateFn := CacheLine → Except NexusVMError Unit × CacheLine

class Memory (M : Type) (P : outParam Type) where
  query : M → U32 → CacheLine × P
  update : M → U32 → UpdateFn → Except NexusVMError P × M

namespace Memory

variable {M P : Type} [Memory M P]

/-- Read the instruction at `addr`. -/
def readInst (mem : M) (addr : U32) : Except NexusVMError (U32 × P) :=
  let (cl, path) := query mem addr
  (cl.lw addr).map fun word => (word, path)

/-- Perform a load according to `lop`. -/
def load (mem : M) (lop : LOP) (addr : U32) : Except NexusVMError (U32 × P) :=
  let (cl, path) := query mem addr
  (cl.load lop addr).map fun val => (val, path)

/-- Load `len` bytes from `address`. -/
def loadN (B : Build) (mem : M) (address len : U32) : Except NexusVMError (List U8) := do
  let stop ← B.add address len
  (List.range' address.toNat (stop.toNat - address.toNat)).mapM fun addr =>
    (load mem .lbu (BitVec.ofNat 32 addr)).map fun b => b.1.setWidth 8

/-- Perform a store according to `sop`. -/
def store (mem : M) (sop : SOP) (addr val : U32) : Except NexusVMError P × M :=
  update mem addr fun cl => cl.store sop addr val

end Memory

/-- A simple memory without memory proofs.  The source's `BTreeMap` of pages
is a partial map. -/
structure Paged where
  tree : U32 → Option (Fin 128 → CacheLine)

namespace Paged

def empty : Paged := ⟨fun _ => none⟩

def pageOf (addr : U32) : U32 := addr >>> 12

def offsetOf (addr : U32) : Fin 128 := Fin.ofNat 128 ((addr >>> 5) &&& 0x7f).toNat

/-- The cache line at `addr`. -/
def line (mem : Paged) (addr : U32) : CacheLine :=
  match mem.tree (pageOf addr) with
  | none => CacheLine.zero
  | some arr => arr (offsetOf addr)

/-- Update the line at `addr`; the page is allocated first, and stays
allocated when the callback fails. -/
def updateLine (mem : Paged) (addr : U32) (f : UpdateFn) :
    Except NexusVMError CacheLine × Paged :=
  let arr := (mem.tree (pageOf addr)).getD fun _ => CacheLine.zero
  let (res, cl) := f (arr (offsetOf addr))
  let mem' : Paged :=
    ⟨Function.update mem.tree (pageOf addr) (some (Function.update arr (offsetOf addr) cl))⟩
  (res.map fun _ => cl, mem')

end Paged

/-- The proof of `Paged`: the line's scalars, with nothing to verify. -/
structure UncheckedMemory (p : ℕ) where
  data : ZMod p × ZMod p

instance (p : ℕ) : MemoryProof (UncheckedMemory p) p where
  commit _ := 0
  data proof := proof.data

/-- `Paged` as a memory whose proofs are over `ZMod p`. -/
structure PagedMemory (p : ℕ) where
  mem : Paged

instance (p : ℕ) : Memory (PagedMemory p) (UncheckedMemory p) where
  query m addr := (m.mem.line addr, ⟨(m.mem.line addr).scalars p⟩)
  update m addr f :=
    let (res, mem') := m.mem.updateLine addr f
    (res.map fun cl => ⟨cl.scalars p⟩, ⟨mem'⟩)

end NexusVm
