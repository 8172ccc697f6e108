import NexusVm.Rv32.Inst
import NexusVm.Numerals
import Mathlib.Tactic.Ring

/-!
# Cache lines

`vm/src/memory/cacheline.rs`.  The source's union of 32 bytes, 16 half words
and 8 words is the byte view; half words and words are read and written in
little-endian order.
-/

namespace NexusVm

/-- The `u8` of the source. -/
abbrev U8 := BitVec 8

/-- The number of address bits that a cache line holds. -/
def cacheBits : ℕ := 5

/-- The log of the number of cache lines in a complete memory. -/
def cacheLog : ℕ := 32 - cacheBits

/-- The smallest unit of memory that can be read or written. -/
@[ext] structure CacheLine where
  bytes : Fin 32 → U8
deriving DecidableEq

/-- Number with the given little-endian bytes. -/
def leNat : List U8 → ℕ
  | [] => 0
  | b :: bs => b.toNat + 256 * leNat bs

namespace CacheLine

def zero : CacheLine := ⟨fun _ => 0⟩

instance : Inhabited CacheLine := ⟨zero⟩

def byte (cl : CacheLine) (i : ℕ) : U8 := cl.bytes (Fin.ofNat 32 i)

def half (cl : CacheLine) (i : ℕ) : BitVec 16 := cl.byte (2 * i + 1) ++ cl.byte (2 * i)

def word (cl : CacheLine) (i : ℕ) : U32 :=
  (cl.byte (4 * i + 3) ++ cl.byte (4 * i + 2) : BitVec 16) ++
    (cl.byte (4 * i + 1) ++ cl.byte (4 * i) : BitVec 16)

def setByte (cl : CacheLine) (i : ℕ) (v : U8) : CacheLine :=
  ⟨Function.update cl.bytes (Fin.ofNat 32 i) v⟩

def setHalf (cl : CacheLine) (i : ℕ) (v : BitVec 16) : CacheLine :=
  (cl.setByte (2 * i) (v.extractLsb' 0 8)).setByte (2 * i + 1) (v.extractLsb' 8 8)

def setWord (cl : CacheLine) (i : ℕ) (v : U32) : CacheLine :=
  (((cl.setByte (4 * i) (v.extractLsb' 0 8)).setByte (4 * i + 1) (v.extractLsb' 8 8)).setByte
    (4 * i + 2) (v.extractLsb' 16 8)).setByte (4 * i + 3) (v.extractLsb' 24 8)

/-- The two field elements that stand for a line in the circuits. -/
def scalars (p : ℕ) (cl : CacheLine) : ZMod p × ZMod p :=
  ((leNat ((List.range' 0 16).map cl.byte) : ℕ), (leNat ((List.range' 16 16).map cl.byte) : ℕ))

def lbu (cl : CacheLine) (addr : U32) : Except NexusVMError U32 :=
  .ok ((cl.byte (addr &&& 31).toNat).setWidth 32)

def lhu (cl : CacheLine) (addr : U32) : Except NexusVMError U32 :=
  if addr &&& 1 ≠ 0 then .error (.misaligned addr)
  else .ok ((cl.half ((addr >>> 1) &&& 15).toNat).setWidth 32)

def lw (cl : CacheLine) (addr : U32) : Except NexusVMError U32 :=
  if addr &&& 3 ≠ 0 then .error (.misaligned addr)
  else .ok (cl.word ((addr >>> 2) &&& 7).toNat)

def lb (cl : CacheLine) (addr : U32) : Except NexusVMError U32 := do
  let val ← cl.lbu addr
  if val &&& 0x80 = 0 then pure val else pure (0xffffff00#32 ||| val)

def lh (cl : CacheLine) (addr : U32) : Except NexusVMError U32 := do
  let val ← cl.lhu addr
  if val &&& 0x8000 = 0 then pure val else pure (0xffff0000#32 ||| val)

/-- Perform a load according to `lop`. -/
def load (cl : CacheLine) (lop : LOP) (addr : U32) : Except NexusVMError U32 :=
  match lop with
  | .lb => cl.lb addr
  | .lh => cl.lh addr
  | .lw => cl.lw addr
  | .lbu => cl.lbu addr
  | .lhu => cl.lhu addr

/-! ## Stores

A store mutates the line in place, so it returns the line also when it fails. -/

def sb (cl : CacheLine) (addr : U32) (val : U8) : Except NexusVMError Unit × CacheLine :=
  (.ok (), cl.setByte (addr &&& 31).toNat val)

def sh (cl : CacheLine) (addr : U32) (val : BitVec 16) : Except NexusVMError Unit × CacheLine :=
  if addr &&& 1 ≠ 0 then (.error (.misaligned addr), cl)
  else (.ok (), cl.setHalf ((addr >>> 1) &&& 15).toNat val)

def sw (cl : CacheLine) (addr : U32) (val : U32) : Except NexusVMError Unit × CacheLine :=
  if addr &&& 3 ≠ 0 then (.error (.misaligned addr), cl)
  else (.ok (), cl.setWord ((addr >>> 2) &&& 7).toNat val)

/-- Perform a store according to `sop`. -/
def store (cl : CacheLine) (sop : SOP) (addr val : U32) : Except NexusVMError Unit × CacheLine :=
  match sop with
  | .sb => cl.sb addr (val.setWidth 8)
  | .sh => cl.sh addr (val.setWidth 16)
  | .sw => cl.sw addr val

end CacheLine

end NexusVm
