import NexusVm.Network.Codec

/-!
# Crates that read back what they write

The format of `postcard`, which the codec is run with: numbers as varints, sequences and strings
after their length, a variant after its index.  Lengths are not bounded by a machine word.
-/

namespace NexusVm.Network

open Nova

namespace Postcard

/-- Groups of seven bits, the lowest first; all but the last are marked. -/
def writeVarint (n : ℕ) : List UInt8 :=
  if n < 128 then [UInt8.ofNat n] else UInt8.ofNat (128 + n % 128) :: writeVarint (n / 128)
termination_by n

def readVarint : List UInt8 → Option (ℕ × List UInt8)
  | [] => none
  | b :: v =>
      if b.toNat < 128 then some (b.toNat, v)
      else (readVarint v).map fun (n, v) => (b.toNat - 128 + 128 * n, v)

@[simp] theorem readVarint_writeVarint (n : ℕ) (rest : List UInt8) :
    readVarint (writeVarint n ++ rest) = some (n, rest) := by
  induction n using writeVarint.induct with
  | case1 n hlt =>
      have hn : (UInt8.ofNat n).toNat = n := by
        rw [UInt8.toNat_ofNat']
        omega
      rw [writeVarint, if_pos hlt, List.cons_append, List.nil_append, readVarint, hn, if_pos hlt]
  | case2 n hge ih =>
      have hn : (UInt8.ofNat (128 + n % 128)).toNat = 128 + n % 128 := by
        rw [UInt8.toNat_ofNat']
        omega
      have hval : 128 + n % 128 - 128 + 128 * (n / 128) = n := by omega
      rw [writeVarint, if_neg hge, List.cons_append, readVarint, hn, if_neg (by omega), ih,
        Option.map_some]
      dsimp only
      rw [hval]

def writeBytes (bytes : List UInt8) : List UInt8 := writeVarint bytes.length ++ bytes

def readBytes (v : List UInt8) : Option (List UInt8 × List UInt8) := do
  let (n, v) ← readVarint v
  if n ≤ v.length then some (v.take n, v.drop n) else none

@[simp] theorem readBytes_writeBytes (bytes rest : List UInt8) :
    readBytes (writeBytes bytes ++ rest) = some (bytes, rest) := by
  simp [readBytes, writeBytes]

def writeString (s : String) : List UInt8 := writeBytes s.toByteArray.data.toList

def readString (v : List UInt8) : Option (String × List UInt8) := do
  let (bytes, v) ← readBytes v
  let s ← String.fromUTF8? ⟨bytes.toArray⟩
  return (s, v)

@[simp] theorem readString_writeString (s : String) (rest : List UInt8) :
    readString (writeString s ++ rest) = some (s, rest) := by
  have hs : String.fromUTF8? ⟨s.toByteArray.data.toList.toArray⟩ = some s := by
    rw [Array.toArray_toList]
    exact dif_pos s.isValidUTF8
  simp [readString, writeString, hs]

def writeWords (words : List UInt64) : List UInt8 :=
  writeVarint words.length ++ words.flatMap fun w => writeVarint w.toNat

/-- As many words as were announced. -/
def readWord : ℕ → List UInt8 → Option (List UInt64 × List UInt8)
  | 0, v => some ([], v)
  | k + 1, v => do
      let (n, v) ← readVarint v
      if n < 2 ^ 64 then
        let (words, v) ← readWord k v
        return (UInt64.ofNat n :: words, v)
      else none

def readWords (v : List UInt8) : Option (List UInt64 × List UInt8) := do
  let (k, v) ← readVarint v
  readWord k v

theorem readWord_flatMap (words : List UInt64) (rest : List UInt8) :
    readWord words.length (words.flatMap (fun w => writeVarint w.toNat) ++ rest) =
      some (words, rest) := by
  induction words with
  | nil => rfl
  | cons w words ih =>
      have hw : w.toNat < 2 ^ 64 := w.toNat_lt
      rw [List.length_cons, List.flatMap_cons, List.append_assoc, readWord]
      simpa [ih] using hw

@[simp] theorem readWords_writeWords (words : List UInt64) (rest : List UInt8) :
    readWords (writeWords words ++ rest) = some (words, rest) := by
  simp [readWords, writeWords, readWord_flatMap]

/-! ## Messages -/

/-- An address of the first kind. -/
structure SocketAddrV4 where
  ip : UInt8 × UInt8 × UInt8 × UInt8
  port : UInt16

def writeAddr (addr : SocketAddrV4) : List UInt8 :=
  0 :: addr.ip.1 :: addr.ip.2.1 :: addr.ip.2.2.1 :: addr.ip.2.2.2 :: writeVarint addr.port.toNat

def readAddr : List UInt8 → Option (SocketAddrV4 × List UInt8)
  | 0 :: a :: b :: c :: d :: v => do
      let (n, v) ← readVarint v
      if n < 2 ^ 16 then return (⟨(a, b, c, d), UInt16.ofNat n⟩, v) else none
  | _ => none

@[simp] theorem readAddr_writeAddr (addr : SocketAddrV4) (rest : List UInt8) :
    readAddr (writeAddr addr ++ rest) = some (addr, rest) := by
  have hport : addr.port.toNat < 2 ^ 16 := addr.port.toNat_lt
  simpa [readAddr, writeAddr] using hport

/-- A message after its index. -/
def writeMsg : Wire SocketAddrV4 → List UInt8
  | .connect id => 0 :: writeString id
  | .reconnect addr => 1 :: writeAddr addr
  | .connected => [2]
  | .ready => [3]
  | .msmReq words => 4 :: writeWords words
  | .msmRes bytes => 5 :: writeBytes bytes
  | .leafReq bytes => 6 :: writeBytes bytes
  | .nodeReq bytes => 7 :: writeBytes bytes
  | .pcdRes bytes => 8 :: writeBytes bytes

/-- What follows the message is not looked at. -/
def readMsg : List UInt8 → Option (Wire SocketAddrV4)
  | 0 :: v => (readString v).map (.connect ·.1)
  | 1 :: v => (readAddr v).map (.reconnect ·.1)
  | 2 :: _ => some .connected
  | 3 :: _ => some .ready
  | 4 :: v => (readWords v).map (.msmReq ·.1)
  | 5 :: v => (readBytes v).map (.msmRes ·.1)
  | 6 :: v => (readBytes v).map (.leafReq ·.1)
  | 7 :: v => (readBytes v).map (.nodeReq ·.1)
  | 8 :: v => (readBytes v).map (.pcdRes ·.1)
  | _ => none

theorem readMsg_writeMsg (wire : Wire SocketAddrV4) : readMsg (writeMsg wire) = some wire := by
  have hstring := fun s => readString_writeString s []
  have haddr := fun addr => readAddr_writeAddr addr []
  have hwords := fun words => readWords_writeWords words []
  have hbytes := fun bytes => readBytes_writeBytes bytes []
  simp only [List.append_nil] at hstring haddr hwords hbytes
  cases wire <;> simp [writeMsg, readMsg, hstring, haddr, hwords, hbytes]

/-- `postcard`, with one error. -/
def crate : Postcard SocketAddrV4 where
  Error := Unit
  toStdvec wire := .ok (writeMsg wire)
  fromBytes v := match readMsg v with
    | some wire => .ok wire
    | none => .error ()

end Postcard

end NexusVm.Network
