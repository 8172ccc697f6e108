import Mathlib.Data.ZMod.Basic
import NexusVm.Nova.Run

/-!
# Messages of the proving network

`network/src/pcd.rs`.  Messages are written through the data model of one serializer, which other
crates write as bytes; scalars and the types of the prover have hand-written visitors.
-/

namespace NexusVm.Network

open Nova

/-- What the serializer sees of a message: the variant with a string, an address, a sequence of
words or a string of bytes. -/
inductive Wire (Addr : Type)
  | connect (id : String)
  | reconnect (addr : Addr)
  | connected
  | ready
  | msmReq (words : List UInt64)
  | msmRes (bytes : List UInt8)
  | leafReq (bytes : List UInt8)
  | nodeReq (bytes : List UInt8)
  | pcdRes (bytes : List UInt8)
deriving DecidableEq

/-- `postcard`. -/
structure Postcard (Addr : Type) where
  Error : Type
  toStdvec : Wire Addr → Except Error (List UInt8)
  fromBytes : List UInt8 → Except Error (Wire Addr)

/-- `lz4`: a frame with all that was written, the decoder of a frame, and what is read from it. -/
structure Lz4 where
  Error : Type
  Decoder : Type
  frame : List UInt8 → Except Error (List UInt8)
  newDecoder : List UInt8 → Except Error Decoder
  copy : Decoder → Except Error (List UInt8)

/-- `CanonicalSerialize` and `CanonicalDeserialize` of a type; errors are not looked at. -/
structure Ark (T : Type) where
  serializeUncompressed : T → Option (List UInt8)
  deserializeUncompressed : List UInt8 → Run Unit T

/-- The crates, with the types of the prover. -/
structure Crates (Addr P1 Trace PCDNode : Type) where
  postcard : Postcard Addr
  lz4 : Lz4
  p1 : Ark P1
  trace : Ark Trace
  nodes : Ark (List (PCDNode × Trace))
  node : Ark PCDNode

/-- `DynError`, from the crates and the visitors. -/
inductive DynError (PostcardError Lz4Error : Type)
  | postcard (e : PostcardError)
  | lz4 (e : Lz4Error)
  | custom (message : String)
deriving DecidableEq

/-- `NexusMsg`, with scalars modulo `q`. -/
inductive NexusMsg (q : ℕ) (Addr P1 Trace PCDNode : Type)
  | connect (id : String)
  | reconnect (addr : Addr)
  | connected
  | ready
  | msmReq (scalars : List (ZMod q))
  | msmRes (point : P1)
  | leafReq (trace : Trace)
  | nodeReq (nodes : List (PCDNode × Trace))
  | pcdRes (node : PCDNode)

/-! ## Scalars and the codec -/

section Scalars

variable {q : ℕ} {E : Type}

/-- `into_bigint` and `serialize_element` of its four words. -/
def words (f : ZMod q) : List UInt64 :=
  [UInt64.ofNat f.val, UInt64.ofNat (f.val / 2 ^ 64), UInt64.ofNat (f.val / 2 ^ 128),
    UInt64.ofNat (f.val / 2 ^ 192)]

/-- `scalars::serialize`. -/
def serializeScalars (v : List (ZMod q)) : List UInt64 := v.flatMap words

/-- The number with these words. -/
def bigInt (a b c d : UInt64) : ℕ :=
  a.toNat + 2 ^ 64 * b.toNat + 2 ^ 128 * c.toNat + 2 ^ 192 * d.toNat

/-- `from_bigint`. -/
def fromBigint (q a : ℕ) : Option (ZMod q) := if a < q then some (a : ZMod q) else none

/-- The loop of `scalars::deserialize` over chunks of four words. -/
def deserializeScalars (q : ℕ) : List UInt64 → Run String (List (ZMod q))
  | a :: b :: c :: d :: v =>
      match fromBigint q (bigInt a b c d) with
      | some f => do
          let fs ← deserializeScalars q v
          return f :: fs
      | none => .error (.error "bigint conversion")
  | [] => .ok []
  -- `l[1]`, `l[2]` or `l[3]` of a shorter chunk
  | _ => .error .panic

end Scalars

section Codec

variable {q : ℕ} {Addr P1 Trace PCDNode : Type} (X : Crates Addr P1 Trace PCDNode)

/-- The errors of `encode` and `decode`. -/
abbrev Crates.Error : Type := DynError X.postcard.Error X.lz4.Error

/-- `ark::serialize`. -/
def serializeArk {T : Type} (ark : Ark T) (t : T) : Run X.Error (List UInt8) :=
  match ark.serializeUncompressed t with
  | some v => .ok v
  | none => .error (.error (.custom "ark error"))

/-- `ark::deserialize`. -/
def deserializeArk {T : Type} (ark : Ark T) (v : List UInt8) : Run X.Error T :=
  (ark.deserializeUncompressed v).mapError fun _ => .custom "ark Error"

/-- `Serialize` of a message. -/
def serialize : NexusMsg q Addr P1 Trace PCDNode → Run X.Error (Wire Addr)
  | .connect id => .ok (.connect id)
  | .reconnect addr => .ok (.reconnect addr)
  | .connected => .ok .connected
  | .ready => .ok .ready
  | .msmReq scalars => .ok (.msmReq (serializeScalars scalars))
  | .msmRes point => .msmRes <$> serializeArk X X.p1 point
  | .leafReq trace => .leafReq <$> serializeArk X X.trace trace
  | .nodeReq nodes => .nodeReq <$> serializeArk X X.nodes nodes
  | .pcdRes node => .pcdRes <$> serializeArk X X.node node

/-- `Deserialize` of a message. -/
def deserialize : Wire Addr → Run X.Error (NexusMsg q Addr P1 Trace PCDNode)
  | .connect id => .ok (.connect id)
  | .reconnect addr => .ok (.reconnect addr)
  | .connected => .ok .connected
  | .ready => .ok .ready
  | .msmReq words => .msmReq <$> (deserializeScalars q words).mapError .custom
  | .msmRes bytes => .msmRes <$> deserializeArk X X.p1 bytes
  | .leafReq bytes => .leafReq <$> deserializeArk X X.trace bytes
  | .nodeReq bytes => .nodeReq <$> deserializeArk X X.nodes bytes
  | .pcdRes bytes => .pcdRes <$> deserializeArk X X.node bytes

/-- `?` on a result of another crate. -/
def question {E E' α : Type} (convert : E → E') : Except E α → Run E' α
  | .ok a => .ok a
  | .error e => .error (.error (convert e))

/-- `unwrap`. -/
def unwrap {E E' α : Type} : Except E α → Run E' α
  | .ok a => .ok a
  | .error _ => .error .panic

def encode (msg : NexusMsg q Addr P1 Trace PCDNode) : Run X.Error (List UInt8) := do
  let wire ← serialize X msg
  question .postcard (X.postcard.toStdvec wire)

def decode (v : List UInt8) : Run X.Error (NexusMsg q Addr P1 Trace PCDNode) := do
  let wire ← question .postcard (X.postcard.fromBytes v)
  deserialize X wire

/-- `encode_lz4`: the same bytes are written to an encoder. -/
def encodeLz4 (msg : NexusMsg q Addr P1 Trace PCDNode) : Run X.Error (List UInt8) := do
  let v ← encode X msg
  question .lz4 (X.lz4.frame v)

def decodeLz4 (v : List UInt8) : Run X.Error (NexusMsg q Addr P1 Trace PCDNode) := do
  let d ← question .lz4 (X.lz4.newDecoder v)
  let v ← unwrap (X.lz4.copy d)
  decode X v

end Codec

end NexusVm.Network
