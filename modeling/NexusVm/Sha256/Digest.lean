import Mathlib.Data.List.Basic

/-!
# The SHA-256 digest

The hash function of FIPS 180-4 on bytes: padding, message schedule and compression.
-/

namespace NexusVm.Sha256

/-- The four bytes of a word, most significant first. -/
def wordBytes (w : UInt32) : List UInt8 :=
  [(w >>> 24).toUInt8, (w >>> 16).toUInt8, (w >>> 8).toUInt8, w.toUInt8]

def wordOfBytes (a b c d : UInt8) : UInt32 :=
  (a.toUInt32 <<< 24) ||| (b.toUInt32 <<< 16) ||| (c.toUInt32 <<< 8) ||| d.toUInt32

/-- The words of a list of bytes; up to three last bytes are left out. -/
def wordsOfBytes : List UInt8 → List UInt32
  | a :: b :: c :: d :: rest => wordOfBytes a b c d :: wordsOfBytes rest
  | _ => []

def rotr (w n : UInt32) : UInt32 := (w >>> n) ||| (w <<< (32 - n))

def bigSigma0 (w : UInt32) : UInt32 := rotr w 2 ^^^ rotr w 13 ^^^ rotr w 22

def bigSigma1 (w : UInt32) : UInt32 := rotr w 6 ^^^ rotr w 11 ^^^ rotr w 25

def smallSigma0 (w : UInt32) : UInt32 := rotr w 7 ^^^ rotr w 18 ^^^ (w >>> 3)

def smallSigma1 (w : UInt32) : UInt32 := rotr w 17 ^^^ rotr w 19 ^^^ (w >>> 10)

def ch (x y z : UInt32) : UInt32 := (x &&& y) ^^^ (~~~x &&& z)

def maj (x y z : UInt32) : UInt32 := (x &&& y) ^^^ (x &&& z) ^^^ (y &&& z)

/-- A one bit, zeros up to 56 bytes modulo 64, and the length in bits. -/
def padding (message : List UInt8) : List UInt8 :=
  let len := message.length
  let zeros := (119 - len % 64) % 64
  let bits := (8 * len).toUInt64
  message ++ ([0x80] : List UInt8) ++ List.replicate zeros (0 : UInt8) ++
    (wordBytes (bits >>> 32).toUInt32 ++ wordBytes bits.toUInt32)

/-- The constants of the rounds. -/
def roundConstants : List UInt32 :=
  [0x428a2f98, 0x71374491, 0xb5c0fbcf, 0xe9b5dba5, 0x3956c25b, 0x59f111f1, 0x923f82a4, 0xab1c5ed5,
   0xd807aa98, 0x12835b01, 0x243185be, 0x550c7dc3, 0x72be5d74, 0x80deb1fe, 0x9bdc06a7, 0xc19bf174,
   0xe49b69c1, 0xefbe4786, 0x0fc19dc6, 0x240ca1cc, 0x2de92c6f, 0x4a7484aa, 0x5cb0a9dc, 0x76f988da,
   0x983e5152, 0xa831c66d, 0xb00327c8, 0xbf597fc7, 0xc6e00bf3, 0xd5a79147, 0x06ca6351, 0x14292967,
   0x27b70a85, 0x2e1b2138, 0x4d2c6dfc, 0x53380d13, 0x650a7354, 0x766a0abb, 0x81c2c92e, 0x92722c85,
   0xa2bfe8a1, 0xa81a664b, 0xc24b8b70, 0xc76c51a3, 0xd192e819, 0xd6990624, 0xf40e3585, 0x106aa070,
   0x19a4c116, 0x1e376c08, 0x2748774c, 0x34b0bcb5, 0x391c0cb3, 0x4ed8aa4a, 0x5b9cca4f, 0x682e6ff3,
   0x748f82ee, 0x78a5636f, 0x84c87814, 0x8cc70208, 0x90befffa, 0xa4506ceb, 0xbef9a3f7, 0xc67178f2]

/-- The eight words between two blocks. -/
structure State where
  a : UInt32
  b : UInt32
  c : UInt32
  d : UInt32
  e : UInt32
  f : UInt32
  g : UInt32
  h : UInt32

def State.initial : State :=
  ⟨0x6a09e667, 0xbb67ae85, 0x3c6ef372, 0xa54ff53a, 0x510e527f, 0x9b05688c, 0x1f83d9ab, 0x5be0cd19⟩

def State.bytes (s : State) : List UInt8 :=
  [s.a, s.b, s.c, s.d, s.e, s.f, s.g, s.h].flatMap wordBytes

/-- Add words to the schedule, the newest first. -/
def extendSchedule : ℕ → List UInt32 → List UInt32
  | 0, ws => ws
  | n + 1, ws =>
      let w := smallSigma1 (ws.getD 1 0) + ws.getD 6 0 + smallSigma0 (ws.getD 14 0) + ws.getD 15 0
      extendSchedule n (w :: ws)

def schedule (block : List UInt8) : List UInt32 :=
  (extendSchedule 48 (wordsOfBytes block).reverse).reverse

/-- A round, with its constant and its word. -/
def round (s : State) (kw : UInt32 × UInt32) : State :=
  let t₁ := s.h + bigSigma1 s.e + ch s.e s.f s.g + kw.1 + kw.2
  let t₂ := bigSigma0 s.a + maj s.a s.b s.c
  ⟨t₁ + t₂, s.a, s.b, s.c, s.d + t₁, s.e, s.f, s.g⟩

def compress (s : State) (block : List UInt8) : State :=
  let r := (roundConstants.zip (schedule block)).foldl round s
  ⟨s.a + r.a, s.b + r.b, s.c + r.c, s.d + r.d, s.e + r.e, s.f + r.f, s.g + r.g, s.h + r.h⟩

/-- Compress a number of blocks. -/
def compressBlocks : ℕ → State → List UInt8 → State
  | 0, s, _ => s
  | n + 1, s, bytes => compressBlocks n (compress s (bytes.take 64)) (bytes.drop 64)

/-- The digest of a message. -/
def digest (message : List UInt8) : List UInt8 :=
  let padded := padding message
  (compressBlocks (padded.length / 64) State.initial padded).bytes

theorem length_digest (message : List UInt8) : (digest message).length = 32 := rfl

/-- The digest of `abc`. -/
example : digest [0x61, 0x62, 0x63] =
    [0xba, 0x78, 0x16, 0xbf, 0x8f, 0x01, 0xcf, 0xea, 0x41, 0x41, 0x40, 0xde, 0x5d, 0xae, 0x22, 0x23,
     0xb0, 0x03, 0x61, 0xa3, 0x96, 0x17, 0x7a, 0x9c, 0xb4, 0x10, 0xff, 0x61, 0xf2, 0x00, 0x15,
     0xad] := by
  decide +kernel

end NexusVm.Sha256
