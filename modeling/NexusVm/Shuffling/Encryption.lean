import NexusVm.Gadget
import Mathlib.Data.ZMod.Basic
import Mathlib.Data.Nat.Size

/-!
# Ciphertexts in a circuit

`nova/src/shuffling/encryption.rs`, with the variables of `data_structures.rs`.  The curve's
gadgets come from another crate: they are functions of the coordinates' values.
-/

namespace NexusVm.Shuffling

open Gadget

/-- `ProjectiveVar`: the values of the coordinates. -/
@[ext]
structure ProjectiveVar (F : Type) where
  x : F
  y : F
  z : F
deriving DecidableEq

/-- `ElGamalCiphertextVar`. -/
@[ext]
structure ElGamalCiphertextVar (F : Type) where
  c1 : ProjectiveVar F
  c2 : ProjectiveVar F
deriving DecidableEq

/-- The gadgets of a curve: `Allocated` is what the constraints of `new_variable` leave
possible, and the generator is a constant. -/
structure CurveVar (F : Type) where
  Allocated : ProjectiveVar F → Prop
  generator : ProjectiveVar F
  add : ProjectiveVar F → ProjectiveVar F → ProjectiveVar F
  scalarMulLe : ProjectiveVar F → List Bool → ProjectiveVar F
  allocated_generator : Allocated generator

section Encryption

variable {p : ℕ} (C : CurveVar (ZMod p))

/-- `to_bits_le`: the bits of the canonical representative, as many as the modulus has. -/
def toBitsLe (x : ZMod p) : List Bool := (List.range p.size).map x.val.testBit

def rerandomizeCiphertext (ciphertext : ElGamalCiphertextVar (ZMod p)) (rerandomization : ZMod p)
    (shufflerPk : ProjectiveVar (ZMod p)) : ElGamalCiphertextVar (ZMod p) :=
  let rBits := toBitsLe rerandomization
  let rG := C.scalarMulLe C.generator rBits
  let rPk := C.scalarMulLe shufflerPk rBits
  ⟨C.add ciphertext.c1 rG, C.add ciphertext.c2 rPk⟩

/-- `reencrypt_cards_with_new_randomization`: lists of different lengths are an error. -/
def reencryptCardsWithNewRandomization (inputDeck : List (ElGamalCiphertextVar (ZMod p)))
    (encryptionRandomizations : List (ZMod p)) (shufflerPk : ProjectiveVar (ZMod p)) :
    Gadget (List (ElGamalCiphertextVar (ZMod p))) := do
  enforce (inputDeck.length = encryptionRandomizations.length)
  return List.zipWith (fun card r => rerandomizeCiphertext C card r shufflerPk) inputDeck
    encryptionRandomizations

end Encryption

end NexusVm.Shuffling
