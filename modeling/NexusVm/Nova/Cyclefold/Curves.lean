import Mathlib.Data.Nat.Size
import NexusVm.Nova.R1cs

/-!
# A cycle of curves and its sponge

`nova/src/absorb.rs`, `utils.rs` and `gadgets/emulated`.  The scalar field of the primary curve
has order `n`, its base field order `b`; the secondary curve has them exchanged.  The sponge works
over the field of order `n`, so elements of the other field are absorbed as several elements.
-/

namespace NexusVm.Nova.Cyclefold

open R1cs

/-- `Affine`, and the value of `EmulatedFpAffineVar`. -/
structure AffinePoint (K : Type) where
  x : K
  y : K
  infinity : Bool
deriving DecidableEq

section Points

variable {K : Type} [CommRing K]

/-- Affine coordinates as the code keeps them: those of the point at infinity are zero. -/
def AffinePoint.Normal (P : AffinePoint K) : Prop := P.infinity = true → P.x = 0 ∧ P.y = 0

/-- `into_projective`, and the coordinates of an allocated point. -/
def AffinePoint.intoProjective (P : AffinePoint K) : List K :=
  [if P.infinity then 0 else P.x, if P.infinity then 1 else P.y, if P.infinity then 0 else 1]

/-- `parse_projective!` on three coordinates. -/
def parseProjective [DecidableEq K] (x y z : K) : AffinePoint K :=
  let infinity := decide (z = 0)
  ⟨if infinity then 0 else x, if infinity then 0 else y, infinity⟩

/-- A point comes back from its coordinates. -/
theorem parseProjective_intoProjective [DecidableEq K] [Nontrivial K] {P : AffinePoint K}
    (h : P.Normal) : parseProjective (P.intoProjective.getD 0 0) (P.intoProjective.getD 1 0)
      (P.intoProjective.getD 2 0) = P := by
  obtain ⟨x, y, infinity⟩ := P
  cases infinity with
  | false => simp [AffinePoint.intoProjective, parseProjective]
  | true =>
      obtain ⟨hx, hy⟩ := h rfl
      simp only at hx hy
      simp [AffinePoint.intoProjective, parseProjective, hx, hy]

@[simp] theorem AffinePoint.length_intoProjective (P : AffinePoint K) :
    P.intoProjective.length = 3 := rfl

end Points

section Casts

variable {n b : ℕ}

/-- `cast_field_element`: the number, reduced. -/
def castFieldElement {m k : ℕ} (x : ZMod m) : ZMod k := (x.val : ZMod k)

/-- The base of the digits that are packed into an element: as many bytes as fit. -/
def digitBase (n : ℕ) : ℕ := 256 ^ ((n.size - 1) / 8)

/-- `cast_field_element_unique`: the bytes of the number, cut into elements. -/
def castFieldElementUnique (x : ZMod b) : List (ZMod n) :=
  (List.range ((8 * ((b.size + 63) / 64) + (n.size - 1) / 8 - 1) / ((n.size - 1) / 8))).map
    fun k => ((x.val / digitBase n ^ k % digitBase n : ℕ) : ZMod n)

end Casts

/-- The coordinates of the points of a cycle of curves. -/
structure Cycle (n b : ℕ) (G1 G2 : Type) [AddCommGroup G1] [AddCommGroup G2] where
  /-- `into_affine` on the primary curve. -/
  affine1 : G1 → AffinePoint (ZMod b)
  /-- `into_affine` on the secondary curve. -/
  affine2 : G2 → AffinePoint (ZMod n)
  affine1_injective : Function.Injective affine1
  affine2_injective : Function.Injective affine2
  affine1_normal : ∀ P, (affine1 P).Normal
  /-- The bound of Hasse, weakened: a curve over `b` elements has at most `b ^ 2` points. -/
  order_le : n ≤ b ^ 2

/-- A sponge over the field of order `n`; challenges are squeezed as 127 bits. -/
structure RandomOracle (n : ℕ) where
  State : Type
  new : State
  absorb : State → List (ZMod n) → State
  squeezeField : State → ZMod n × State
  squeezeBits : State → ℕ × State
  squeezeBits_lt : ∀ s, (squeezeBits s).1 < 2 ^ 127

section Absorb

variable {n b : ℕ} {G2 : Type}

/-- A point of the primary curve, in both implementations. -/
def pointElements (P : AffinePoint (ZMod b)) : List (ZMod n) :=
  castFieldElementUnique P.x ++ castFieldElementUnique P.y ++ [if P.infinity then 1 else 0]

/-- A point of the secondary curve. -/
def nativePointElements (P : AffinePoint (ZMod n)) : List (ZMod n) :=
  [P.x, P.y, if P.infinity then 1 else 0]

/-- A strict instance of the primary curve, with the coordinates of its commitment. -/
def strictElements (u : R1CSInstance (ZMod n) (AffinePoint (ZMod b))) : List (ZMod n) :=
  pointElements u.commitment_W ++ u.X.drop 1

/-- A relaxed instance of the primary curve. -/
def relaxedElements (U : RelaxedR1CSInstance (ZMod n) (AffinePoint (ZMod b))) : List (ZMod n) :=
  pointElements U.commitment_W ++ pointElements U.commitment_E ++ U.X

/-- A strict instance of the secondary curve. -/
def strictElementsSecondary (u : R1CSInstance (ZMod b) (AffinePoint (ZMod n))) : List (ZMod n) :=
  nativePointElements u.commitment_W ++ (u.X.drop 1).flatMap castFieldElementUnique

/-- A relaxed instance of the secondary curve. -/
def relaxedElementsSecondary (U : RelaxedR1CSInstance (ZMod b) (AffinePoint (ZMod n))) :
    List (ZMod n) :=
  nativePointElements U.commitment_W ++ nativePointElements U.commitment_E ++
    U.X.flatMap castFieldElementUnique

end Absorb

section Coordinates

variable {F C D : Type}

/-- The instance with its commitment replaced. -/
def strictMap (f : C → D) (u : R1CSInstance F C) : R1CSInstance F D := ⟨f u.commitment_W, u.X⟩

/-- The relaxed instance with its commitments replaced. -/
def relaxedMap (f : C → D) (U : RelaxedR1CSInstance F C) : RelaxedR1CSInstance F D :=
  ⟨f U.commitment_W, f U.commitment_E, U.X⟩

end Coordinates

end NexusVm.Nova.Cyclefold
