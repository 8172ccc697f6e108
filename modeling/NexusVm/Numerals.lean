import Mathlib.Data.Nat.Init
import Mathlib.Algebra.GroupWithZero.Nat

/-!
# Numerals

The side conditions of the literals that several modules write in a field or
an index type, each a closed instance: a literal is then the same term
wherever it is written.
-/

namespace NexusVm.Numerals

instance atLeastTwo_two : Nat.AtLeastTwo 2 := ⟨by decide⟩

instance atLeastTwo_three : Nat.AtLeastTwo 3 := ⟨by decide⟩

instance atLeastTwo_six : Nat.AtLeastTwo 6 := ⟨by decide⟩

instance atLeastTwo_seven : Nat.AtLeastTwo 7 := ⟨by decide⟩

instance atLeastTwo_thirtyTwo : Nat.AtLeastTwo 32 := ⟨by decide⟩

instance atLeastTwo_twoFiftySix : Nat.AtLeastTwo 256 := ⟨by decide⟩

instance neZero_two : NeZero 2 := ⟨by decide⟩

instance neZero_five : NeZero 5 := ⟨by decide⟩

instance neZero_thirtyTwo : NeZero 32 := ⟨by decide⟩

end NexusVm.Numerals
