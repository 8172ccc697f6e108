import NexusVm.LinearProofs
import NexusVm.Spartan.Sumcheck

/-!
# Vector commitments

`spartan/src/commitments.rs`: combinations of random points.  The random tape of `random.rs` is a
transcript of its own.
-/

namespace NexusVm.Spartan

open Nova LinearProofs

/-- `MultiCommitGens`. -/
structure MultiCommitGens (C : Type) where
  n : ℕ
  G : List C
  h : C
  length_eq : G.length = n

namespace MultiCommitGens

variable {C : Type}

/-- `MultiCommitGens::new`, over the random points that a label gives. -/
def new (points : ℕ → C) (n : ℕ) : MultiCommitGens C where
  n := n
  G := (List.range n).map points
  h := points n
  length_eq := by rw [List.length_map, List.length_range]

/-- `MultiCommitGens::split_at`. -/
def splitAt (gens : MultiCommitGens C) (mid : ℕ) : MultiCommitGens C × MultiCommitGens C :=
  (⟨(gens.G.take mid).length, gens.G.take mid, gens.h, rfl⟩,
    ⟨(gens.G.drop mid).length, gens.G.drop mid, gens.h, rfl⟩)

/-- The single generator `X` with the blinding generator of `gens`. -/
def single (X : C) (h : C) : MultiCommitGens C := ⟨1, [X], h, rfl⟩

/-- All generators. -/
def points (gens : MultiCommitGens C) : List C := gens.G ++ [gens.h]

theorem points_of_one {gens : MultiCommitGens C} (hn : gens.n = 1) (d : C) :
    gens.points = [gens.G.getD 0 d, gens.h] := by
  obtain ⟨g, hg⟩ := List.length_eq_one_iff.mp (gens.length_eq.trans hn)
  rw [points, hg]
  rfl

end MultiCommitGens

section Commit

variable {F C : Type} [Field F] [AddCommGroup C] [Module F C]

/-- `Commitments::commit`. -/
def Commitments.commit {E : Type} (x blind : F) (gens : MultiCommitGens C) : Run E C := do
  Run.assert (gens.n = 1)
  .ok (x • gens.G.getD 0 0 + blind • gens.h)

/-- `VariableBaseMSM::msm(..).unwrap()`. -/
def msm {E : Type} (bases : List C) (scalars : List F) : Run E C := do
  Run.assert (bases.length = scalars.length)
  .ok (combine scalars bases)

/-- `Commitments::batch_commit`. -/
def Commitments.batchCommit {E : Type} (inputs : List F) (blind : F) (gens : MultiCommitGens C) :
    Run E C := do
  Run.assert (gens.n = inputs.length)
  msm gens.points (inputs ++ [blind])

theorem msm_guarded {E : Type} (bases : List C) (scalars : List F) :
    Run.Guarded (msm bases scalars : Run E C) (bases.length = scalars.length)
      (combine scalars bases) :=
  Run.Guarded.congr ((Run.Guarded.assert _).bind fun _ => Run.Guarded.ok _) (and_iff_left trivial)
    fun _ => rfl

theorem commit_guarded {E : Type} (x blind : F) (gens : MultiCommitGens C) :
    Run.Guarded (Commitments.commit x blind gens : Run E C) (gens.n = 1)
      (combine [x, blind] gens.points) := by
  refine Run.Guarded.congr ((Run.Guarded.assert _).bind fun _ => Run.Guarded.ok _)
    (and_iff_left trivial) ?_
  intro hn
  rw [gens.points_of_one hn 0, combine_cons, combine_cons, combine_nil, add_zero]

theorem batchCommit_guarded {E : Type} (inputs : List F) (blind : F) (gens : MultiCommitGens C) :
    Run.Guarded (Commitments.batchCommit inputs blind gens : Run E C) (gens.n = inputs.length)
      (combine (inputs ++ [blind]) gens.points) := by
  refine Run.Guarded.congr ((Run.Guarded.assert _).bind fun _ => msm_guarded _ _) ?_ fun _ => rfl
  rw [MultiCommitGens.points, List.length_append, List.length_append, gens.length_eq]
  exact ⟨fun h => h.1, fun h => ⟨h, by rw [h]; rfl⟩⟩

theorem combine_points {gens : MultiCommitGens C} (hn : gens.n = 1) (x r : F) :
    combine [x, r] gens.points = x • gens.G.getD 0 0 + r • gens.h := by
  simp [gens.points_of_one hn 0]

end Commit

end NexusVm.Spartan
