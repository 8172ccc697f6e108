import NexusVm.Nova.Ccs

/-!
# R1CS shapes as CCS shapes

`From<R1CSShape>` of `nova/src/ccs/mod.rs`.  R1CS instances are checked against a commitment to
the vector of the witness, CCS instances against one to its multilinear extension, which an empty
witness does not have.
-/

namespace NexusVm.Nova.Ccs

section Embedding

variable {F C PP C' CK : Type} [Field F] [AddCommGroup C] [Module F C] [AddCommGroup C']
  [Module F C'] {shape : R1cs.R1CSShape F}

/-- The constraints of a row: one multiset for the product, one for what it must be. -/
theorem sum_hadamard_ofR1CSShape (shape : R1cs.R1CSShape F) (Az Bz Cz : List F) (i : ℕ) :
    (CCSShape.ofR1CSShape shape).cSs.foldl (fun s cS => s + hadamard cS [Az, Bz, Cz] i) 0 =
      Az.getD i 0 * Bz.getD i 0 - Cz.getD i 0 := by
  show 0 + 1 * Az.getD i 0 * Bz.getD i 0 + -1 * Cz.getD i 0 = _
  ring

/-- The products of the matrices with an assignment of the right length. -/
theorem mapM_multiplyVec_ofR1CSShape {z : List F}
    (hz : z.length = shape.numIo + shape.numVars) :
    ((CCSShape.ofR1CSShape shape).Ms.mapM fun M => M.multiplyVec z : Run Error _) =
      .ok [shape.A.multiplyVecUnchecked z, shape.B.multiplyVecUnchecked z,
        shape.C.multiplyVecUnchecked z] := by
  have hmap : [shape.A.multiplyVecUnchecked z, shape.B.multiplyVecUnchecked z,
      shape.C.multiplyVecUnchecked z] =
      (CCSShape.ofR1CSShape shape).Ms.map fun M => M.multiplyVecUnchecked z := rfl
  rw [hmap, mapM_eq_ok_iff, List.forall₂_map_right_iff, List.forall₂_same]
  intro M hM
  exact SparseMatrix.multiplyVec_of_dims ((CCSShape.ofR1CSShape shape).dims M hM) hz

variable [DecidableEq F] [DecidableEq C] [DecidableEq C']

/-- What a satisfied pair of an embedded shape fulfills: the rows of the R1CS shape, and a
commitment to the extension of a witness that is not empty. -/
theorem isSatisfied_ofR1CSShape {S : PolyCommitmentScheme F C' CK} {U : CCSInstance F C'}
    {W : CCSWitness F} {ck : CK} :
    (CCSShape.ofR1CSShape shape).isSatisfied S U W ck = .ok () ↔
      W.W.length = shape.numVars ∧ U.X.length = shape.numIo ∧
      (∀ i < shape.numConstraints, shape.A.entry (U.X ++ W.W) i * shape.B.entry (U.X ++ W.W) i =
        shape.C.entry (U.X ++ W.W) i) ∧
      0 < W.W.length ∧
      U.commitment_W = S.commit (.new (padTo (nextPowerOfTwo W.W.length) W.W)) ck := by
  have hrows : ∀ Az Bz Cz : List F,
      ¬ ((List.range shape.numConstraints).map fun i =>
          (CCSShape.ofR1CSShape shape).cSs.foldl
            (fun s cS => s + hadamard cS [Az, Bz, Cz] i) 0).any (fun s => decide (s ≠ 0)) = true ↔
        ∀ i < shape.numConstraints, Az.getD i 0 * Bz.getD i 0 = Cz.getD i 0 := by
    intro Az Bz Cz
    simp only [sum_hadamard_ofR1CSShape, List.any_map, List.any_eq_true, List.mem_range,
      Function.comp_apply, decide_eq_true_eq, not_exists, not_and, not_not, sub_eq_zero]
  simp only [CCSShape.isSatisfied, bind_eq_ok, assert_eq_ok, failIf_eq_ok, exists_const, not_not]
  constructor
  · rintro ⟨hW, hX, Mzs, hMzs, hzero, c, hc, heq⟩
    have hz : (U.X ++ W.W).length = shape.numIo + shape.numVars := by
      rw [List.length_append, hX]
      exact congrArg _ hW
    rw [mapM_multiplyVec_ofR1CSShape hz] at hMzs
    obtain rfl := Except.ok.inj hMzs
    obtain ⟨hpos, rfl⟩ := commit_eq_ok.mp hc
    exact ⟨hW, hX, (hrows _ _ _).mp hzero, hpos, heq⟩
  · rintro ⟨hW, hX, hsat, hpos, hcommit⟩
    have hz : (U.X ++ W.W).length = shape.numIo + shape.numVars := by
      rw [List.length_append, hX, hW]
    exact ⟨hW, hX, _, mapM_multiplyVec_ofR1CSShape hz, (hrows _ _ _).mpr hsat, _,
      commit_eq_ok.mpr ⟨hpos, rfl⟩, hcommit⟩

/-- **The embedding preserves satisfaction in both directions** where there is a witness to
extend, for commitments that open to the witness under both schemes or under neither. -/
theorem r1cs_embedding_iff (hvars : 0 < shape.numVars) (S : CommitmentScheme F C PP)
    (S' : PolyCommitmentScheme F C' CK) (pp : PP) (ck : CK) (c : C) (c' : C') (X W : List F)
    (hcommit : c = S.commit pp W ↔
      c' = S'.commit (.new (padTo (nextPowerOfTwo W.length) W)) ck) :
    (CCSShape.ofR1CSShape shape).isSatisfied S' ⟨c', X⟩ ⟨W⟩ ck = .ok () ↔
      shape.isSatisfied S ⟨c, X⟩ ⟨W⟩ pp = .ok () := by
  rw [isSatisfied_ofR1CSShape, R1cs.isSatisfied_iff]
  constructor
  · rintro ⟨hW, hX, hrows, -, hopen⟩
    exact ⟨hW, hX, hrows, hcommit.mpr hopen⟩
  · intro h
    have hpos : 0 < W.length := by
      rw [h.lengthW]
      exact hvars
    exact ⟨h.lengthW, h.lengthX, h.rows, hpos, hcommit.mp h.commitW⟩

end Embedding

/-- The square root `2` of `1`, with its sum as both commitments. -/
theorem r1cs_embedding_square :
    (CCSShape.ofR1CSShape R1cs.squareShape).isSatisfied sumScheme ⟨2, [1]⟩ ⟨[2]⟩ () = .ok () ↔
      R1cs.squareShape.isSatisfied R1cs.sumScheme ⟨2, [1]⟩ ⟨[2]⟩ () = .ok () :=
  r1cs_embedding_iff (by decide) R1cs.sumScheme sumScheme () () 2 2 [1] [2] (by decide)

/-- **A shape without witness variables is never satisfied as a CCS shape**: the check panics
where the R1CS check accepts. -/
theorem empty_witness_panics :
    R1cs.emptyShape.isSatisfied R1cs.sumScheme ⟨0, [1]⟩ ⟨[]⟩ () = .ok () ∧
      (CCSShape.ofR1CSShape R1cs.emptyShape).isSatisfied sumScheme ⟨0, [1]⟩ ⟨[]⟩ () =
        .error .panic := by
  decide

end NexusVm.Nova.Ccs
