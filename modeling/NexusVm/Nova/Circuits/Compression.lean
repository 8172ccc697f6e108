import NexusVm.Nova.Circuits.Conversion
import NexusVm.Nova.Circuits.Degenerate
import NexusVm.Nova.Cyclefold.Verify

/-!
# Compressed proofs

`nova/src/circuits/nova/pcd/compression/mod.rs`.  A node is folded once more, and Spartan proves the
folded pair.  Proofs of Spartan are a parameter here.
-/

namespace NexusVm.Nova.Circuits.Pcd

open R1cs Cyclefold Spartan

/-- `ProofVerifyError`, without the errors that it carries. -/
inductive ProofVerifyError
  | internalError
  | decompressionError
  | polyCommitmentError
deriving DecidableEq

/-- `ProofError`. -/
inductive ProofError
  | invalidProof
  | invalidPublicInput
  | invalidSpartanProof (e : ProofVerifyError)
  | secondaryCircuitNotSatisfied

/-- `SpartanError`. -/
inductive SpartanError
  | conversionError (e : R1CSError)
  | foldingError (e : Cyclefold.Error)
  | invalidProof (e : ProofError)

/-- `spartan_snark::SNARK` with its key material; each call starts with a new transcript. -/
structure Snark (F C : Type) where
  Srs : Type
  Gens : Type
  Commitment : Type
  Decommitment : Type
  Proof : Type
  /-- `SNARKGens::new`, of the numbers of constraints, variables, inputs and entries. -/
  newGens : Srs → ℕ → ℕ → ℕ → ℕ → Run SpartanError Gens
  encode : Spartan.R1CSInstance F → Gens → Run SpartanError (Commitment × Decommitment)
  prove : Spartan.R1CSInstance F → CRR1CSInstance F C → CRR1CSWitness F → Commitment →
    Decommitment → Gens → Run SpartanError Proof
  verify : Proof → Commitment → CRR1CSInstance F C → Gens → Run ProofVerifyError Unit

section Compression

variable {n b : ℕ} {G1 G2 PP1 PP2 : Type} [Fact n.Prime] [Fact b.Prime] [AddCommGroup G1]
  [Module (ZMod n) G1] [AddCommGroup G2] [Module (ZMod b) G2]

/-- A pair that satisfies a shape, with its commitments. -/
structure CommittedSat (S : CommitmentScheme (ZMod n) G1 PP1) (pp : PP1)
    (shape : Spartan.R1CSInstance (ZMod n)) (inst : CRR1CSInstance (ZMod n) G1)
    (witness : CRR1CSWitness (ZMod n)) : Prop where
  sat : relaxedR1csIsSat shape inst witness = .ok true
  comm_W : inst.comm_W = S.commit pp witness.W
  comm_E : inst.comm_E = S.commit pp witness.E

/-- `SNARKKey`. -/
structure SNARKKey (snark : Snark (ZMod n) G1) where
  shape : Spartan.R1CSInstance (ZMod n)
  computation_comm : snark.Commitment
  computation_decomm : snark.Decommitment
  snark_gens : snark.Gens

/-- **Completeness of Spartan** for a key: each satisfied pair has a proof that is accepted. -/
def SNARKKey.Complete {snark : Snark (ZMod n) G1} (key : SNARKKey snark)
    (S : CommitmentScheme (ZMod n) G1 PP1) (pp : PP1) : Prop :=
  ∀ inst witness, CommittedSat S pp key.shape inst witness →
    ∃ proof, snark.prove key.shape inst witness key.computation_comm key.computation_decomm
        key.snark_gens = .ok proof ∧
      snark.verify proof key.computation_comm inst key.snark_gens = .ok ()

/-- `SparseMatrix::len`. -/
def numEntries {F : Type} (M : SparseMatrix F) : ℕ := M.indptr.getLastD 0

/-- `SNARK::setup`. -/
def setup (snark : Snark (ZMod n) G1) (params : PublicParams (ZMod n) PP1 PP2) (srs : snark.Srs) :
    Run SpartanError (SNARKKey snark) := do
  let shape ← (convertShape params.shape).mapError .conversionError
  let num_nz_entries := max (numEntries params.shape.A)
    (max (numEntries params.shape.B) (numEntries params.shape.C))
  let snark_gens ← snark.newGens srs shape.numCons shape.numVars shape.numInputs num_nz_entries
  let encoded ← snark.encode shape snark_gens
  .ok ⟨shape, encoded.1, encoded.2, snark_gens⟩

/-- `CompressedPCDProof`. -/
structure CompressedPCDProof (b : ℕ) (G2 : Type) (snark : Snark (ZMod n) G1) where
  i : UInt64
  j : UInt64
  z_i : List (ZMod n)
  z_j : List (ZMod n)
  U : RelaxedR1CSInstance (ZMod n) G1
  u : R1CSInstance (ZMod n) G1
  U_secondary : RelaxedR1CSInstance (ZMod b) G2
  W_secondary_prime : RelaxedR1CSWitness (ZMod b)
  spartan_proof : snark.Proof
  folding_proof : NIMFSProof b G1 G2

variable (c : Setting n b G1 G2 PP1 PP2) {snark : Snark (ZMod n) G1}

/-- `SNARK::compress`. -/
def compress (params : PublicParams (ZMod n) PP1 PP2) (key : SNARKKey snark)
    (node : PCDNode n b G1 G2) : Run SpartanError (CompressedPCDProof b G2 snark) := do
  let folded ← (c.prove params.pp params.pp_secondary params.digest params.shape node.U node.W
    node.U_secondary node.W_secondary node.u node.w).mapError .foldingError
  let inst ← (convertInstance folded.U).mapError .conversionError
  let witness ← (convertWitness folded.W).mapError .conversionError
  let spartan_proof ← snark.prove key.shape inst witness key.computation_comm
    key.computation_decomm key.snark_gens
  .ok
    { i := node.i
      j := node.j
      z_i := node.z_i
      z_j := node.z_j
      U := node.U
      u := node.u
      U_secondary := node.U_secondary
      W_secondary_prime := folded.W_secondary
      spartan_proof := spartan_proof
      folding_proof := folded.proof }

/-- `SNARK::verify`. -/
def verifyCompressed [DecidableEq G1] [DecidableEq G2] (reader : PointReader c.cycle)
    (key : SNARKKey snark) (params : PublicParams (ZMod n) PP1 PP2)
    (proof : CompressedPCDProof b G2 snark) : Run SpartanError Unit := do
  let hash := hash c (transcript c params.digest proof.i.toNat proof.j.toNat proof.z_i proof.z_j
    (relaxedMap c.cycle.affine1 proof.U) proof.U_secondary)
  -- `u.X[1]` is out of bounds for a shorter vector
  Run.assert (1 < proof.u.X.length)
  Run.failIf (hash ≠ proof.u.X.getD 1 0) (.invalidProof .invalidPublicInput)
  let folded ← (c.verify reader proof.folding_proof params.digest proof.U proof.U_secondary
    proof.u).mapError .foldingError
  (c.secondary.shape.isRelaxedSatisfied c.C2 folded.2 proof.W_secondary_prime
    params.pp_secondary).mapError fun _ => .invalidProof .secondaryCircuitNotSatisfied
  let inst ← (convertInstance folded.1).mapError .conversionError
  (snark.verify proof.spartan_proof key.computation_comm inst key.snark_gens).mapError
    fun e => .invalidProof (.invalidSpartanProof e)

variable {c}

variable {params : PublicParams (ZMod n) PP1 PP2}

omit [AddCommGroup G1] [Module (ZMod n) G1] in
theorem setup_shape {srs : snark.Srs} {key : SNARKKey snark} (htight : TightShape params.shape)
    (h : setup snark params srs = .ok key) : key.shape = convertedShape params.shape := by
  obtain ⟨shape, hshape, h⟩ := bind_eq_ok.mp h
  obtain ⟨gens, -, h⟩ := bind_eq_ok.mp h
  obtain ⟨encoded, -, h⟩ := bind_eq_ok.mp h
  cases h
  exact ((convertShape_eq_ok_iff htight).mp (mapError_eq_ok.mp hshape)).2.symm

/-- **A satisfied pair is proved** with a key for its shape, and its proof accepted. -/
theorem exists_spartan_proof {srs : snark.Srs} {key : SNARKKey snark}
    (htight : TightShape params.shape) (hsetup : setup snark params srs = .ok key)
    (hcomplete : key.Complete c.C1 params.pp) {U : RelaxedR1CSInstance (ZMod n) G1}
    {W : RelaxedR1CSWitness (ZMod n)} (h : RelaxedSatisfied c.C1 params.shape U W params.pp) :
    ∃ proof, snark.prove key.shape (convertedInstance U) ⟨W.W, W.E⟩ key.computation_comm
        key.computation_decomm key.snark_gens = .ok proof ∧
      snark.verify proof key.computation_comm (convertedInstance U) key.snark_gens = .ok () := by
  apply hcomplete
  rw [setup_shape htight hsetup]
  obtain ⟨sat, hsat, hiff⟩ := converted_satisfied_iff c.C1 params.pp htight h.lengthX h.lengthW
    h.lengthE
  obtain ⟨rfl, hW, hE⟩ := hiff.mpr h
  exact ⟨hsat, hW, hE⟩

section Verifier

variable [DecidableEq G1] [DecidableEq G2]

variable {params : PublicParams (ZMod n) PP1 PP2} {key : SNARKKey snark}

/-- What makes a compressed proof accepted. -/
theorem verifyCompressed_eq_ok {reader : PointReader c.cycle}
    {proof : CompressedPCDProof b G2 snark} {U_prime : RelaxedR1CSInstance (ZMod n) G1}
    {U_secondary_prime : RelaxedR1CSInstance (ZMod b) G2}
    (hhash : hash c (transcript c params.digest proof.i.toNat proof.j.toNat proof.z_i proof.z_j (relaxedMap c.cycle.affine1 proof.U) proof.U_secondary) = proof.u.X.getD 1 0)
    (hlen : 1 < proof.u.X.length)
    (hfold : c.verify reader proof.folding_proof params.digest proof.U proof.U_secondary proof.u = .ok (U_prime, U_secondary_prime))
    (hsecondary : RelaxedSatisfied c.C2 c.secondary.shape U_secondary_prime proof.W_secondary_prime params.pp_secondary)
    (hX : 0 < U_prime.X.length)
    (hspartan : snark.verify proof.spartan_proof key.computation_comm (convertedInstance U_prime) key.snark_gens = .ok ()) :
    verifyCompressed c reader key params proof = .ok () := by
  refine bind_eq_ok.mpr ⟨(), assert_eq_ok.mpr hlen, bind_eq_ok.mpr ⟨(), failIf_eq_ok.mpr
    (not_not_intro hhash), bind_eq_ok.mpr ⟨_, mapError_eq_ok.mpr hfold, bind_eq_ok.mpr ⟨(),
    mapError_eq_ok.mpr (isRelaxedSatisfied_iff.mpr hsecondary), bind_eq_ok.mpr ⟨_,
    mapError_eq_ok.mpr (convertInstance_eq hX), mapError_eq_ok.mpr hspartan⟩⟩⟩⟩⟩

variable {srs : snark.Srs}

/-- **Compression of nodes.**  With a key of a complete Spartan, each accepted node whose instance
starts with one is compressed, and the compressed proof is accepted with the same range and states.
The fold inside is recomputed by its verifier. -/
theorem compression_complete (reader : PointReader c.cycle) (hb : 2 ^ 127 ≤ b)
    (htight : TightShape params.shape) (hsetup : setup snark params srs = .ok key)
    (hcomplete : key.Complete c.C1 params.pp) {node : PCDNode n b G1 G2}
    (hnode : node.verify c params = .ok ()) (hone : node.u.X.head? = some 1) :
    (∃ proof, compress c params key node = .ok proof ∧
      verifyCompressed c reader key params proof = .ok () ∧
      proof.i = node.i ∧ proof.j = node.j ∧ proof.z_i = node.z_i ∧ proof.z_j = node.z_j) ∧
    ∃ folded, c.prove params.pp params.pp_secondary params.digest params.shape node.U node.W
        node.U_secondary node.W_secondary node.u node.w = .ok folded ∧
      c.verify reader folded.proof params.digest node.U node.U_secondary node.u =
        .ok (folded.U, folded.U_secondary) := by
  have hverified := (verify_eq_ok c).mp hnode
  obtain ⟨folded, hprove, hprimary, hsecondary⟩ := Setting.exists_prove params.digest hb
    (foldable_satisfied c.C1 params.shape params.pp)
    (foldable_satisfied c.C2 c.secondary.shape params.pp_secondary)
    Setting.synthesize_trace hverified.primary hverified.secondary
    ⟨hverified.strict, hone⟩
  have hfold := Setting.verify_prove reader hprove
  obtain ⟨spartan_proof, hspartan, haccepted⟩ :=
    exists_spartan_proof htight hsetup hcomplete hprimary
  have hX : 0 < folded.U.X.length := by
    rw [hprimary.lengthX]
    exact params.shape.numIo_pos
  refine ⟨⟨_, bind_eq_ok.mpr ⟨folded, mapError_eq_ok.mpr hprove, bind_eq_ok.mpr ⟨_,
    mapError_eq_ok.mpr (convertInstance_eq hX), bind_eq_ok.mpr ⟨_, rfl, bind_eq_ok.mpr
    ⟨spartan_proof, hspartan, rfl⟩⟩⟩⟩, ?_, rfl, rfl, rfl, rfl⟩, folded, hprove, hfold⟩
  exact verifyCompressed_eq_ok hverified.hash hverified.length hfold hsecondary hX haccepted

/-! ## Zeros and one row -/

omit [AddCommGroup G1] [Module (ZMod n) G1] [Fact b.Prime] in
/-- Witnesses of zeros are folded into zeros. -/
theorem fold_zeroWitness (shape : R1CSShape (ZMod n)) (r : ZMod n) :
    (zeroWitness shape).fold ⟨List.replicate shape.numVars 0⟩
      (List.replicate shape.numConstraints 0) r = .ok (zeroWitness shape) := by
  have hzeros : ∀ k, List.zipWith (fun x y : ZMod n => x + r * y) (List.replicate k 0)
      (List.replicate k 0) = List.replicate k 0 := by
    intro k
    rw [List.zipWith_replicate', mul_zero, add_zero]
  refine bind_eq_ok.mpr ⟨(), failIf_eq_ok.mpr (not_not_intro rfl), ?_⟩
  simp only [zeroWitness, hzeros]

omit [Fact b.Prime] [DecidableEq G1] in
/-- Instances of zeros are folded into zeros with another hash. -/
theorem fold_newInstance {shape : R1CSShape (ZMod n)} (h : IsAugmented shape) (x r : ZMod n) :
    (newInstance shape : RelaxedR1CSInstance (ZMod n) G1).fold ⟨0, [0, x]⟩ 0 r =
      ⟨0, 0, [0, r * x]⟩ := by
  simp only [newInstance, h.numIo, RelaxedR1CSInstance.fold, augmentedCircuitNumIo, smul_zero,
    add_zero, List.replicate_succ, List.replicate_zero, List.zipWith_cons_cons,
    List.zipWith_nil_right, mul_zero, zero_add]

/-- A compressed proof of zeros is accepted, for every range and all states. -/
theorem exists_degenerate_compressed (reader : PointReader c.cycle) (hb : 2 ^ 127 ≤ b)
    (haugmented : IsAugmented params.shape) (htight : TightShape params.shape)
    (hsetup : setup snark params srs = .ok key) (hcomplete : key.Complete c.C1 params.pp)
    (i j : UInt64) (z_i z_j : List (ZMod n)) :
    ∃ proof : CompressedPCDProof b G2 snark, verifyCompressed c reader key params proof = .ok () ∧
      proof.i = i ∧ proof.j = j ∧ proof.z_i = z_i ∧ proof.z_j = z_j ∧
      proof.u.X.getD 0 0 = 0 := by
  have hverified := (verify_eq_ok c).mp (verify_degenerateNode c haugmented i j z_i z_j)
  generalize hnode : degenerateNode c params i j z_i z_j = node at hverified
  have hbits : (c.squeezeAfter c.ro.new
      (c.absorbed params.digest node.U node.U_secondary node.u 0)).1 < b :=
    (c.squeezeAfter_lt _ _).trans_le hb
  obtain ⟨folded, hat, hfolded_U, -, hsecondary, -⟩ := Setting.exists_proveAt
    (foldable_satisfied c.C2 c.secondary.shape params.pp_secondary)
    Setting.synthesize_trace hbits 0 node.U node.u
    (fold_zeroWitness params.shape _) hverified.secondary
  have hfold := Setting.verify_proveAt reader hat
  have hprimary : RelaxedSatisfied c.C1 params.shape folded.U (zeroWitness params.shape)
      params.pp := by
    rw [hfolded_U, ← hnode, degenerateNode, fold_newInstance haugmented]
    exact relaxedSatisfied_degenerate haugmented c.C1 params.pp _
  obtain ⟨spartan_proof, -, haccepted⟩ :=
    exists_spartan_proof htight hsetup hcomplete hprimary
  have hX : 0 < folded.U.X.length := by
    rw [hprimary.lengthX]
    exact params.shape.numIo_pos
  refine ⟨⟨node.i, node.j, node.z_i, node.z_j, node.U, node.u, node.U_secondary,
    folded.W_secondary, spartan_proof, folded.proof⟩, verifyCompressed_eq_ok hverified.hash
    hverified.length hfold hsecondary hX haccepted, ?_⟩
  subst hnode
  exact ⟨rfl, rfl, rfl, rfl, rfl⟩

/-- **Binding of the compressed fold.**  What is absorbed before the first challenge differs for two
different inputs exactly if they have the same first entry of `u.X` or differ elsewhere; and with a
key of a complete Spartan that entry is not one in every accepted proof. -/
theorem compressed_binding_iff (reader : PointReader c.cycle) (hn : 256 ≤ n) (hb : 2 ^ 127 ≤ b)
    (haugmented : IsAugmented params.shape) (htight : TightShape params.shape)
    (hsetup : setup snark params srs = .ok key) (hcomplete : key.Complete c.C1 params.pp) :
    (∀ x y : VerifyInput n b G1 G2, x.SameShapes y →
      ((x ≠ y → x.elements c ≠ y.elements c) ↔
        (x.u.X.head? = y.u.X.head? ∨ ¬ x.AgreeBelow y))) ∧
    ¬ ∀ proof : CompressedPCDProof b G2 snark, verifyCompressed c reader key params proof = .ok () →
      proof.u.X.getD 0 0 = 1 := by
  constructor
  · intro x y hshapes
    rw [Ne, Ne, elements_eq_iff c hn hshapes]
    constructor
    · intro h
      by_cases hagree : x.AgreeBelow y
      · left
        by_contra hhead
        exact h (fun heq => hhead (by rw [heq])) hagree
      · right
        exact hagree
    · rintro (hhead | hbelow) hne
      · exact fun hagree => hne (hagree.eq hhead)
      · exact hbelow
  · intro hall
    obtain ⟨proof, hproof, -, -, -, -, hzero⟩ :=
      exists_degenerate_compressed reader hb haugmented htight hsetup hcomplete 0 0 [] []
    rw [hall proof hproof] at hzero
    exact one_ne_zero hzero

end Verifier

end Compression

section OneRow

open Bn254

/-- Two inputs that differ in the first entry of `u.X` only are absorbed alike. -/
theorem leading_entry_not_absorbed :
    let x : VerifyInput fr fq Unit Unit := ⟨7, ⟨(), (), [0, 0]⟩, ⟨(), [1, 5]⟩, ⟨(), (), [0]⟩, ()⟩
    let y : VerifyInput fr fq Unit Unit := ⟨7, ⟨(), (), [0, 0]⟩, ⟨(), [0, 5]⟩, ⟨(), (), [0]⟩, ()⟩
    x.SameShapes y ∧ x ≠ y ∧
      x.elements (pointSetting (listOracle fr)) = y.elements (pointSetting (listOracle fr)) := by
  intro x y
  have hne : x.u.X.getD 0 0 ≠ y.u.X.getD 0 0 := one_ne_zero
  refine ⟨⟨rfl, rfl, rfl⟩, ?_, rfl⟩
  intro heq
  rw [heq] at hne
  exact hne rfl

/-- The only point is read from its coordinates. -/
def pointReader (ro : Cyclefold.RandomOracle fr) : PointReader (pointSetting ro).cycle where
  affine1_zero := rfl
  eq_zero_of_origin _ _ _ := rfl
  fromAffine p := if p = ⟨0, 0, true⟩ then some () else none
  fromAffine_eq_some p P := by
    split_ifs with h
    · exact iff_of_true rfl h.symm
    · exact iff_of_false nofun fun h' => h h'.symm

section Transparent

variable (F C : Type) [Field F] [DecidableEq F]

/-- A Spartan whose proofs are the witnesses. -/
def transparentSnark : Snark F C where
  Srs := Unit
  Gens := Unit
  Commitment := Spartan.R1CSInstance F
  Decommitment := Unit
  Proof := CRR1CSWitness F
  newGens _ _ _ _ _ := .ok ()
  encode shape _ := .ok (shape, ())
  prove _ _ witness _ _ _ := .ok witness
  verify proof shape inst _ :=
    match relaxedR1csIsSat shape inst proof with
    | .ok true => .ok ()
    | _ => .error (.error .internalError)

end Transparent

/-- The key of a shape. -/
def transparentKey (shape : R1CSShape (ZMod fr)) : SNARKKey (transparentSnark (ZMod fr) Unit) :=
  ⟨convertedShape shape, convertedShape shape, (), ()⟩

theorem transparentKey_complete (shape : R1CSShape (ZMod fr)) :
    (transparentKey shape).Complete (pointCommitment (ZMod fr)) () := by
  intro inst witness h
  have hsat : relaxedR1csIsSat (convertedShape shape) inst witness = .ok true := h.sat
  refine ⟨witness, rfl, ?_⟩
  simp only [transparentSnark, transparentKey, hsat]

/-- The parameters with the row of the hash. -/
def rowParams : PublicParams (ZMod fr) Unit Unit := ⟨hashRow _, (), (), 7⟩

theorem hashRow_tight : TightShape rowParams.shape := ⟨⟨rfl, rfl⟩, ⟨rfl, rfl⟩, ⟨rfl, rfl⟩⟩

theorem setup_rowParams :
    setup (transparentSnark (ZMod fr) Unit) rowParams () =
      .ok (transparentKey rowParams.shape) := by
  have hshape : convertShape rowParams.shape = .ok (convertedShape rowParams.shape) :=
    (convertShape_eq_ok_iff hashRow_tight).mpr
      ⟨⟨List.cons_ne_nil _ _, List.cons_ne_nil _ _, List.cons_ne_nil _ _⟩, rfl⟩
  exact bind_eq_ok.mpr ⟨_, mapError_eq_ok.mpr hshape, rfl⟩

/-- A node with the hash on its only wire. -/
def rowNode : PCDNode fr fq Unit Unit :=
  let node := degenerateNode (pointSetting (listOracle fr)) rowParams 5 3 [1] [2]
  { node with
    u := ⟨(), [1, node.u.X.getD 1 0]⟩
    w := ⟨[node.u.X.getD 1 0]⟩ }

theorem hashRow_holds (x : ZMod fr) :
    rowParams.shape.A.entry [1, x, x] 0 * rowParams.shape.B.entry [1, x, x] 0 =
      rowParams.shape.C.entry [1, x, x] 0 := by
  simp [rowParams, hashRow, SparseMatrix.entry, SparseMatrix.multiplyVecUnchecked,
    SparseMatrix.rowProduct, SparseMatrix.getRowUnchecked]

theorem verify_rowNode : rowNode.verify (pointSetting (listOracle fr)) rowParams = .ok () := by
  have hdegenerate : Verified (pointSetting (listOracle fr)) rowParams
      (degenerateNode (pointSetting (listOracle fr)) rowParams 5 3 [1] [2]) :=
    (verify_eq_ok _).mp (verify_degenerateNode _ (hashRow_isAugmented _) 5 3 [1] [2])
  apply (verify_eq_ok _).mpr
  constructor
  · exact hdegenerate.hash
  · exact Nat.one_lt_two
  · exact hdegenerate.primary
  · exact hdegenerate.secondary
  · constructor
    · rfl
    · rfl
    · intro i hi
      obtain rfl : i = 0 := Nat.lt_one_iff.mp hi
      exact hashRow_holds _
    · rfl

/-- The compression of a node. -/
theorem compression_complete_row :
    ∃ proof, compress (pointSetting (listOracle fr)) rowParams (transparentKey rowParams.shape)
        rowNode = .ok proof ∧
      verifyCompressed (pointSetting (listOracle fr)) (pointReader (listOracle fr))
        (transparentKey rowParams.shape) rowParams proof = .ok () ∧
      proof.i = 5 ∧ proof.j = 3 ∧ proof.z_i = [1] ∧ proof.z_j = [2] :=
  (compression_complete (pointReader (listOracle fr)) (by norm_num [fq]) hashRow_tight
    setup_rowParams (transparentKey_complete _) verify_rowNode rfl).1

/-- An accepted compressed proof whose instance does not start with one. -/
theorem compressed_binding_row :
    ¬ ∀ proof : CompressedPCDProof fq Unit (transparentSnark (ZMod fr) Unit),
      verifyCompressed (pointSetting (listOracle fr)) (pointReader (listOracle fr))
        (transparentKey rowParams.shape) rowParams proof = .ok () → proof.u.X.getD 0 0 = 1 :=
  (compressed_binding_iff (pointReader (listOracle fr)) (by norm_num [fr]) (by norm_num [fq])
    (hashRow_isAugmented _) hashRow_tight setup_rowParams (transparentKey_complete _)).2

end OneRow

end NexusVm.Nova.Circuits.Pcd
