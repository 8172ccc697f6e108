import NexusVm.Spartan.Sumcheck

/-!
# Product trees

The verifier of `spartan/src/product_tree.rs`: products over the leaves of several trees are reduced
layer by layer to their values at one point, with a sumcheck for each layer; the last layer also
takes the dot products.  Every check is an assertion, so the verifier is a guarded run.
-/

namespace NexusVm.Spartan

open Nova

section Path

variable {F C : Type} [Field F] (T : Transcript F C)

/-- The polynomial that `decompress` returns. -/
def CompressedUniPoly.fill (poly : CompressedUniPoly F) (hint : F) : UniPoly F :=
  match poly.coeffsExceptLinearTerm with
  | [] => ⟨[]⟩
  | c :: cs => ⟨c :: cs.foldl (· - ·) (hint - c - c) :: cs⟩

/-- Where the messages of a sumcheck lead: the last claim, the randomness and the transcript. -/
def sumcheckPath : List (CompressedUniPoly F) → F → T.State → F × List F × T.State
  | [], e, st => (e, [], st)
  | compressed :: proof, e, st =>
      let poly := compressed.fill e
      let next := T.challengeScalar (poly.appendToTranscript T "poly" st) "challenge_nextround"
      let rest := sumcheckPath proof (poly.evaluate next.1) next.2
      (rest.1, next.1 :: rest.2.1, rest.2.2)

/-- A message for each round, with one coefficient for each degree but the first. -/
structure SumcheckShape (numRounds degree : ℕ) (proof : List (CompressedUniPoly F)) : Prop where
  rounds : proof.length = numRounds
  degrees : ∀ poly ∈ proof, poly.coeffsExceptLinearTerm.length = degree

theorem length_sumcheckPath (proof : List (CompressedUniPoly F)) (e : F) (st : T.State) :
    (sumcheckPath T proof e st).2.1.length = proof.length := by
  induction proof generalizing e st with
  | nil => rfl
  | cons compressed proof ih => exact congrArg (· + 1) (ih _ _)

theorem decompress_guarded {E : Type} (poly : CompressedUniPoly F) (hint : F) :
    Run.Guarded (poly.decompress hint : Run E _) (poly.coeffsExceptLinearTerm ≠ [])
      (poly.fill hint) := by
  obtain ⟨coeffs⟩ := poly
  cases coeffs with
  | nil => exact ⟨fun h => absurd rfl h, fun _ => rfl⟩
  | cons c cs => exact ⟨fun _ => rfl, fun h => absurd (List.cons_ne_nil c cs) h⟩

/-- The linear term is chosen such that the polynomial meets the claim. -/
theorem fill_meets {poly : CompressedUniPoly F} (h : poly.coeffsExceptLinearTerm ≠ []) (hint : F) :
    (poly.fill hint).evalAtZero + (poly.fill hint).evalAtOne = hint := by
  obtain ⟨coeffs⟩ := poly
  cases coeffs with
  | nil => exact absurd rfl h
  | cons c cs =>
      simp only [CompressedUniPoly.fill, UniPoly.evalAtZero, UniPoly.evalAtOne, foldl_sub,
        List.getD_cons_zero, List.sum_cons]
      ring

theorem degree_fill (poly : CompressedUniPoly F) (hint : F) :
    (poly.fill hint).degree = poly.coeffsExceptLinearTerm.length := by
  obtain ⟨coeffs⟩ := poly
  cases coeffs <;> rfl

variable [DecidableEq F]

theorem verifyRounds_guarded {E : Type} {degree : ℕ} (hpos : 0 < degree)
    (proof : List (CompressedUniPoly F)) (e : F) (st : T.State) :
    Run.Guarded (verifyRounds T degree proof e st : Run E _)
      (∀ poly ∈ proof, poly.coeffsExceptLinearTerm.length = degree)
      (sumcheckPath T proof e st) := by
  induction proof generalizing e st with
  | nil => exact (Run.Guarded.ok _).congr (by simp) fun _ => rfl
  | cons compressed proof ih =>
      let next := T.challengeScalar ((compressed.fill e).appendToTranscript T "poly" st)
        "challenge_nextround"
      have hrest : Run.Guarded
          (verifyRounds T degree proof ((compressed.fill e).evaluate next.1) next.2 >>= fun r =>
            .ok (r.1, next.1 :: r.2.1, r.2.2) : Run E _)
          ((∀ poly ∈ proof, poly.coeffsExceptLinearTerm.length = degree) ∧ True)
          (sumcheckPath T (compressed :: proof) e st) :=
        (ih _ _).bind fun _ => Run.Guarded.ok _
      refine ((decompress_guarded compressed e).bind fun _ => (Run.Guarded.assert _).bind fun _ =>
        (Run.Guarded.assert _).bind fun _ => hrest).congr ?_ fun _ => rfl
      rw [List.forall_mem_cons, degree_fill]
      constructor
      · rintro ⟨-, hdegree, -, htail, -⟩
        exact ⟨hdegree, htail⟩
      · rintro ⟨hdegree, htail⟩
        have hne : compressed.coeffsExceptLinearTerm ≠ [] := by
          apply List.ne_nil_of_length_pos
          rw [hdegree]
          exact hpos
        exact ⟨hne, hdegree, fill_meets hne e, htail, trivial⟩

/-- **The verifier of a sumcheck** asserts the shape of the messages and follows them; that each
message meets the claim of its round holds by its decompression. -/
theorem verifySumcheck_guarded {E : Type} {degree : ℕ} (hpos : 0 < degree)
    (proof : List (CompressedUniPoly F)) (e : F) (numRounds : ℕ) (st : T.State) :
    Run.Guarded (verifySumcheck T proof e numRounds degree st : Run E _)
      (SumcheckShape numRounds degree proof) (sumcheckPath T proof e st) :=
  ((Run.Guarded.assert _).bind fun _ => verifyRounds_guarded T hpos proof e st).congr
    ⟨fun h => ⟨h.1, h.2⟩, fun h => ⟨h.1, h.2⟩⟩ fun _ => rfl

end Path

/-- `LayerProofBatched`. -/
structure LayerProofBatched (F : Type) where
  proof : List (CompressedUniPoly F)
  claimsProdLeft : List F
  claimsProdRight : List F

/-- `ProductCircuitEvalProofBatched`. -/
structure ProductCircuitEvalProofBatched (F : Type) where
  proof : List (LayerProofBatched F)
  claimsDotp : List F × List F × List F

/-- What the verifier has between two layers: the claims to verify, those of the dot products, the
point and the transcript. -/
structure LayerState {F C : Type} (T : Transcript F C) where
  claims : List F
  claimsDotp : List F
  rand : List F
  st : T.State

section Layers

variable {F C : Type} [Field F] {T : Transcript F C}

/-- The value of the equality polynomial at two points. -/
def eqValue (r x : List F) : F :=
  (List.zipWith (fun r x => r * x + (1 - r) * (1 - x)) r x).prod

/-- Scalars that are absorbed in pairs. -/
def absorbPairs (leftLabel rightLabel : String) (left right : List F) (st : T.State) : T.State :=
  (left.zip right).foldl
    (fun st p => T.appendScalar (T.appendScalar st leftLabel p.1) rightLabel p.2) st

/-- The claims of the dot products. -/
def absorbDotp (dotp : List F × List F × List F) (st : T.State) : T.State :=
  (dotp.1.zip (dotp.2.1.zip dotp.2.2)).foldl
    (fun st p => T.appendScalar (T.appendScalar (T.appendScalar st "claim_dotp_left" p.1)
      "claim_dotp_right" p.2.1) "claim_dotp_weight" p.2.2) st

/-- `claim_expected`: the products first, then the dot products. -/
def claimExpected (coeffs left right : List F) (eq : F) (dotp : List F × List F × List F) : F :=
  ((List.range left.length).map fun i =>
    coeffs.getD i 0 * (left.getD i 0 * right.getD i 0 * eq)).sum +
  ((List.range dotp.1.length).map fun i => coeffs.getD (i + left.length) 0 * dotp.1.getD i 0 *
    dotp.2.1.getD i 0 * dotp.2.2.getD i 0).sum

/-- Two neighbours at the challenge of a layer. -/
def bindPair (r : F) (v : List F) (i : ℕ) : F :=
  v.getD (2 * i) 0 + r * (v.getD (2 * i + 1) 0 - v.getD (2 * i) 0)

/-- The claims of the dot products after the last layer. -/
def combineDotp (r : F) (dotp : List F × List F × List F) (n : ℕ) : List F :=
  (List.range n).flatMap fun i =>
    [bindPair r dotp.1 i, bindPair r dotp.2.1 i, bindPair r dotp.2.2 i]

/-- The random coefficients of a layer and the transcript after them. -/
def layerCoeffs (dotpVec : List F) (s : LayerState T) : List F × T.State :=
  T.challengeVector s.st "rand_coeffs_next_layer" (s.claims ++ dotpVec).length

/-- The joint claim of a layer. -/
def jointClaim (claims coeffs : List F) : F := (List.zipWith (· * ·) claims coeffs).sum

/-- What a layer leaves, after the sumcheck with this randomness and transcript. -/
def boundLayer (layer : LayerProofBatched F) (dotpVec : List F) (dotp : List F × List F × List F)
    (randProd : List F) (st : T.State) (s : LayerState T) : LayerState T :=
  let st := absorbPairs "claim_prod_left" "claim_prod_right" layer.claimsProdLeft
    layer.claimsProdRight st
  let r := T.challengeScalar (absorbDotp dotp st) "challenge_r_layer"
  { claims := List.zipWith (fun left right => left + r.1 * (right - left)) layer.claimsProdLeft
      layer.claimsProdRight
    claimsDotp := s.claimsDotp ++ combineDotp r.1 dotp (dotpVec.length / 2)
    rand := r.1 :: randProd
    st := r.2 }

variable [DecidableEq F]

/-- A layer of `ProductCircuitEvalProofBatched::verify`; the dot products are empty before the last
one. -/
def verifyLayer {E : Type} (numProd : ℕ) (dotpVec : List F) (dotp : List F × List F × List F)
    (layer : LayerProofBatched F) (numRounds : ℕ) (s : LayerState T) : Run E (LayerState T) := do
  let coeffs := layerCoeffs dotpVec s
  let last ← verifySumcheck T layer.proof (jointClaim (s.claims ++ dotpVec) coeffs.1) numRounds 3
    coeffs.2
  Run.assert (layer.claimsProdLeft.length = numProd)
  Run.assert (layer.claimsProdRight.length = numProd)
  Run.assert (s.rand.length = last.2.1.length)
  -- the indices of the coefficients and of the claims of the dot products
  Run.assert (numProd ≤ coeffs.1.length)
  Run.assert (dotp.1.length ≤ dotp.2.1.length ∧ dotp.1.length ≤ dotp.2.2.length ∧
    dotp.1.length + numProd ≤ coeffs.1.length)
  Run.assert (claimExpected coeffs.1 layer.claimsProdLeft layer.claimsProdRight
    (eqValue s.rand last.2.1) dotp = last.1)
  -- the indices `2 * i + 1`
  Run.assert (2 * (dotpVec.length / 2) ≤ dotp.1.length ∧
    2 * (dotpVec.length / 2) ≤ dotp.2.1.length ∧ 2 * (dotpVec.length / 2) ≤ dotp.2.2.length)
  .ok (boundLayer layer dotpVec dotp last.2.1 last.2.2 s)

/-- The loop over the layers; the number of rounds is the index of the layer. -/
def verifyLayers {E : Type} (numProd : ℕ) (dotpVec : List F) (dotp : List F × List F × List F) :
    List (LayerProofBatched F) → ℕ → LayerState T → Run E (LayerState T)
  | [], _, s => .ok s
  | layer :: layers, numRounds, s => do
      let s ← verifyLayer numProd (if layers.isEmpty then dotpVec else [])
        (if layers.isEmpty then dotp else ([], [], [])) layer numRounds s
      verifyLayers numProd dotpVec dotp layers (numRounds + 1) s

/-- `ProductCircuitEvalProofBatched::verify`: the claims, those of the dot products, the point and
the transcript. -/
def ProductCircuitEvalProofBatched.verify {E : Type} (proof : ProductCircuitEvalProofBatched F)
    (claimsProdVec claimsDotpVec : List F) (len : ℕ) (st : T.State) : Run E (LayerState T) := do
  let numLayers ← log2 len
  Run.assert (proof.proof.length = numLayers)
  verifyLayers claimsProdVec.length claimsDotpVec proof.claimsDotp proof.proof 0
    ⟨claimsProdVec, [], [], st⟩

/-! ## What a proof has to meet -/

/-- The sumcheck of a layer. -/
def layerPath (layer : LayerProofBatched F) (dotpVec : List F) (s : LayerState T) :
    F × List F × T.State :=
  sumcheckPath T layer.proof (jointClaim (s.claims ++ dotpVec) (layerCoeffs dotpVec s).1)
    (layerCoeffs dotpVec s).2

/-- The state after a layer. -/
def nextLayer (layer : LayerProofBatched F) (dotpVec : List F) (dotp : List F × List F × List F)
    (s : LayerState T) : LayerState T :=
  boundLayer layer dotpVec dotp (layerPath layer dotpVec s).2.1 (layerPath layer dotpVec s).2.2 s

/-- A layer has messages and claims of the right lengths, and its last claim is the expected one. -/
structure LayerHolds (numProd : ℕ) (dotpVec : List F) (dotp : List F × List F × List F)
    (layer : LayerProofBatched F) (numRounds : ℕ) (s : LayerState T) : Prop where
  shape : SumcheckShape numRounds 3 layer.proof
  left : layer.claimsProdLeft.length = numProd
  right : layer.claimsProdRight.length = numProd
  dotpLeft : 2 * (dotpVec.length / 2) ≤ dotp.1.length ∧ dotp.1.length ≤ dotpVec.length
  dotpRight : dotp.1.length ≤ dotp.2.1.length
  dotpWeight : dotp.1.length ≤ dotp.2.2.length
  expected : claimExpected (layerCoeffs dotpVec s).1 layer.claimsProdLeft layer.claimsProdRight
    (eqValue s.rand (layerPath layer dotpVec s).2.1) dotp = (layerPath layer dotpVec s).1

/-- All layers hold, one after the other. -/
def LayersHold (numProd : ℕ) (dotpVec : List F) (dotp : List F × List F × List F) :
    List (LayerProofBatched F) → ℕ → LayerState T → Prop
  | [], _, _ => True
  | layer :: layers, numRounds, s =>
      let vec := if layers.isEmpty then dotpVec else []
      let claims := if layers.isEmpty then dotp else ([], [], [])
      LayerHolds numProd vec claims layer numRounds s ∧
        LayersHold numProd dotpVec dotp layers (numRounds + 1) (nextLayer layer vec claims s)

/-- The state after all layers. -/
def lastLayer (dotpVec : List F) (dotp : List F × List F × List F) :
    List (LayerProofBatched F) → LayerState T → LayerState T
  | [], s => s
  | layer :: layers, s =>
      lastLayer dotpVec dotp layers (nextLayer layer (if layers.isEmpty then dotpVec else [])
        (if layers.isEmpty then dotp else ([], [], [])) s)

/-- The lengths between two layers. -/
structure LayerState.Fits (numProd numRounds : ℕ) (s : LayerState T) : Prop where
  claims : s.claims.length = numProd
  rand : s.rand.length = numRounds

omit [Field F] [DecidableEq F] in
theorem length_layerCoeffs (dotpVec : List F) (s : LayerState T) :
    (layerCoeffs dotpVec s).1.length = s.claims.length + dotpVec.length := by
  rw [layerCoeffs, T.length_challengeVector, List.length_append]

variable {s : LayerState T}

variable {E : Type} {numProd numRounds : ℕ}

theorem verifyLayer_guarded (hs : s.Fits numProd numRounds) (dotpVec : List F)
    (dotp : List F × List F × List F) (layer : LayerProofBatched F) :
    Run.Guarded (verifyLayer numProd dotpVec dotp layer numRounds s : Run E _)
      (LayerHolds numProd dotpVec dotp layer numRounds s) (nextLayer layer dotpVec dotp s) := by
  refine Run.Guarded.congr ((verifySumcheck_guarded T (by decide) _ _ _ _).bind fun _ =>
    (Run.Guarded.assert _).bind fun _ => (Run.Guarded.assert _).bind fun _ =>
    (Run.Guarded.assert _).bind fun _ => (Run.Guarded.assert _).bind fun _ =>
    (Run.Guarded.assert _).bind fun _ => (Run.Guarded.assert _).bind fun _ =>
    (Run.Guarded.assert _).bind fun _ => Run.Guarded.ok _) ?_ fun _ => rfl
  rw [length_sumcheckPath, length_layerCoeffs, hs.claims, hs.rand]
  constructor
  · rintro ⟨hshape, hleft, hright, -, -, ⟨hdotpRight, hdotpWeight, hdotp⟩, hexpected, hpairs, -⟩
    exact ⟨hshape, hleft, hright, ⟨hpairs.1, by omega⟩, hdotpRight, hdotpWeight, hexpected⟩
  · intro h
    obtain ⟨hpairs, hdotp⟩ := h.dotpLeft
    refine ⟨h.shape, h.left, h.right, h.shape.rounds.symm, Nat.le_add_right _ _,
      ⟨h.dotpRight, h.dotpWeight, by omega⟩, h.expected, ⟨hpairs, ?_, ?_⟩, trivial⟩
    · exact hpairs.trans h.dotpRight
    · exact hpairs.trans h.dotpWeight

variable {dotp : List F × List F × List F}

omit [DecidableEq F] in
theorem LayerHolds.fits {dotpVec : List F} {layer : LayerProofBatched F}
    (h : LayerHolds numProd dotpVec dotp layer numRounds s) :
    (nextLayer layer dotpVec dotp s).Fits numProd (numRounds + 1) where
  claims := by
    show (List.zipWith _ layer.claimsProdLeft layer.claimsProdRight).length = numProd
    rw [List.length_zipWith, h.left, h.right, min_self]
  rand := by
    show (layerPath layer dotpVec s).2.1.length + 1 = numRounds + 1
    rw [layerPath, length_sumcheckPath, h.shape.rounds]

theorem verifyLayers_guarded {numProd : ℕ} (dotpVec : List F) (dotp : List F × List F × List F)
    (layers : List (LayerProofBatched F)) {numRounds : ℕ} (hs : s.Fits numProd numRounds) :
    Run.Guarded (verifyLayers numProd dotpVec dotp layers numRounds s : Run E _)
      (LayersHold numProd dotpVec dotp layers numRounds s) (lastLayer dotpVec dotp layers s) := by
  induction layers generalizing numRounds s with
  | nil => exact Run.Guarded.ok s
  | cons layer layers ih =>
      exact (verifyLayer_guarded hs _ _ layer).bind fun h => ih h.fits

omit [DecidableEq F] in
/-- The lengths after all layers. -/
theorem LayersHold.fits {numProd : ℕ} {dotpVec : List F} {layers : List (LayerProofBatched F)}
    {numRounds : ℕ} (h : LayersHold numProd dotpVec dotp layers numRounds s)
    (hs : s.Fits numProd numRounds) :
    (lastLayer dotpVec dotp layers s).Fits numProd (numRounds + layers.length) := by
  induction layers generalizing numRounds s with
  | nil => exact hs
  | cons layer layers ih =>
      have hrest := ih h.2 h.1.fits
      rwa [add_assoc, add_comm 1] at hrest

/-- What a proof of products has to meet. -/
structure ProductCircuitEvalProofBatched.Holds (proof : ProductCircuitEvalProofBatched F)
    (claimsProdVec claimsDotpVec : List F) (len : ℕ) (st : T.State) : Prop where
  ne_zero : len ≠ 0
  layers : proof.proof.length = Nat.clog 2 len
  hold : LayersHold claimsProdVec.length claimsDotpVec proof.claimsDotp proof.proof 0
    (⟨claimsProdVec, [], [], st⟩ : LayerState T)

/-- Where a proof of products leads. -/
def ProductCircuitEvalProofBatched.path (proof : ProductCircuitEvalProofBatched F)
    (claimsProdVec claimsDotpVec : List F) (st : T.State) : LayerState T :=
  lastLayer claimsDotpVec proof.claimsDotp proof.proof ⟨claimsProdVec, [], [], st⟩

theorem log2_guarded (n : ℕ) :
    Run.Guarded (log2 n : Run E ℕ) (n ≠ 0) (Nat.clog 2 n) :=
  Run.Guarded.congr ((Run.Guarded.assert _).bind fun _ => Run.Guarded.ok _) (and_iff_left trivial)
    fun _ => rfl

/-- **The verifier of products.** -/
theorem ProductCircuitEvalProofBatched.verify_guarded (proof : ProductCircuitEvalProofBatched F)
    (claimsProdVec claimsDotpVec : List F) (len : ℕ) (st : T.State) :
    Run.Guarded (proof.verify claimsProdVec claimsDotpVec len st : Run E _)
      (proof.Holds claimsProdVec claimsDotpVec len st)
      (proof.path claimsProdVec claimsDotpVec st) :=
  Run.Guarded.congr ((log2_guarded len).bind fun _ => (Run.Guarded.assert _).bind fun _ =>
    verifyLayers_guarded _ _ _ ⟨rfl, rfl⟩)
    ⟨fun h => ⟨h.1, h.2.1, h.2.2⟩, fun h => ⟨h.ne_zero, h.layers, h.hold⟩⟩ fun _ => rfl

omit [DecidableEq F] in
theorem ProductCircuitEvalProofBatched.Holds.fits {proof : ProductCircuitEvalProofBatched F}
    {claimsProdVec claimsDotpVec : List F} {len : ℕ} {st : T.State}
    (h : proof.Holds claimsProdVec claimsDotpVec len st) :
    (proof.path claimsProdVec claimsDotpVec st).Fits claimsProdVec.length (Nat.clog 2 len) := by
  have hfits := h.hold.fits ⟨rfl, rfl⟩
  rwa [Nat.zero_add, h.layers] at hfits

end Layers

end NexusVm.Spartan
