import NexusVm.Nova.Complete

/-!
# Non-interactive multi-folding

`nova/src/folding/hypernova/nimfs.rs`: the prover and the verifier of a fold of a
CCS instance into a linearized one.
-/

namespace NexusVm.Nova.Nimfs

open Ccs

inductive Error
  | ccs (e : Ccs.Error)
  | sumcheck (e : Sumcheck.Error)
  | inconsistentSubclaim
deriving DecidableEq

structure NIMFSProof (F : Type) where
  sumcheckProof : List (List F)
  polyInfo : Sumcheck.PolynomialInfo
  sigmas : List F
  thetas : List F
deriving DecidableEq

section Model

variable {F C B : Type} [Field F] [DecidableEq F] [AddCommGroup C] [Module F C]

/-- `Absorb for CCSInstance`, which leaves the first input out. -/
def instanceElements (U : CCSInstance F C) : Run Error (List (Element F C)) := do
  Run.assert (0 < U.X.length)
  .ok (.point U.commitment_W :: U.X.tail.map .scalar)

/-- `Absorb for LCCSInstance`. -/
def linearizedElements (U : LCCSInstance F C) : List (Element F C) :=
  .point U.commitment_W :: (U.X ++ U.rs ++ U.vs).map .scalar

variable (M : MultilinearExtensions F) (O : RandomOracle F C B) (castFieldElement : B → F)

/-- The challenges that prover and verifier start with: the truncated `rho`,
`gamma` and `beta`. -/
def challenges (vk : F) (shape : CCSShape F) (U1 : LCCSInstance F C) (U2 : CCSInstance F C)
    (st : O.State) : Run Error (B × F × List F × O.State) := do
  let st := O.absorb st [.scalar vk]
  let st := O.absorb st (linearizedElements U1)
  let elements ← instanceElements U2
  let st := O.absorb st elements
  let (rho, st) := O.squeezeTruncated st
  let (gamma, st) := O.squeezeOne st
  let (beta, st) := O.squeeze st (safeLoglike shape.numConstraints)
  .ok (rho, gamma, beta, st)

/-- The summand of a matrix: its product with the first instance. -/
def addMatrix (shape : CCSShape F) (z1 : List F) (eqrs : M.Mle) (gamma : F)
    (g : Sumcheck.ListOfProductsOfPolynomials M) (j : ℕ) :
    Run Error (Sumcheck.ListOfProductsOfPolynomials M) := do
  let L ← (matrixMle M shape z1 (j - 1)).mapError Error.ccs
  g.addProduct [L, eqrs] (gamma ^ j)

/-- The summand of a multiset: the product of what it selects of the second instance. -/
def addMultiset (shape : CCSShape F) (z2 : List F) (eqb : M.Mle) (gamma : F)
    (g : Sumcheck.ListOfProductsOfPolynomials M) (cS : F × List ℕ) :
    Run Error (Sumcheck.ListOfProductsOfPolynomials M) := do
  let summandQ ← (cS.2.mapM (matrixMle M shape z2)).mapError Error.ccs
  g.addProduct (summandQ ++ [eqb]) (cS.1 * gamma ^ (shape.numMatrices + 1))

/-- The evaluations of the matrix products at a point. -/
def evaluateMatrices (shape : CCSShape F) (z rs : List F) : Run Error (List F) :=
  shape.Ms.mapM fun A => do
    let m ← (productMle M A z).mapError Error.ccs
    evaluateArk M m rs

/-- `NIMFSProof::prove_as_subprotocol`: the proof, the folded pair, the folding
challenge and the oracle's last state. -/
def proveAsSubprotocol (vk : F) (shape : CCSShape F) (U1 : LCCSInstance F C) (W1 : CCSWitness F)
    (U2 : CCSInstance F C) (W2 : CCSWitness F) (st : O.State) :
    Run Error (NIMFSProof F × (LCCSInstance F C × CCSWitness F) × B × O.State) := do
  let (rho, gamma, beta, st) ← challenges O vk shape U1 U2 st
  let rho_scalar := castFieldElement rho
  let s := safeLoglike shape.numConstraints
  let z1 := U1.X ++ W1.W
  let z2 := U2.X ++ W2.W
  let g := .new s
  let eqrs ← vecToArkMle M (eqEvals U1.rs)
  let g ← (List.range' 1 shape.numMatrices).foldlM (addMatrix M shape z1 eqrs gamma) g
  let eqb ← vecToArkMle M (eqEvals beta)
  let g ← shape.cSs.foldlM (addMultiset M shape z2 eqb gamma) g
  let (sumcheckProof, rs_p, st) ← Sumcheck.proveAsSubprotocol O g st
  let sigmas ← evaluateMatrices M shape z1 rs_p
  let thetas ← evaluateMatrices M shape z2 rs_p
  let U ← (U1.fold U2 rho_scalar rs_p sigmas thetas).mapError Error.ccs
  let W ← (W1.fold W2 rho_scalar).mapError Error.ccs
  .ok (⟨sumcheckProof, g.info, sigmas, thetas⟩, (U, W), rho, st)

/-- `NIMFSProof::verify_as_subprotocol`: the folded instance, the folding
challenge and the oracle's last state. -/
def NIMFSProof.verifyAsSubprotocol (proof : NIMFSProof F) (vk : F) (shape : CCSShape F)
    (U1 : LCCSInstance F C) (U2 : CCSInstance F C) (st : O.State) :
    Run Error (LCCSInstance F C × B × O.State) := do
  let (rho, gamma, beta, st) ← challenges O vk shape U1 U2 st
  let rho_scalar := castFieldElement rho
  let gamma_powers := (List.range' 1 shape.numMatrices).map fun j => gamma ^ j
  let claimed_sum := (List.zipWith (· * ·) gamma_powers U1.vs).sum
  let (sumcheck_subclaim, st) ← (Sumcheck.verifyAsSubprotocol O proof.polyInfo claimed_sum
    proof.sumcheckProof st).mapError Error.sumcheck
  let rs_p := sumcheck_subclaim.point
  let eqrs ← vecToArkMle M (eqEvals U1.rs)
  let e1 ← evaluateArk M eqrs rs_p
  let eqb ← vecToArkMle M (eqEvals beta)
  let e2 ← evaluateArk M eqb rs_p
  let cl := (List.zipWith (· * ·) gamma_powers proof.sigmas).sum * e1
  -- `self.thetas[*j]`
  Run.assert (∀ cS ∈ shape.cSs, ∀ j ∈ cS.2, j < proof.thetas.length)
  let cr := (shape.cSs.map fun cS => cS.2.foldl (fun acc j => acc * proof.thetas.getD j 0) cS.1).sum
    * gamma ^ (shape.numMatrices + 1) * e2
  Run.failIf (sumcheck_subclaim.expectedEvaluation ≠ cl + cr) .inconsistentSubclaim
  let U ← (U1.fold U2 rho_scalar rs_p proof.sigmas proof.thetas).mapError Error.ccs
  .ok (U, rho, st)

variable {CK : Type} [DecidableEq C]

/-- The verifier accepts the prover's proof from the same state, both return the
same folded instance, and the folded pair is satisfied. -/
def Completes (S : PolyCommitmentScheme F C CK) (vk : F) (shape : CCSShape F) (ck : CK)
    (U1 : LCCSInstance F C) (W1 : CCSWitness F) (U2 : CCSInstance F C) (W2 : CCSWitness F)
    (st : O.State) : Prop :=
  ∃ proof U W rho st',
    proveAsSubprotocol M O castFieldElement vk shape U1 W1 U2 W2 st =
      .ok (proof, (U, W), rho, st') ∧
    proof.verifyAsSubprotocol M O castFieldElement vk shape U1 U2 st = .ok (U, rho, st') ∧
    shape.isSatisfiedLinearized S U W ck = .ok ()

end Model

section Polynomial

variable {F : Type} [Field F] {M : MultilinearExtensions F} {shape : CCSShape F}

/-- A loop that adds a product for each element. -/
theorem foldlM_addProduct {α E : Type} {l : List α} {s : ℕ}
    {f : Sumcheck.ListOfProductsOfPolynomials M → α →
      Run E (Sumcheck.ListOfProductsOfPolynomials M)}
    {c : α → F} {k : α → List M.Mle} (hf : ∀ a ∈ l, ∀ g, f g a = g.addProduct (k a) (c a))
    (hms : ∀ a ∈ l, k a ≠ [] ∧ ∀ m ∈ k a, M.numVars m = s)
    {g : Sumcheck.ListOfProductsOfPolynomials M} (hg : g.numVariables = s)
    (hsized : Sumcheck.Sized g.maxMultiplicands s g.products) :
    ∃ degree, g.maxMultiplicands ≤ degree ∧ (l ≠ [] → 0 < degree) ∧
      l.foldlM f g = .ok ⟨degree, s, g.products ++ l.map fun a => (c a, k a)⟩ ∧
      Sumcheck.Sized degree s (g.products ++ l.map fun a => (c a, k a)) := by
  induction l generalizing g with
  | nil =>
      refine ⟨g.maxMultiplicands, le_refl _, fun hne => absurd rfl hne, ?_, ?_⟩
      · rw [List.map_nil, List.append_nil, ← hg]
        rfl
      · rw [List.map_nil, List.append_nil]
        exact hsized
  | cons a l ih =>
      rw [List.forall_mem_cons] at hf hms
      let g₁ : Sumcheck.ListOfProductsOfPolynomials M :=
        ⟨max g.maxMultiplicands (k a).length, g.numVariables, g.products ++ [(c a, k a)]⟩
      have hstep : f g a = .ok g₁ := by
        rw [hf.1 g, Sumcheck.addProduct_eq_ok]
        exact ⟨hms.1.1, hg ▸ hms.1.2, rfl⟩
      have hsized₁ : Sumcheck.Sized g₁.maxMultiplicands s g₁.products := by
        intro product hproduct
        rcases List.mem_append.mp hproduct with hproduct | hproduct
        · exact ⟨(hsized product hproduct).1.trans (le_max_left _ _), (hsized product hproduct).2⟩
        · rw [List.mem_singleton.mp hproduct]
          exact ⟨le_max_right _ _, hms.1.2⟩
      have hpos : 0 < g₁.maxMultiplicands :=
        lt_of_lt_of_le (List.length_pos_of_ne_nil hms.1.1) (le_max_right _ _)
      obtain ⟨degree, hle, -, hrun, hsized₂⟩ := ih hf.2 hms.2 (g := g₁) hg hsized₁
      have hproducts : g₁.products ++ l.map (fun a => (c a, k a)) =
          g.products ++ (a :: l).map fun a => (c a, k a) := by
        rw [List.map_cons, ← List.append_cons]
      rw [hproducts] at hrun hsized₂
      refine ⟨degree, (le_max_left _ _).trans hle, fun _ => lt_of_lt_of_le hpos hle, ?_, hsized₂⟩
      rw [List.foldlM_cons]
      exact bind_eq_ok.mpr ⟨g₁, hstep, hrun⟩

/-- The products of the prover, for the extensions of the matrix products. -/
def proverProducts (shape : CCSShape F) (gamma : F) (L Q : ℕ → M.Mle) (eqrs eqb : M.Mle) :
    List (F × List M.Mle) :=
  (List.range' 1 shape.numMatrices).map (fun j => (gamma ^ j, [L (j - 1), eqrs])) ++
    shape.cSs.map fun cS => (cS.1 * gamma ^ (shape.numMatrices + 1), cS.2.map Q ++ [eqb])

/-- What the multisets select, summed with their coefficients. -/
def residual (shape : CCSShape F) (theta : ℕ → F) : F :=
  (shape.cSs.map fun cS => cS.1 * (cS.2.map theta).prod).sum

variable {eqrs eqb : M.Mle}

/-- The value of the products of the multisets where the matrix products have these values. -/
theorem combine_multisets {c : F} {Q : ℕ → M.Mle} {value : M.Mle → F} (theta : ℕ → F)
    (hQ : ∀ j < shape.numMatrices, value (Q j) = theta j) :
    Sumcheck.combine (shape.cSs.map fun cS => (cS.1 * c, cS.2.map Q ++ [eqb])) value =
      residual shape theta * (c * value eqb) := by
  rw [Sumcheck.combine, List.map_map, residual, ← List.sum_map_mul_right]
  congr 1
  apply List.map_congr_left
  intro cS hcS
  have htheta : cS.2.map (value ∘ Q) = cS.2.map theta :=
    List.map_congr_left fun j hj => hQ j (shape.selectors cS hcS j hj)
  simp only [Function.comp_apply, Sumcheck.productOf_eq, List.map_append, List.map_map,
    List.map_cons, List.map_nil, List.prod_append, List.prod_cons, List.prod_nil, mul_one, htheta]
  ring

/-- The value of the prover's polynomial where the matrix products have these values. -/
theorem combine_proverProducts {gamma : F} {L Q : ℕ → M.Mle} {value : M.Mle → F}
    (sigma theta : ℕ → F) (hL : ∀ j < shape.numMatrices, value (L j) = sigma j)
    (hQ : ∀ j < shape.numMatrices, value (Q j) = theta j) :
    Sumcheck.combine (proverProducts shape gamma L Q eqrs eqb) value =
      (∑ j ∈ Finset.range shape.numMatrices, gamma ^ (j + 1) * sigma j) * value eqrs +
        residual shape theta * gamma ^ (shape.numMatrices + 1) * value eqb := by
  rw [proverProducts, Sumcheck.combine_append]
  congr 1
  · rw [Sumcheck.combine, List.map_map, List.range'_eq_map_range, List.map_map, Finset.sum_mul]
    show ((List.range shape.numMatrices).map _).sum = ((List.range shape.numMatrices).map _).sum
    congr 1
    apply List.map_congr_left
    intro j hj
    rw [List.mem_range] at hj
    simp only [Function.comp_apply, Sumcheck.productOf_eq, List.map_cons, List.map_nil,
      List.prod_cons, List.prod_nil, mul_one, add_comm 1 j, Nat.add_sub_cancel, hL j hj]
    ring
  · rw [combine_multisets theta hQ, mul_assoc]

/-- A loop that adds a product for each multiset. -/
theorem foldlM_multisets {E : Type} {z : List F} {Q : ℕ → M.Mle} {c : F}
    (hQ : ∀ j < shape.numMatrices, matrixMle M shape z j = .ok (Q j))
    (hb : M.numVars eqb = safeLoglike shape.numConstraints)
    {f : Sumcheck.ListOfProductsOfPolynomials M → F × List ℕ →
      Run E (Sumcheck.ListOfProductsOfPolynomials M)}
    (hf : ∀ g cS, cS.2.mapM (matrixMle M shape z) = .ok (cS.2.map Q) →
      f g cS = g.addProduct (cS.2.map Q ++ [eqb]) (cS.1 * c))
    {g : Sumcheck.ListOfProductsOfPolynomials M}
    (hg : g.numVariables = safeLoglike shape.numConstraints)
    (hsized : Sumcheck.Sized g.maxMultiplicands (safeLoglike shape.numConstraints) g.products) :
    ∃ degree, g.maxMultiplicands ≤ degree ∧ (shape.cSs ≠ [] → 0 < degree) ∧
      shape.cSs.foldlM f g = .ok ⟨degree, safeLoglike shape.numConstraints,
        g.products ++ shape.cSs.map fun cS => (cS.1 * c, cS.2.map Q ++ [eqb])⟩ ∧
      Sumcheck.Sized degree (safeLoglike shape.numConstraints)
        (g.products ++ shape.cSs.map fun cS => (cS.1 * c, cS.2.map Q ++ [eqb])) := by
  apply foldlM_addProduct _ _ hg hsized
  · intro cS hcS g
    apply hf
    rw [mapM_eq_ok_iff, List.forall₂_map_right_iff, List.forall₂_same]
    exact fun j hj => hQ j (shape.selectors cS hcS j hj)
  · intro cS hcS
    refine ⟨by simp, ?_⟩
    intro m hmem
    rcases List.mem_append.mp hmem with hmem | hmem
    · obtain ⟨j, hj, rfl⟩ := List.mem_map.mp hmem
      have hj' := shape.selectors cS hcS j hj
      exact numVars_matrixMle hj' (hQ j hj')
    · rw [List.mem_singleton.mp hmem, hb]

/-- The prover's loops build the polynomial. -/
theorem exists_proverProducts {z1 z2 : List F} (hz1 : z1.length = shape.numIo + shape.numVars)
    (hz2 : z2.length = shape.numIo + shape.numVars) (hm : 2 ≤ shape.numConstraints)
    (hrs : M.numVars eqrs = safeLoglike shape.numConstraints)
    (hb : M.numVars eqb = safeLoglike shape.numConstraints) (gamma : F) :
    ∃ (L Q : ℕ → M.Mle) (degree : ℕ) (g : Sumcheck.ListOfProductsOfPolynomials M),
      (∀ j < shape.numMatrices, matrixMle M shape z1 j = .ok (L j)) ∧
      (∀ j < shape.numMatrices, matrixMle M shape z2 j = .ok (Q j)) ∧
      (0 < shape.numMatrices ∨ 0 < shape.numMultisets → 0 < degree) ∧
      (List.range' 1 shape.numMatrices).foldlM (addMatrix M shape z1 eqrs gamma)
        (.new (safeLoglike shape.numConstraints)) = .ok g ∧
      shape.cSs.foldlM (addMultiset M shape z2 eqb gamma) g =
        .ok ⟨degree, safeLoglike shape.numConstraints,
          proverProducts shape gamma L Q eqrs eqb⟩ ∧
      Sumcheck.Sized degree (safeLoglike shape.numConstraints)
        (proverProducts shape gamma L Q eqrs eqb) := by
  have : Nonempty M.Mle := ⟨eqrs⟩
  have hL : ∀ j < shape.numMatrices, ∃ m, matrixMle M shape z1 j = .ok m :=
    fun j hj => (exists_matrixMle hj).mpr ⟨hz1, hm⟩
  have hQ : ∀ j < shape.numMatrices, ∃ m, matrixMle M shape z2 j = .ok m :=
    fun j hj => (exists_matrixMle hj).mpr ⟨hz2, hm⟩
  choose! L hL using hL
  choose! Q hQ using hQ
  have hpred : ∀ j ∈ List.range' 1 shape.numMatrices, j - 1 < shape.numMatrices := by
    intro j hj
    rw [List.mem_range'_1] at hj
    omega
  obtain ⟨degree₁, -, hpos₁, hrun₁, hsized₁⟩ := foldlM_addProduct
    (l := List.range' 1 shape.numMatrices) (f := addMatrix M shape z1 eqrs gamma)
    (c := fun j => gamma ^ j) (k := fun j => [L (j - 1), eqrs])
    (s := safeLoglike shape.numConstraints) (g := .new (safeLoglike shape.numConstraints))
    (by
      intro j hj g
      rw [addMatrix, hL _ (hpred j hj)]
      rfl)
    (by
      intro j hj
      refine ⟨List.cons_ne_nil _ _, ?_⟩
      rw [List.forall_mem_cons, List.forall_mem_singleton]
      exact ⟨numVars_matrixMle (hpred j hj) (hL _ (hpred j hj)), hrs⟩)
    rfl (fun _ h => absurd h List.not_mem_nil)
  have hstep : ∀ g cS, cS.2.mapM (matrixMle M shape z2) = .ok (cS.2.map Q) →
      addMultiset M shape z2 eqb gamma g cS =
        g.addProduct (cS.2.map Q ++ [eqb]) (cS.1 * gamma ^ (shape.numMatrices + 1)) := by
    intro g cS hmap
    rw [addMultiset, hmap]
    rfl
  obtain ⟨degree₂, hle, hpos₂, hrun₂, hsized₂⟩ := foldlM_multisets hQ hb hstep
    (g := ⟨degree₁, safeLoglike shape.numConstraints, _⟩) rfl hsized₁
  refine ⟨L, Q, degree₂, _, hL, hQ, ?_, hrun₁, hrun₂, hsized₂⟩
  rintro (ht | hq)
  · exact lt_of_lt_of_le (hpos₁ (by rw [ne_eq, List.range'_eq_nil_iff]; omega)) hle
  · apply hpos₂
    rw [← shape.multisets] at hq
    exact List.ne_nil_of_length_pos hq

/-- What the empty multisets contribute on every row. -/
def constantTerm (shape : CCSShape F) : F :=
  (shape.cSs.map fun cS => if cS.2 = [] then cS.1 else 0).sum

/-- Below the last row only the empty multisets contribute. -/
theorem residual_of_le {z : List F} {i : ℕ} (hi : shape.numConstraints ≤ i) :
    residual shape (fun j => (matrixProduct shape z j).getD i 0) = constantTerm shape := by
  unfold residual constantTerm
  congr 1
  apply List.map_congr_left
  intro cS hcS
  cases hS : cS.2 with
  | nil => simp
  | cons j S =>
      have hj : j < shape.numMatrices :=
        shape.selectors cS hcS j (by rw [hS]; exact List.mem_cons_self)
      have hzero : (matrixProduct shape z j).getD i 0 = 0 :=
        List.getD_eq_default _ _ (by rw [length_matrixProduct z hj]; exact hi)
      rw [List.map_cons, List.prod_cons, hzero, zero_mul, mul_zero, if_neg (List.cons_ne_nil j S)]

/-- **The claimed sum.**  Over the hypercube the second instance cancels out and
the first one's targets remain. -/
theorem hypercubeSum_proverProducts {z1 z2 rs : List F} {gamma : F} {L Q : ℕ → M.Mle}
    (hm : 2 ≤ shape.numConstraints) (hlen : rs.length = safeLoglike shape.numConstraints)
    (hL : ∀ j < shape.numMatrices, matrixMle M shape z1 j = .ok (L j))
    (hQ : ∀ j < shape.numMatrices, matrixMle M shape z2 j = .ok (Q j))
    (hrs : (vecToArkMle M (eqEvals rs) : Run Error M.Mle) = .ok eqrs)
    (hres : ∀ i < 2 ^ safeLoglike shape.numConstraints, residual shape (fun j => (matrixProduct shape z2 j).getD i 0) = 0) :
    Sumcheck.hypercubeSum (safeLoglike shape.numConstraints)
        (proverProducts shape gamma L Q eqrs eqb) =
      ∑ j ∈ Finset.range shape.numMatrices,
        gamma ^ (j + 1) * mleAt (matrixProduct shape z1 j) rs := by
  have hpos : 0 < safeLoglike shape.numConstraints := safeLoglike_pos (by omega)
  have heqlen : ∀ r : List F, r.length = safeLoglike shape.numConstraints →
      safeLoglike (eqEvals r).length = safeLoglike shape.numConstraints := by
    intro r hr
    rw [length_eqEvals, hr, safeLoglike_two_pow hpos]
  have hindex : ∀ {z : List F} {j : ℕ} {m : M.Mle} {b : ℕ}, j < shape.numMatrices →
      matrixMle M shape z j = .ok m → b < 2 ^ safeLoglike shape.numConstraints →
      M.index m b = (matrixProduct shape z j).getD
        (reverseBits (safeLoglike shape.numConstraints) b) 0 := by
    intro z j m b hj hmle hb'
    have hprod := ((matrixMle_eq_ok hj).mp hmle).2
    have hidx := index_vecToArkMle hprod (b := b)
    rw [length_matrixProduct z hj] at hidx
    exact hidx hb'
  let H : ℕ → F := fun i =>
    (∑ j ∈ Finset.range shape.numMatrices,
      gamma ^ (j + 1) * (matrixProduct shape z1 j).getD i 0) * (eqEvals rs).getD i 0
  have hvalue : ∀ b ∈ Finset.range (2 ^ safeLoglike shape.numConstraints),
      Sumcheck.combine (proverProducts shape gamma L Q eqrs eqb) (fun m => M.index m b) =
        H (reverseBits (safeLoglike shape.numConstraints) b) := by
    intro b hb'
    rw [Finset.mem_range] at hb'
    have hidxrs := index_vecToArkMle hrs (b := b) (by rw [heqlen rs hlen]; exact hb')
    rw [heqlen rs hlen] at hidxrs
    rw [combine_proverProducts _ _ (fun j hj => hindex hj (hL j hj) hb')
      (fun j hj => hindex hj (hQ j hj) hb'), hres _ (reverseBits_lt _ _), zero_mul, zero_mul,
      add_zero, hidxrs]
  rw [Sumcheck.hypercubeSum, Finset.sum_congr rfl hvalue, sum_reverseBits H]
  simp only [H, Finset.sum_mul]
  rw [Finset.sum_comm]
  apply Finset.sum_congr rfl
  intro j hj
  rw [Finset.mem_range] at hj
  rw [mleAt_eq_sum (by rw [length_matrixProduct z1 hj]; exact hm), length_matrixProduct z1 hj,
    Finset.mul_sum]
  apply Finset.sum_congr rfl
  intro i _
  ring

end Polynomial

/-! ## Completeness -/

section Complete

variable {F C B CK : Type} [Field F] [AddCommGroup C] [Module F C] {M : MultilinearExtensions F}
  {shape : CCSShape F}

theorem getD_matrixEvals (z rs : List F) {j : ℕ} (hj : j < shape.numMatrices) :
    (matrixEvals shape z rs).getD j 0 = mleAt (matrixProduct shape z j) rs := by
  have hj' : j < shape.Ms.length := by
    rw [shape.matrices]
    exact hj
  rw [matrixEvals, matrixProduct, List.getD_eq_getElem _ _ (by rw [List.length_map]; exact hj'),
    List.getD_eq_getElem _ _ (by rw [List.length_map]; exact hj'), List.getElem_map,
    List.getElem_map]

/-- The evaluations of the prover are those of the linearized instance. -/
theorem evaluateMatrices_eq {z rs : List F} (hz : z.length = shape.numIo + shape.numVars)
    (hm : 2 ≤ shape.numConstraints) (hrs : rs.length = safeLoglike shape.numConstraints) :
    evaluateMatrices M shape z rs = .ok (matrixEvals shape z rs) := by
  have hall : ∀ A ∈ shape.Ms, ((productMle M A z).mapError Error.ccs >>= fun m =>
      evaluateArk M m rs) = .ok (mleAt (A.multiplyVecUnchecked z) rs) := by
    intro A hA
    have hlen := SparseMatrix.length_multiplyVecUnchecked (shape.dims A hA) z
    obtain ⟨m, hmle⟩ := exists_vecToArkMle (M := M) (E := Ccs.Error).mpr (hlen ▸ hm)
    have hvars : rs.length = M.numVars m := by
      rw [(extends_vecToArkMle hmle).numVars, hlen, hrs]
    have hlenrs : rs.length = safeLoglike (A.multiplyVecUnchecked z).length := by rw [hlen, hrs]
    have heval := evaluate_vecToArkMle hmle hlenrs
    refine bind_eq_ok.mpr ⟨m, mapError_eq_ok.mpr ((productMle_eq_ok hA).mpr ⟨hz, hmle⟩), ?_⟩
    exact bind_eq_ok.mpr ⟨(), assert_eq_ok.mpr hvars, by rw [heval]⟩
  rw [evaluateMatrices, mapM_eq_ok_iff, matrixEvals, List.forall₂_map_right_iff, List.forall₂_same]
  exact hall

variable {S : PolyCommitmentScheme F C CK}

/-- The rows of a satisfied instance cancel out. -/
theorem residual_of_satisfied [DecidableEq F] [DecidableEq C] {U : CCSInstance F C}
    {W : CCSWitness F} {ck : CK} (h : shape.isSatisfied S U W ck = .ok ()) {i : ℕ}
    (hi : i < shape.numConstraints) :
    residual shape (fun j => (matrixProduct shape (U.X ++ W.W) j).getD i 0) = 0 := by
  simp only [CCSShape.isSatisfied, bind_eq_ok, assert_eq_ok, failIf_eq_ok, exists_const] at h
  obtain ⟨hW, hX, Mzs, hMzs, hacc, -⟩ := h
  have hz : (U.X ++ W.W).length = shape.numIo + shape.numVars := by
    rw [List.length_append, hX, hW]
  have hprod : Mzs = shape.Ms.map fun A => A.multiplyVecUnchecked (U.X ++ W.W) := by
    rw [mapM_eq_ok (P := True) (g := fun A => A.multiplyVecUnchecked (U.X ++ W.W))] at hMzs
    · exact hMzs.2.symm
    · intro A hA b
      rw [SparseMatrix.multiplyVec_of_dims (shape.dims A hA) hz, Except.ok.injEq, true_and]
  have hrow : shape.cSs.foldl (fun s cS => s + hadamard cS Mzs i) 0 = 0 := by
    by_contra hne
    apply hacc
    rw [List.any_eq_true]
    exact ⟨_, List.mem_map.mpr ⟨i, List.mem_range.mpr hi, rfl⟩, decide_eq_true hne⟩
  have hterm : ∀ cS : F × List ℕ, hadamard cS Mzs i =
      cS.1 * (cS.2.map fun j => (matrixProduct shape (U.X ++ W.W) j).getD i 0).prod := by
    intro cS
    rw [hadamard, hprod]
    exact foldl_mul_eq _ _ _
  rw [foldl_add_eq (fun cS => hadamard cS Mzs i), zero_add] at hrow
  simp only [hterm] at hrow
  exact hrow

/-- The rows below the last one cancel out as well. -/
theorem residual_eq_zero [DecidableEq F] [DecidableEq C] {U : CCSInstance F C} {W : CCSWitness F}
    {ck : CK} (h : shape.isSatisfied S U W ck = .ok ())
    (hpad : shape.numConstraints = 2 ^ safeLoglike shape.numConstraints ∨ constantTerm shape = 0)
    {i : ℕ} (hi : i < 2 ^ safeLoglike shape.numConstraints) :
    residual shape (fun j => (matrixProduct shape (U.X ++ W.W) j).getD i 0) = 0 := by
  rcases Nat.lt_or_ge i shape.numConstraints with hlt | hge
  · exact residual_of_satisfied h hlt
  · rcases hpad with hpow | hconst
    · exact absurd hi (by rw [← hpow]; exact not_lt.mpr hge)
    · rw [residual_of_le hge, hconst]

/-- The powers of `gamma` against the targets. -/
theorem sum_gammaPowers (gamma : F) (t : ℕ) (vs : List F) :
    (List.zipWith (· * ·) ((List.range' 1 t).map fun j => gamma ^ j) vs).sum =
      ∑ j ∈ Finset.range t, gamma ^ (j + 1) * vs.getD j 0 := by
  have hsum := dotProduct_eq_sum ((List.range' 1 t).map fun j => gamma ^ j) vs
  rw [List.length_map, List.length_range'] at hsum
  rw [dotProduct] at hsum
  rw [hsum]
  apply Finset.sum_congr rfl
  intro j hj
  rw [Finset.mem_range] at hj
  rw [List.getD_eq_getElem _ _ (by rw [List.length_map, List.length_range']; exact hj),
    List.getElem_map, List.getElem_range', one_mul, add_comm]

omit [AddCommGroup C] [Module F C] in
/-- Challenges for every oracle. -/
theorem exists_challenges (O : RandomOracle F C B) (vk : F) (shape : CCSShape F)
    (U1 : LCCSInstance F C) {U2 : CCSInstance F C} (hX : 0 < U2.X.length) (st : O.State) :
    ∃ rho gamma beta st', challenges O vk shape U1 U2 st = .ok (rho, gamma, beta, st') ∧
      beta.length = safeLoglike shape.numConstraints :=
  ⟨_, _, _, _, bind_eq_ok.mpr ⟨_, bind_eq_ok.mpr ⟨(), assert_eq_ok.mpr hX, rfl⟩, rfl⟩,
    O.length_squeeze _ _⟩

/-- **The multi-folding is complete.**  Satisfied pairs are proved and accepted if
the polynomial has a product and nothing remains on the rows below the last. -/
theorem nimfs_complete {p : ℕ} [Fact p.Prime] {C B CK : Type} [AddCommGroup C]
    [Module (ZMod p) C] [DecidableEq C] (S : PolyCommitmentScheme (ZMod p) C CK)
    (M : MultilinearExtensions (ZMod p)) (O : RandomOracle (ZMod p) C B)
    (castFieldElement : B → ZMod p) (vk : ZMod p) (shape : CCSShape (ZMod p)) (ck : CK)
    (U1 : LCCSInstance (ZMod p) C) (W1 : CCSWitness (ZMod p)) (U2 : CCSInstance (ZMod p) C)
    (W2 : CCSWitness (ZMod p)) (st : O.State) (hm : 2 ≤ shape.numConstraints)
    (hshape : 0 < shape.numMatrices ∨
      0 < shape.numMultisets ∧ U1.rs.length = safeLoglike shape.numConstraints)
    (hpad : shape.numConstraints = 2 ^ safeLoglike shape.numConstraints ∨ constantTerm shape = 0)
    (h₁ : shape.isSatisfiedLinearized S U1 W1 ck = .ok ())
    (h₂ : shape.isSatisfied S U2 W2 ck = .ok ()) :
    Completes M O castFieldElement S vk shape ck U1 W1 U2 W2 st := by
  have hsat := isSatisfiedLinearized_iff.mp h₁
  obtain ⟨hW₂, hX₂, hc₂⟩ := of_isSatisfied h₂
  have ho₁ := hsat.opened
  have ho₂ : Opened S shape U2.commitment_W U2.X W2 ck := ⟨hW₂, hX₂, hc₂⟩
  have hz1 : (U1.X ++ W1.W).length = shape.numIo + shape.numVars := by
    rw [List.length_append, ho₁.lengthX, ho₁.lengthW]
  have hz2 : (U2.X ++ W2.W).length = shape.numIo + shape.numVars := by
    rw [List.length_append, hX₂, hW₂]
  have hs : 0 < safeLoglike shape.numConstraints := safeLoglike_pos (by omega)
  -- the point of the first instance has a coordinate for each variable
  have hrs : U1.rs.length = safeLoglike shape.numConstraints := by
    rcases hshape with ht | ⟨-, hlen⟩
    · rw [← shape.matrices] at ht
      rw [(hsat.evaluate (List.ne_nil_of_length_pos ht)).2, mleVars_eq_safeLoglike hm]
    · exact hlen
  obtain ⟨rho, gamma, beta, st₁, hchallenges, hbeta⟩ :=
    exists_challenges O vk shape U1 ho₂.pos st
  obtain ⟨eqrs, heqrs⟩ := exists_eqMle (M := M) (E := Error).mpr (hrs ▸ hs)
  obtain ⟨eqb, heqb⟩ := exists_eqMle (M := M) (E := Error).mpr (hbeta ▸ hs)
  obtain ⟨L, Q, degree, g, hL, hQ, hdegree, hrun₁, hrun₂, hsized⟩ :=
    exists_proverProducts hz1 hz2 hm
    ((numVars_eqMle heqrs).trans hrs) ((numVars_eqMle heqb).trans hbeta) gamma
  have hpos : 0 < degree := hdegree (hshape.imp_right And.left)
  obtain ⟨msgs, rs, st₂, hprove, hlen, hverify⟩ := Sumcheck.sumcheck_complete O (E := Error)
    (g := ⟨degree, safeLoglike shape.numConstraints, proverProducts shape gamma L Q eqrs eqb⟩)
    hsized hpos hs (fun _ => Sumcheck.factorial_ne_zero_of_point) st₁
  have hlen' : rs.length = safeLoglike shape.numConstraints := hlen
  -- the claimed sum is the sum over the hypercube
  have hclaim : (List.zipWith (· * ·)
      ((List.range' 1 shape.numMatrices).map fun j => gamma ^ j) U1.vs).sum =
        Sumcheck.hypercubeSum (safeLoglike shape.numConstraints)
          (proverProducts shape gamma L Q eqrs eqb) := by
    rw [sum_gammaPowers, hypercubeSum_proverProducts hm hrs hL hQ heqrs
      (fun i hi => residual_eq_zero h₂ hpad hi)]
    apply Finset.sum_congr rfl
    intro j hj
    rw [Finset.mem_range] at hj
    rw [← (hsat.targets j hj).2, getD_matrixEvals _ _ hj]
  have hsigmas := evaluateMatrices_eq (M := M) hz1 hm hlen'
  have hthetas := evaluateMatrices_eq (M := M) hz2 hm hlen'
  -- the subclaim is the claimed evaluation
  have hvalue : ∀ {z : List (ZMod p)} {j : ℕ} {m : M.Mle}, j < shape.numMatrices →
      matrixMle M shape z j = .ok m → M.evaluate m rs = (matrixEvals shape z rs).getD j 0 := by
    intro z j m hj hmle
    rw [getD_matrixEvals z rs hj]
    exact evaluate_vecToArkMle ((matrixMle_eq_ok hj).mp hmle).2
      (by rw [length_matrixProduct z hj, hlen'])
  have hsub : (Sumcheck.combine (proverProducts shape gamma L Q eqrs eqb) fun m =>
      M.evaluate m rs) = _ :=
    combine_proverProducts ((matrixEvals shape (U1.X ++ W1.W) rs).getD · 0)
      ((matrixEvals shape (U2.X ++ W2.W) rs).getD · 0)
      (fun j hj => hvalue hj (hL j hj)) (fun j hj => hvalue hj (hQ j hj))
  have hresidual : (shape.cSs.map fun cS => cS.2.foldl (fun acc j =>
      acc * (matrixEvals shape (U2.X ++ W2.W) rs).getD j 0) cS.1).sum =
        residual shape ((matrixEvals shape (U2.X ++ W2.W) rs).getD · 0) := by
    simp only [foldl_mul_eq]
    rfl
  rw [← sum_gammaPowers, ← hresidual] at hsub
  have hthetalen : ∀ cS ∈ shape.cSs, ∀ j ∈ cS.2,
      j < (matrixEvals shape (U2.X ++ W2.W) rs).length := by
    intro cS hcS j hj
    rw [length_matrixEvals]
    exact shape.selectors cS hcS j hj
  have hevalrs : (evaluateArk M eqrs rs : Run Error _) = .ok (M.evaluate eqrs rs) :=
    bind_eq_ok.mpr ⟨(), assert_eq_ok.mpr (by rw [numVars_eqMle heqrs, hrs, hlen']), rfl⟩
  have hevalb : (evaluateArk M eqb rs : Run Error _) = .ok (M.evaluate eqb rs) :=
    bind_eq_ok.mpr ⟨(), assert_eq_ok.mpr (by rw [numVars_eqMle heqb, hbeta, hlen']), rfl⟩
  have hvs : (matrixEvals shape (U1.X ++ W1.W) rs).length =
      (matrixEvals shape (U2.X ++ W2.W) rs).length := by
    rw [length_matrixEvals, length_matrixEvals]
  have hfold : U1.fold U2 (castFieldElement rho) rs _ _ = .ok _ := fold_eq_ok.mpr
    ⟨hrs.trans hlen'.symm, hvs, ho₁.pos, ho₂.pos, rfl⟩
  have hWfold : W1.fold W2 (castFieldElement rho) = .ok _ := witnessFold_eq_ok.mpr
    ⟨ho₁.lengthW.trans hW₂.symm, rfl⟩
  have heval : CanEvaluate shape rs.length :=
    fun _ => ⟨by omega, by rw [hlen', mleVars_eq_safeLoglike hm]⟩
  have hfolded := linearizedSatisfied_folded ho₁ ho₂ heval (castFieldElement rho)
  refine ⟨⟨msgs, ⟨degree, safeLoglike shape.numConstraints,
      (proverProducts shape gamma L Q eqrs eqb).length⟩, matrixEvals shape (U1.X ++ W1.W) rs,
    matrixEvals shape (U2.X ++ W2.W) rs⟩, _, _, rho, st₂, ?_, ?_,
    isSatisfiedLinearized_iff.mpr hfolded⟩
  · exact bind_eq_ok.mpr ⟨_, hchallenges, bind_eq_ok.mpr ⟨_, heqrs, bind_eq_ok.mpr ⟨_, hrun₁,
      bind_eq_ok.mpr ⟨_, heqb, bind_eq_ok.mpr ⟨_, hrun₂, bind_eq_ok.mpr ⟨_, hprove,
        bind_eq_ok.mpr ⟨_, hsigmas, bind_eq_ok.mpr ⟨_, hthetas,
          bind_eq_ok.mpr ⟨_, mapError_eq_ok.mpr hfold,
            bind_eq_ok.mpr ⟨_, mapError_eq_ok.mpr hWfold, rfl⟩⟩⟩⟩⟩⟩⟩⟩⟩⟩
  · rw [← hclaim] at hverify
    exact bind_eq_ok.mpr ⟨_, hchallenges, bind_eq_ok.mpr ⟨_, mapError_eq_ok.mpr hverify,
      bind_eq_ok.mpr ⟨_, heqrs, bind_eq_ok.mpr ⟨_, hevalrs, bind_eq_ok.mpr ⟨_, heqb,
        bind_eq_ok.mpr ⟨_, hevalb, bind_eq_ok.mpr ⟨(), assert_eq_ok.mpr hthetalen,
          bind_eq_ok.mpr ⟨(), failIf_eq_ok.mpr (not_not.mpr hsub),
            bind_eq_ok.mpr ⟨_, mapError_eq_ok.mpr hfold, rfl⟩⟩⟩⟩⟩⟩⟩⟩⟩

end Complete

/-! ## Runs on small shapes -/

section Small

/-- The oracle that always answers `1`. -/
def oneOracle : RandomOracle (ZMod 3) (ZMod 3) (ZMod 3) where
  State := Unit
  absorb _ _ := ()
  squeeze _ n := (List.replicate n 1, ())
  squeezeTruncated _ := (1, ())
  length_squeeze _ _ := List.length_replicate

theorem nimfs_complete_row : Completes (tables (ZMod 3)) oneOracle id sumScheme 0 rowShape ()
    ⟨1, [1], [2], [2]⟩ ⟨[1]⟩ ⟨1, [0]⟩ ⟨[1]⟩ () :=
  have : Fact (Nat.Prime 3) := ⟨Nat.prime_three⟩
  nimfs_complete sumScheme (tables (ZMod 3)) oneOracle id 0 rowShape () _ _ _ _ () (by decide)
    (.inl (by decide)) (.inl (by decide)) (by decide) (by decide)

/-- Three constraints `z0 - 1 = 0`, the `1` from an empty multiset. -/
def affineShape : CCSShape (ZMod 3) where
  numConstraints := 3
  numVars := 1
  numIo := 1
  numMatrices := 1
  numMultisets := 2
  Ms := [⟨[1, 1, 1], [0, 0, 0], [0, 1, 2, 3], 2⟩]
  cSs := [(1, [0]), (-1, [])]
  numIo_pos := Nat.one_pos
  dims := by
    intro M hM
    rw [List.mem_singleton] at hM
    subst hM
    constructor <;> decide
  matrices := rfl
  multisets := rfl
  selectors := by decide

/-- Two constraints without a matrix and a multiset. -/
def noMatrixShape : CCSShape (ZMod 3) where
  numConstraints := 2
  numVars := 1
  numIo := 1
  numMatrices := 0
  numMultisets := 0
  Ms := []
  cSs := []
  numIo_pos := Nat.one_pos
  dims := by simp
  matrices := rfl
  multisets := rfl
  selectors := by simp

/-- A failed run does not complete. -/
theorem not_completes {F C B CK : Type} [Field F] [DecidableEq F] [AddCommGroup C] [Module F C]
    [DecidableEq C] {M : MultilinearExtensions F} {O : RandomOracle F C B}
    {castFieldElement : B → F} {S : PolyCommitmentScheme F C CK} {vk : F} {shape : CCSShape F}
    {ck : CK} {U1 : LCCSInstance F C} {W1 : CCSWitness F} {U2 : CCSInstance F C}
    {W2 : CCSWitness F} {st : O.State} {e : Failure Error}
    (h : (proveAsSubprotocol M O castFieldElement vk shape U1 W1 U2 W2 st >>= fun out =>
      out.1.verifyAsSubprotocol M O castFieldElement vk shape U1 U2 st) = .error e) :
    ¬ Completes M O castFieldElement S vk shape ck U1 W1 U2 W2 st := by
  rintro ⟨proof, U, W, rho, st', hprove, hverify, -⟩
  have hrun : (proveAsSubprotocol M O castFieldElement vk shape U1 W1 U2 W2 st >>= fun out =>
      out.1.verifyAsSubprotocol M O castFieldElement vk shape U1 U2 st) = .ok (U, rho, st') :=
    bind_eq_ok.mpr ⟨_, hprove, hverify⟩
  rw [h] at hrun
  cases hrun

/-- Satisfied pairs whose proof is rejected, as the fourth row of the hypercube is
`-1`, and satisfied pairs on which the verifier panics, as there is no product. -/
theorem satisfied_not_complete :
    (affineShape.isSatisfiedLinearized sumScheme ⟨0, [1], [0, 0], [1]⟩ ⟨[0]⟩ () = .ok () ∧
      affineShape.isSatisfied sumScheme ⟨0, [1]⟩ ⟨[0]⟩ () = .ok () ∧
      ¬ Completes (tables (ZMod 3)) oneOracle id sumScheme 0 affineShape () ⟨0, [1], [0, 0], [1]⟩
        ⟨[0]⟩ ⟨0, [1]⟩ ⟨[0]⟩ ()) ∧
    (noMatrixShape.isSatisfiedLinearized sumScheme ⟨0, [1], [0], []⟩ ⟨[0]⟩ () = .ok () ∧
      noMatrixShape.isSatisfied sumScheme ⟨0, [1]⟩ ⟨[0]⟩ () = .ok () ∧
      ¬ Completes (tables (ZMod 3)) oneOracle id sumScheme 0 noMatrixShape () ⟨0, [1], [0], []⟩
        ⟨[0]⟩ ⟨0, [1]⟩ ⟨[0]⟩ ()) := by
  constructor
  · refine ⟨by decide, by decide, not_completes (e := .error (.sumcheck .reject)) ?_⟩
    rfl
  · refine ⟨by decide, by decide, not_completes (e := .panic) ?_⟩
    rfl

end Small

end NexusVm.Nova.Nimfs
