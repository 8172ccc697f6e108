import NexusVm.Nova.ArkMle
import NexusVm.Nova.Interpolate
import Mathlib.Data.Nat.Prime.Factorial

/-!
# Completeness of the sumcheck

The messages of the prover are accepted for the sum over the hypercube, and what
is left to check is the value of the polynomial at the randomness.
-/

namespace NexusVm.Nova.Sumcheck

open Polynomial

section Hypercube

variable {F : Type} [Field F] {M : MultilinearExtensions F}

/-- A product with its coefficient, its multiplicands given by their values. -/
def productOf (value : M.Mle → F) (product : F × List M.Mle) : F :=
  product.2.foldl (fun p m => p * value m) product.1

/-- A sum of products, its multiplicands given by their values. -/
def combine (products : List (F × List M.Mle)) (value : M.Mle → F) : F :=
  (products.map (productOf value)).sum

/-- The sum over the hypercube of `n` variables. -/
def hypercubeSum (n : ℕ) (products : List (F × List M.Mle)) : F :=
  ∑ b ∈ Finset.range (2 ^ n), combine products fun m => M.index m b

/-- Products of `n` variables and of at most `degree` multiplicands. -/
def Sized (degree n : ℕ) (products : List (F × List M.Mle)) : Prop :=
  ∀ product ∈ products, product.2.length ≤ degree ∧ ∀ m ∈ product.2, M.numVars m = n

theorem productOf_eq (value : M.Mle → F) (product : F × List M.Mle) :
    productOf value product = product.1 * (product.2.map value).prod :=
  foldl_mul_eq value product.1 product.2

theorem combine_congr {products products' : List (F × List M.Mle)} {value value' : M.Mle → F}
    {f : F × List M.Mle → F × List M.Mle} (hp : products' = products.map f)
    (h : ∀ product ∈ products, productOf value' (f product) = productOf value product) :
    combine products' value' = combine products value := by
  rw [combine, combine, hp, List.map_map]
  congr 1
  exact List.map_congr_left h

theorem combine_append (ps qs : List (F × List M.Mle)) (value : M.Mle → F) :
    combine (ps ++ qs) value = combine ps value + combine qs value := by
  rw [combine, List.map_append, List.sum_append, combine, combine]

/-- One multiplicand as a polynomial in its first variable. -/
noncomputable def linePoly (m : M.Mle) (b : ℕ) : F[X] :=
  C (M.index m (2 * b)) + X * C (M.index m (2 * b + 1) - M.index m (2 * b))

/-- A round's polynomial when `n` more variables follow. -/
noncomputable def roundPoly (products : List (F × List M.Mle)) (n : ℕ) : F[X] :=
  ∑ b ∈ Finset.range (2 ^ n),
    (products.map fun product => C product.1 * (product.2.map (linePoly · b)).prod).sum

theorem eval_linePoly (m : M.Mle) (b : ℕ) (t : F) :
    (linePoly m b).eval t = lineAt m b t := by
  simp [linePoly, lineAt]

/-- A round's polynomial is the sum over the variables that follow. -/
theorem eval_roundPoly (products : List (F × List M.Mle)) (n : ℕ) (t : F) :
    (roundPoly products n).eval t =
      ∑ b ∈ Finset.range (2 ^ n), combine products fun m => lineAt m b t := by
  rw [roundPoly, eval_finsetSum]
  apply Finset.sum_congr rfl
  intro b _
  rw [← coe_evalRingHom, map_list_sum, List.map_map, combine]
  congr 1
  apply List.map_congr_left
  intro product _
  rw [productOf_eq, Function.comp_apply, map_mul, map_list_prod, List.map_map, coe_evalRingHom,
    eval_C]
  congr 2
  apply List.map_congr_left
  intro m _
  exact eval_linePoly m b t

theorem natDegree_linePoly (m : M.Mle) (b : ℕ) : (linePoly m b).natDegree ≤ 1 := by
  unfold linePoly
  compute_degree

theorem natDegree_prod_linePoly (ms : List M.Mle) (b : ℕ) :
    (ms.map (linePoly · b)).prod.natDegree ≤ ms.length := by
  induction ms with
  | nil => simp
  | cons m ms ih =>
      rw [List.map_cons, List.prod_cons, List.length_cons, add_comm]
      exact natDegree_mul_le.trans (Nat.add_le_add (natDegree_linePoly m b) ih)

variable {products : List (F × List M.Mle)}

/-- A round's degree is bounded by the number of multiplicands. -/
theorem natDegree_roundPoly {degree : ℕ} (h : ∀ product ∈ products, product.2.length ≤ degree)
    (n : ℕ) :
    (roundPoly products n).natDegree ≤ degree := by
  apply natDegree_sum_le_of_forall_le
  intro b _
  apply (natDegree_list_sum_le _).trans
  apply List.max_le_of_forall_le
  intro k hk
  obtain ⟨q, hq, rfl⟩ := List.mem_map.mp hk
  obtain ⟨product, hproduct, rfl⟩ := List.mem_map.mp hq
  calc
    (C product.1 * (product.2.map (linePoly · b)).prod).natDegree
      ≤ (product.2.map (linePoly · b)).prod.natDegree := natDegree_C_mul_le _ _
    _ ≤ product.2.length := natDegree_prod_linePoly _ _
    _ ≤ degree := h product hproduct

/-- The prover's message. -/
theorem proveRound_eq (products : List (F × List M.Mle)) (degree n : ℕ) :
    proveRound products degree n =
      (List.range (degree + 1)).map fun t : ℕ => (roundPoly products n).eval (t : F) := by
  apply List.map_congr_left
  intro t _
  rw [eval_roundPoly]
  rfl

/-- The first two evaluations of a message add up to the sum over the hypercube. -/
theorem roundPoly_zero_add_one (products : List (F × List M.Mle)) (n : ℕ) :
    (roundPoly products n).eval 0 + (roundPoly products n).eval 1 =
      hypercubeSum (n + 1) products := by
  have hzero : ∀ b, (fun m => lineAt m b (0 : F)) = fun m : M.Mle => M.index m (2 * b) := by
    intro b
    ext m
    simp [lineAt]
  have hone : ∀ b, (fun m => lineAt m b (1 : F)) = fun m : M.Mle => M.index m (2 * b + 1) := by
    intro b
    ext m
    simp [lineAt]
  rw [hypercubeSum, sum_range_two_pow, eval_roundPoly, eval_roundPoly, ← Finset.sum_add_distrib]
  simp only [hzero, hone]

/-- The products after their first variable is fixed. -/
def fixProducts (products : List (F × List M.Mle)) (r : F) : List (F × List M.Mle) :=
  products.map fun (c, product) => (c, product.map (M.fixVariable · r))

theorem Sized.fixProducts {degree n : ℕ} (h : Sized degree (n + 1) products) (r : F) :
    Sized degree n (fixProducts products r) := by
  intro product' hproduct'
  obtain ⟨product, hproduct, rfl⟩ := List.mem_map.mp hproduct'
  obtain ⟨hlen, hvars⟩ := h product hproduct
  constructor
  · rw [List.length_map]
    exact hlen
  · intro m' hm'
    obtain ⟨m, hm, rfl⟩ := List.mem_map.mp hm'
    rw [M.numVars_fix, hvars m hm, Nat.add_sub_cancel]

theorem combine_fixProducts {r : F} {value value' : M.Mle → F}
    (h : ∀ product ∈ products, ∀ m ∈ product.2, value' (M.fixVariable m r) = value m) :
    combine (fixProducts products r) value' = combine products value := by
  apply combine_congr rfl
  intro product hproduct
  rw [productOf_eq, productOf_eq, List.map_map]
  congr 2
  exact List.map_congr_left (h product hproduct)

/-- The value of a round's polynomial is the sum that is left. -/
theorem hypercubeSum_fixProducts {degree n : ℕ} (h : Sized degree (n + 1) products) (r : F) :
    hypercubeSum n (fixProducts products r) = (roundPoly products n).eval r := by
  rw [hypercubeSum, eval_roundPoly]
  apply Finset.sum_congr rfl
  intro b hb
  rw [Finset.mem_range] at hb
  apply combine_fixProducts
  intro product hproduct m hm
  have hvars := (h product hproduct).2 m hm
  rw [M.index_fix m r b (by rw [hvars, pow_succ]; omega)]
  rfl

end Hypercube

/-! ## Rounds -/

section Rounds

variable {F C B : Type} [Field F] [DecidableEq F] {M : MultilinearExtensions F}
  (O : RandomOracle F C B)

/-- **The rounds are accepted.**  After all of them the value of the polynomial
at the randomness is left. -/
theorem rounds_complete {degree : ℕ} (hdegree : 0 < degree)
    (hF : ∀ x : F, (∀ k ≤ degree, x ≠ (k : F)) → (degree.factorial : F) ≠ 0) {n : ℕ}
    {products : List (F × List M.Mle)} (h : Sized degree n products) (st : O.State) :
    ∃ msgs rs st', proveRounds O degree n products st = (msgs, rs, st') ∧ rs.length = n ∧
      ∃ rounds, (verifyRounds O n msgs st : Run Error (List (List F × F) × O.State)) =
          .ok (rounds, st') ∧ rounds.map Prod.snd = rs ∧
        checkRounds degree (hypercubeSum n products) rounds =
          .ok (combine products fun m => M.evaluate m rs) := by
  induction n generalizing products st with
  | zero =>
      refine ⟨[], [], st, rfl, rfl, [], rfl, rfl, ?_⟩
      have hvalue : hypercubeSum 0 products = combine products fun m => M.evaluate m [] := by
        rw [hypercubeSum, pow_zero, Finset.sum_range_one]
        apply combine_congr (f := id) (List.map_id _).symm
        intro product hproduct
        rw [id, productOf_eq, productOf_eq]
        congr 2
        apply List.map_congr_left
        intro m hm
        rw [M.evaluate_nil m ((h product hproduct).2 m hm)]
      rw [hvalue]
      rfl
  | succ n ih =>
      let msg := proveRound products degree n
      let r := (O.squeezeOne (O.absorb st (msg.map .scalar))).1
      let st₁ := O.absorb (O.squeezeOne (O.absorb st (msg.map .scalar))).2 [.scalar r]
      obtain ⟨msgs, rs, st', hprove, hlen, rounds, hverify, hpoint, hcheck⟩ :=
        ih (h.fixProducts r) st₁
      refine ⟨msg :: msgs, r :: rs, st', ?_, ?_, (msg, r) :: rounds, ?_, ?_, ?_⟩
      · show (msg :: (proveRounds O degree n (fixProducts products r) st₁).1,
          r :: (proveRounds O degree n (fixProducts products r) st₁).2.1,
          (proveRounds O degree n (fixProducts products r) st₁).2.2) = _
        rw [hprove]
      · rw [List.length_cons, hlen]
      · exact bind_eq_ok.mpr ⟨_, hverify, rfl⟩
      · rw [List.map_cons, hpoint]
      · have hmsg : msg = _ := proveRound_eq products degree n
        have hlen' : msg.length = degree + 1 := by
          rw [hmsg, List.length_map, List.length_range]
        have hget : ∀ t ≤ degree, msg.getD t 0 = (roundPoly products n).eval (t : F) := by
          intro t ht
          rw [hmsg, List.getD_eq_getElem _ _ (by rw [← hmsg]; omega), List.getElem_map,
            List.getElem_range]
        have hsum : msg.getD 0 0 + msg.getD 1 0 = hypercubeSum (n + 1) products := by
          rw [hget 0 (Nat.zero_le _), hget 1 hdegree, Nat.cast_zero, Nat.cast_one,
            roundPoly_zero_add_one]
        have hinterp : (interpolateUniPoly msg r : Run Error F) =
            .ok (hypercubeSum n (fixProducts products r)) := by
          rw [hypercubeSum_fixProducts h r, hmsg]
          exact interpolateUniPoly_eq
            (natDegree_roundPoly (fun product hproduct => (h product hproduct).1) n) (hF r)
        have hlast : (combine (fixProducts products r) fun m => M.evaluate m rs) =
            combine products fun m => M.evaluate m (r :: rs) := by
          apply combine_fixProducts
          intro product hproduct m hm
          rw [M.evaluate_cons m r rs (by rw [(h product hproduct).2 m hm, hlen])]
        rw [hlast] at hcheck
        exact bind_eq_ok.mpr ⟨(), assert_eq_ok.mpr hlen', bind_eq_ok.mpr ⟨(),
          assert_eq_ok.mpr (by omega), bind_eq_ok.mpr ⟨(),
            failIf_eq_ok.mpr (not_not.mpr hsum), bind_eq_ok.mpr ⟨_, hinterp, hcheck⟩⟩⟩⟩

/-- **The sumcheck is complete.** -/
theorem sumcheck_complete {E : Type} {g : ListOfProductsOfPolynomials M}
    (hsized : Sized g.maxMultiplicands g.numVariables g.products)
    (hmax : 0 < g.maxMultiplicands) (hvars : 0 < g.numVariables)
    (hF : ∀ x : F, (∀ k ≤ g.maxMultiplicands, x ≠ (k : F)) →
      (g.maxMultiplicands.factorial : F) ≠ 0) (st : O.State) :
    ∃ msgs rs st', (proveAsSubprotocol O g st : Run E _) = .ok (msgs, rs, st') ∧
      rs.length = g.numVariables ∧
      verifyAsSubprotocol O g.info (hypercubeSum g.numVariables g.products) msgs st =
        .ok (⟨rs, combine g.products fun m => M.evaluate m rs⟩, st') := by
  obtain ⟨msgs, rs, st', hprove, hlen, rounds, hverify, hpoint, hcheck⟩ :=
    rounds_complete O hmax hF hsized (O.absorb st g.info.elements)
  refine ⟨msgs, rs, st', ?_, hlen, ?_⟩
  · refine bind_eq_ok.mpr ⟨(), assert_eq_ok.mpr hvars.ne', ?_⟩
    rw [← hprove]
  · refine bind_eq_ok.mpr ⟨_, hverify, bind_eq_ok.mpr ⟨(), assert_eq_ok.mpr hvars.ne',
      bind_eq_ok.mpr ⟨_, hcheck, ?_⟩⟩⟩
    rw [← hpoint]

end Rounds

/-- In a prime field, a point that is none of `0, .., d` shows that `d!` does not vanish. -/
theorem factorial_ne_zero_of_point {p : ℕ} [Fact p.Prime] {d : ℕ} {x : ZMod p}
    (hx : ∀ k ≤ d, x ≠ (k : ZMod p)) : (d.factorial : ZMod p) ≠ 0 := by
  intro hzero
  have hdvd : p ∣ d.factorial := (ZMod.natCast_eq_zero_iff _ _).mp hzero
  have hprime : p.Prime := Fact.out
  have hle : p ≤ d := hprime.dvd_factorial.mp hdvd
  have hlt : x.val < p := ZMod.val_lt x
  exact hx x.val (hlt.le.trans hle) (ZMod.natCast_zmod_val x).symm

end NexusVm.Nova.Sumcheck
