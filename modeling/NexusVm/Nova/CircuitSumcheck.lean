import NexusVm.Gadget
import NexusVm.Nova.Interpolate
import NexusVm.Numerals
import Mathlib.Algebra.Field.ZMod
import Mathlib.Data.Nat.Prime.Factorial

/-!
# The sumcheck verifier in a circuit

`nova/src/tree_folding/circuit/sumcheck.rs`.  The gadget of a sponge computes on the
variables' values what the sponge does; what it absorbs are field elements.
-/

namespace NexusVm.Nova

/-- Sizes are absorbed as field elements, which the gadgets of a sponge work on. -/
def RandomOracle.AbsorbsSizes {F C B : Type} [Field F] (O : RandomOracle F C B) : Prop :=
  ∀ (st : O.State) (sizes : List ℕ),
    O.absorb st (sizes.map .size) = O.absorb st (sizes.map fun n => .scalar (n : F))

namespace Sumcheck

open Polynomial Gadget

section Circuit

variable {F C B : Type} [Field F] (O : RandomOracle F C B)

/-- Numerator and denominator of the `i`-th polynomial of Lagrange's basis at `r`. -/
def lagrangeBasis (len : ℕ) (r : F) (i : ℕ) : F × F :=
  ((List.range len).filter (· ≠ i)).foldl
    (fun basis (j : ℕ) => (basis.1 * (r - (j : F)), basis.2 * ((i : F) - (j : F)))) (1, 1)

/-- `verify_sumcheck_round`. -/
def verifySumcheckRound (expected : F) (evals : List F) (r : F) : Gadget F := do
  let p0 ← entry evals 0
  let p1 ← entry evals 1
  enforceEqual expected (p0 + p1)
  (List.range evals.length).foldlM
    (fun result i => do
      let eval ← entry evals i
      let basis ← mulByInverse (lagrangeBasis evals.length r i).1 (lagrangeBasis evals.length r i).2
      return result + eval * basis)
    0

/-- The rounds of `verify_all_sumcheck`: the last expected value, the challenges and the
sponge's last state. -/
def verifySumcheckRounds (sumcheckProof : List (List F)) :
    List ℕ → F → O.State → Gadget (F × List F × O.State)
  | [], expected, st => return (expected, [], st)
  | round :: rounds, expected, st => do
      let evals ← entry sumcheckProof round
      let st := O.absorb st (evals.map .scalar)
      let (r_k, st) := O.squeezeOne st
      let st := O.absorb st [.scalar r_k]
      let expected ← verifySumcheckRound expected evals r_k
      let (expected, rs_p, st) ← verifySumcheckRounds sumcheckProof rounds expected st
      return (expected, r_k :: rs_p, st)

/-- `verify_all_sumcheck`. -/
def verifyAllSumcheck (sumcheckProof : List (List F)) (expectedSumOfPolynomial : F)
    (polynomialInfo : PolynomialInfo) (st : O.State) : Gadget (F × List F × O.State) :=
  let st := O.absorb st
    [.scalar (polynomialInfo.maxMultiplicands : F), .scalar (polynomialInfo.numVariables : F),
      .scalar (polynomialInfo.numTerms : F)]
  verifySumcheckRounds O sumcheckProof (List.range polynomialInfo.numVariables)
    expectedSumOfPolynomial st

end Circuit

section Round

variable {F : Type} [Field F]

theorem lagrangeBasis_eq (len : ℕ) (r : F) (i : ℕ) :
    lagrangeBasis len r i = (∏ j ∈ (Finset.range len).erase i, (r - (j : F)),
      ∏ j ∈ (Finset.range len).erase i, ((i : F) - (j : F))) := by
  have hfold : ∀ (l : List ℕ) (basis : F × F),
      l.foldl (fun basis (j : ℕ) => (basis.1 * (r - (j : F)), basis.2 * ((i : F) - (j : F))))
        basis = (basis.1 * (l.map fun j : ℕ => r - (j : F)).prod,
          basis.2 * (l.map fun j : ℕ => (i : F) - (j : F)).prod) := by
    intro l
    induction l with
    | nil => exact fun basis => by simp
    | cons j l ih =>
        intro basis
        rw [List.foldl_cons, ih, List.map_cons, List.map_cons, List.prod_cons, List.prod_cons,
          mul_assoc, mul_assoc]
  have hfilter : ((List.range len).filter (· ≠ i)).toFinset = (Finset.range len).erase i := by
    ext j
    simp [and_comm]
  have hnodup : ((List.range len).filter (· ≠ i)).Nodup := List.nodup_range.filter _
  rw [lagrangeBasis, hfold, one_mul, one_mul, ← hfilter, List.prod_toFinset _ hnodup,
    List.prod_toFinset _ hnodup]

theorem foldl_range_add (f : ℕ → F) (n : ℕ) :
    (List.range n).foldl (fun result i => result + f i) 0 = ∑ i ∈ Finset.range n, f i := by
  induction n with
  | zero => rfl
  | succ n ih =>
      rw [List.range_succ, List.foldl_append, ih, Finset.sum_range_succ]
      rfl

/-- The polynomial with these evaluations at `0, 1, ..`. -/
noncomputable def interpolated (evals : List F) : F[X] :=
  Lagrange.interpolate (Finset.range evals.length) (fun i : ℕ => (i : F)) fun i => evals.getD i 0

theorem eval_interpolated (evals : List F) (r : F) :
    (interpolated evals).eval r = ∑ i ∈ Finset.range evals.length,
      evals.getD i 0 *
        ((lagrangeBasis evals.length r i).1 / (lagrangeBasis evals.length r i).2) := by
  rw [interpolated, Lagrange.interpolate_apply, eval_finsetSum]
  apply Finset.sum_congr rfl
  intro i _
  rw [eval_mul, eval_C, Lagrange.basis, eval_prod, lagrangeBasis_eq]
  congr 1
  simp only [Lagrange.basisDivisor, eval_mul, eval_C, eval_sub, eval_X]
  rw [Finset.prod_mul_distrib, Finset.prod_inv_distrib, div_eq_inv_mul]

/-- Both interpolations give the same value. -/
theorem interpolateUniPoly_eq_eval [DecidableEq F] {E : Type} {evals : List F} {d : ℕ}
    (hlen : evals.length = d + 1) (hd : (d.factorial : F) ≠ 0) (r : F) :
    (interpolateUniPoly evals r : Run E F) = .ok ((interpolated evals).eval r) := by
  have hinj := nodes_injOn hd
  have hdegree : (interpolated evals).natDegree ≤ d := by
    have hlt := Lagrange.degree_interpolate_lt (s := Finset.range (d + 1))
      (v := fun i : ℕ => (i : F)) (fun i => evals.getD i 0) hinj
    rw [Finset.card_range] at hlt
    rw [interpolated, hlen]
    exact natDegree_le_of_degree_le (Order.le_of_lt_succ hlt)
  have hevals :
      evals = (List.range (d + 1)).map fun t : ℕ => (interpolated evals).eval (t : F) := by
    apply List.ext_getElem
    · rw [List.length_map, List.length_range, hlen]
    · intro i h₁ h₂
      have hi : i ∈ Finset.range (d + 1) := Finset.mem_range.mpr (by omega)
      have hnode := Lagrange.eval_interpolate_at_node (fun i => evals.getD i 0) hinj hi
      rw [List.getElem_map, List.getElem_range, interpolated, hlen, hnode,
        List.getD_eq_getElem _ _ h₁]
  conv_lhs => rw [hevals]
  exact interpolateUniPoly_eq hdegree fun _ => hd

/-- **A round of the circuit** checks the sum and interpolates. -/
theorem verifySumcheckRound_iff {expected r next : F} {evals : List F} {d : ℕ}
    (hlen : evals.length = d + 1) (hpos : 0 < d) (hd : (d.factorial : F) ≠ 0) :
    verifySumcheckRound expected evals r next ↔
      evals.getD 0 0 + evals.getD 1 0 = expected ∧ next = (interpolated evals).eval r := by
  have hentry : ∀ i, i < evals.length → ∀ x, evals[i]? = some x ↔ x = evals.getD i 0 := by
    intro i hi x
    rw [List.getElem?_eq_getElem hi, List.getD_eq_getElem _ _ hi, Option.some_inj, eq_comm]
  have hdenom : ∀ i ∈ List.range evals.length, (lagrangeBasis evals.length r i).2 ≠ 0 := by
    intro i hi
    rw [List.mem_range, hlen] at hi
    rw [hlen, lagrangeBasis_eq, prod_nodes_erase (Nat.le_of_lt_succ hi)]
    exact mul_ne_zero (mul_ne_zero (pow_ne_zero _ (neg_ne_zero.mpr one_ne_zero))
      (factorial_ne_zero_of_le hd (Nat.le_of_lt_succ hi)))
      (factorial_ne_zero_of_le hd (Nat.sub_le d i))
  have hstep : ∀ (result : F), ∀ i ∈ List.range evals.length,
      (do
        let eval ← entry evals i
        let basis ←
          mulByInverse (lagrangeBasis evals.length r i).1 (lagrangeBasis evals.length r i).2
        return result + eval * basis) =
      (pure (result + evals.getD i 0 *
        ((lagrangeBasis evals.length r i).1 / (lagrangeBasis evals.length r i).2)) : Gadget F) := by
    intro result i hi
    ext next
    have hne := hdenom i hi
    rw [List.mem_range] at hi
    simp only [bind_iff, entry_iff, hentry i hi, exists_eq_left, mulByInverse_iff, hne, ne_eq,
      not_false_eq_true, true_and, pure_iff]
  unfold verifySumcheckRound
  rw [foldlM_eq_pure hstep, foldl_range_add, ← eval_interpolated]
  simp only [bind_iff, entry_iff, enforceEqual_iff, hentry 0 (by omega), hentry 1 (by omega),
    exists_eq_left, exists_const, pure_iff]
  rw [eq_comm (a := expected)]

end Round

/-! ## All rounds and both verifiers -/

section Rounds

variable {F C B : Type} [Field F] [DecidableEq F] {O : RandomOracle F C B}

/-- The native verifier's check of one round. -/
theorem checkRounds_cons {d : ℕ} {expected final r : F} {evals : List F}
    {rounds : List (List F × F)} (hlen : evals.length = d + 1) (hpos : 0 < d)
    (hd : (d.factorial : F) ≠ 0) :
    checkRounds d expected ((evals, r) :: rounds) = .ok final ↔
      evals.getD 0 0 + evals.getD 1 0 = expected ∧
        checkRounds d ((interpolated evals).eval r) rounds = .ok final := by
  simp only [checkRounds, bind_eq_ok, assert_eq_ok, failIf_eq_ok, exists_const, not_not, hlen,
    true_and, interpolateUniPoly_eq_eval hlen hd, Except.ok.injEq, exists_eq_left']
  constructor
  · exact fun h => h.2
  · exact fun h => ⟨by omega, h⟩

/-- The rounds from the `k`-th on. -/
theorem verifySumcheckRounds_iff {proof : List (List F)} {d : ℕ} (hpos : 0 < d)
    (hd : (d.factorial : F) ≠ 0) (hevals : ∀ evals ∈ proof, evals.length = d + 1) {n k : ℕ}
    (hlen : proof.length = k + n) {expected final : F} {point : List F} {st st' : O.State} :
    verifySumcheckRounds O proof (List.range' k n) expected st (final, point, st') ↔
      ∃ rounds, (verifyRounds O n (proof.drop k) st : Run Error _) = .ok (rounds, st') ∧
        checkRounds d expected rounds = .ok final ∧ point = rounds.map Prod.snd := by
  induction n generalizing k expected final point st with
  | zero =>
      constructor
      · intro h
        have hout : (final, point, st') = (expected, [], st) := h
        obtain ⟨rfl, rfl, rfl⟩ : final = expected ∧ point = [] ∧ st' = st := by
          simpa only [Prod.mk.injEq] using hout
        exact ⟨[], rfl, rfl, rfl⟩
      · rintro ⟨rounds, hrounds, hcheck, rfl⟩
        obtain ⟨rfl, rfl⟩ := Prod.mk.inj (Except.ok.inj hrounds)
        obtain rfl := Except.ok.inj hcheck
        rfl
  | succ n ih =>
      have hk : k < proof.length := by omega
      have hmsg : proof[k].length = d + 1 := hevals _ (List.getElem_mem hk)
      rw [List.drop_eq_getElem_cons hk, List.range'_succ]
      have hsucc : proof.length = k + 1 + n := by omega
      -- the sponge after the round
      set st₁ := O.absorb st (proof[k].map .scalar) with hst₁
      set st₂ := O.absorb (O.squeezeOne st₁).2 [.scalar (O.squeezeOne st₁).1] with hst₂
      have hcircuit : verifySumcheckRounds O proof (k :: List.range' (k + 1) n) expected st
          (final, point, st') ↔ ∃ next tail,
            verifySumcheckRound expected proof[k] (O.squeezeOne st₁).1 next ∧
              verifySumcheckRounds O proof (List.range' (k + 1) n) next st₂ (final, tail, st') ∧
                point = (O.squeezeOne st₁).1 :: tail := by
        rw [verifySumcheckRounds]
        simp only [bind_iff, entry_iff, List.getElem?_eq_getElem hk, Option.some.injEq,
          exists_eq_left', pure_iff, Prod.mk.injEq, Prod.exists, ← hst₁, ← hst₂]
        constructor
        · rintro ⟨next, hround, _, tail, _, hrest, rfl, rfl, rfl⟩
          exact ⟨next, tail, hround, hrest, rfl⟩
        · rintro ⟨next, tail, hround, hrest, rfl⟩
          exact ⟨next, hround, _, tail, _, hrest, rfl, rfl, rfl⟩
      have hnative : ∀ rounds, (verifyRounds O (n + 1) (proof[k] :: proof.drop (k + 1)) st :
          Run Error _) = .ok (rounds, st') ↔ ∃ rest,
            (verifyRounds O n (proof.drop (k + 1)) st₂ : Run Error _) = .ok (rest, st') ∧
              rounds = (proof[k], (O.squeezeOne st₁).1) :: rest := by
        intro rounds
        rw [verifyRounds]
        simp only [bind_eq_ok, Except.ok.injEq, Prod.mk.injEq, Prod.exists, ← hst₁, ← hst₂]
        constructor
        · rintro ⟨rest, _, hrest, rfl, rfl⟩
          exact ⟨rest, hrest, rfl⟩
        · rintro ⟨rest, hrest, rfl⟩
          exact ⟨rest, _, hrest, rfl, rfl⟩
      rw [hcircuit]
      simp only [verifySumcheckRound_iff hmsg hpos hd, ih hsucc, hnative]
      constructor
      · rintro ⟨_, _, ⟨hsum, rfl⟩, ⟨rest, hrest, hcheck, rfl⟩, rfl⟩
        exact ⟨_, ⟨rest, hrest, rfl⟩, (checkRounds_cons hmsg hpos hd).mpr ⟨hsum, hcheck⟩, rfl⟩
      · rintro ⟨_, ⟨rest, hrest, rfl⟩, hcheck, rfl⟩
        obtain ⟨hsum, hcheck⟩ := (checkRounds_cons hmsg hpos hd).mp hcheck
        exact ⟨_, _, ⟨hsum, rfl⟩, ⟨rest, hrest, hcheck, rfl⟩, rfl⟩

end Rounds

section Equal

variable {p : ℕ} [Fact p.Prime] {C B : Type} {O : RandomOracle (ZMod p) C B}

/-- With one evaluation a round there is no circuit, and the native verifier panics. -/
theorem not_verifySumcheckRounds {F : Type} [Field F] {O : RandomOracle F C B}
    {proof : List (List F)} (hevals : ∀ evals ∈ proof, evals.length = 1) {round : ℕ}
    {rounds : List ℕ} {expected : F} {st : O.State} {out : F × List F × O.State} :
    ¬verifySumcheckRounds O proof (round :: rounds) expected st out := by
  rintro ⟨evals, hentry, _, ⟨_, _, p1, hp1, -⟩, -⟩
  have hlen := hevals evals (List.mem_of_getElem? hentry)
  obtain ⟨hlt, -⟩ := List.getElem?_eq_some_iff.mp hp1
  omega

/-- The constraints are satisfied with a final value and a point just if the native verifier
accepts with these. -/
theorem verifyAllSumcheck_iff (hO : O.AbsorbsSizes) (info : PolynomialInfo)
    (hvars : 0 < info.numVariables) (hmax : info.maxMultiplicands < p) (claimedSum : ZMod p)
    {proof : List (List (ZMod p))} (hlen : proof.length = info.numVariables)
    (hevals : ∀ evals ∈ proof, evals.length = info.maxMultiplicands + 1) (st st' : O.State)
    (expected : ZMod p) (point : List (ZMod p)) :
    verifyAllSumcheck O proof claimedSum info st (expected, point, st') ↔
      verifyAsSubprotocol O info claimedSum proof st = .ok (⟨point, expected⟩, st') := by
  have habsorb : O.absorb st info.elements = O.absorb st
      [.scalar (info.maxMultiplicands : ZMod p), .scalar (info.numVariables : ZMod p),
        .scalar (info.numTerms : ZMod p)] :=
    hO st [info.maxMultiplicands, info.numVariables, info.numTerms]
  have hassert : (Run.assert (info.numVariables ≠ 0) : Run Error Unit) = .ok () :=
    assert_eq_ok.mpr hvars.ne'
  by_cases hdegree : info.maxMultiplicands = 0
  · rw [hdegree, zero_add] at hevals
    obtain ⟨n, hn⟩ := Nat.exists_eq_succ_of_ne_zero hvars.ne'
    constructor
    · intro h
      rw [verifyAllSumcheck, hn, List.range_succ_eq_map] at h
      exact absurd h (not_verifySumcheckRounds hevals)
    · intro h
      have hpos := maxMultiplicands_pos h
      omega
  · have hpos : 0 < info.maxMultiplicands := Nat.pos_of_ne_zero hdegree
    have hd : (info.maxMultiplicands.factorial : ZMod p) ≠ 0 := by
      have hprime : p.Prime := Fact.out
      rw [ne_eq, ZMod.natCast_eq_zero_iff, Nat.Prime.dvd_factorial hprime]
      omega
    rw [verifyAllSumcheck, List.range_eq_range',
      verifySumcheckRounds_iff hpos hd hevals (by omega), List.drop_zero, ← habsorb]
    simp only [verifyAsSubprotocol, hassert, bind_eq_ok, Prod.exists, Except.ok.injEq,
      Prod.mk.injEq, SubClaim.mk.injEq]
    constructor
    · rintro ⟨rounds, hrounds, hcheck, rfl⟩
      exact ⟨rounds, st', hrounds, (), trivial, expected, hcheck, ⟨rfl, rfl⟩, rfl⟩
    · rintro ⟨rounds, _, hrounds, -, -, _, hcheck, ⟨rfl, rfl⟩, rfl⟩
      exact ⟨rounds, hrounds, hcheck, rfl⟩

/-- **The verifier in the circuit is the native one**: for every proof of as many rounds as
there are variables, at least one, the constraints can be satisfied just if the native
verifier accepts, and then both give the same point, value and sponge. -/
theorem circuit_verifier_eq_native (hO : O.AbsorbsSizes) (info : PolynomialInfo)
    (hvars : 0 < info.numVariables) (hmax : info.maxMultiplicands < p) (claimedSum : ZMod p)
    (proof : List (List (ZMod p))) (hlen : proof.length = info.numVariables)
    (hevals : ∀ evals ∈ proof, evals.length = info.maxMultiplicands + 1) (st : O.State) :
    ((verifyAllSumcheck O proof claimedSum info st).Satisfiable ↔
        ∃ out, verifyAsSubprotocol O info claimedSum proof st = .ok out) ∧
      ∀ expected point st' subclaim st'',
        verifyAllSumcheck O proof claimedSum info st (expected, point, st') →
        verifyAsSubprotocol O info claimedSum proof st = .ok (subclaim, st'') →
        subclaim.point = point ∧ subclaim.expectedEvaluation = expected ∧ st'' = st' := by
  have hiff := verifyAllSumcheck_iff hO info hvars hmax claimedSum hlen hevals st
  constructor
  · constructor
    · rintro ⟨⟨expected, point, st'⟩, hcircuit⟩
      exact ⟨_, (hiff st' expected point).mp hcircuit⟩
    · rintro ⟨⟨subclaim, st'⟩, hnative⟩
      exact ⟨(subclaim.expectedEvaluation, subclaim.point, st'), (hiff _ _ _).mpr hnative⟩
  · intro expected point st' subclaim st'' hcircuit hnative
    rw [(hiff st' expected point).mp hcircuit] at hnative
    obtain ⟨rfl, rfl⟩ := Prod.mk.inj (Except.ok.inj hnative)
    exact ⟨rfl, rfl, rfl⟩

theorem circuit_verifier_eq_native_one :
    ((verifyAllSumcheck (zeroOracle (ZMod 3) (ZMod 3) (ZMod 3)) [[2, 0]] 2 ⟨1, 1, 1⟩
          ()).Satisfiable ↔
        ∃ out, verifyAsSubprotocol (zeroOracle (ZMod 3) (ZMod 3) (ZMod 3)) ⟨1, 1, 1⟩ 2 [[2, 0]]
          () = .ok out) ∧
      ∀ expected point st' subclaim st'',
        verifyAllSumcheck (zeroOracle (ZMod 3) (ZMod 3) (ZMod 3)) [[2, 0]] 2 ⟨1, 1, 1⟩ ()
          (expected, point, st') →
        verifyAsSubprotocol (zeroOracle (ZMod 3) (ZMod 3) (ZMod 3)) ⟨1, 1, 1⟩ 2 [[2, 0]] () =
          .ok (subclaim, st'') →
        subclaim.point = point ∧ subclaim.expectedEvaluation = expected ∧ st'' = st' :=
  have hO : (zeroOracle (ZMod 3) (ZMod 3) (ZMod 3)).AbsorbsSizes := fun _ _ => rfl
  have hmax : (⟨1, 1, 1⟩ : PolynomialInfo).maxMultiplicands < 3 := by decide
  have hevals : ∀ evals ∈ [[(2 : ZMod 3), 0]], evals.length = 1 + 1 := by decide
  circuit_verifier_eq_native hO ⟨1, 1, 1⟩ (by decide) hmax 2 [[2, 0]] rfl hevals ()

/-- A constant is verified in the circuit, but not by the native verifier, which asks for a
round. -/
theorem constant_verified :
    (verifyAllSumcheck (zeroOracle (ZMod 3) (ZMod 3) (ZMod 3)) [] 2 ⟨1, 0, 1⟩ ()).Satisfiable ∧
      ¬∃ out, verifyAsSubprotocol (zeroOracle (ZMod 3) (ZMod 3) (ZMod 3)) ⟨1, 0, 1⟩ 2 [] () =
        .ok out := by
  constructor
  · exact ⟨(2, [], ()), rfl⟩
  · rintro ⟨out, hout⟩
    cases hout

end Equal

end Sumcheck

end NexusVm.Nova
