import NexusVm.Nova.Mle

/-!
# Sumcheck

`nova/src/folding/hypernova/ml_sumcheck`.  The random oracle and the multilinear
extensions that it works on come from other crates: a random oracle is any
deterministic state machine, multilinear extensions are tables of evaluations
whose first variable belongs to the least significant bit of an index.
-/

namespace NexusVm.Nova

/-- What a random oracle absorbs: group elements, scalars and sizes. -/
inductive Element (F C : Type)
  | point (c : C)
  | scalar (x : F)
  | size (n : ℕ)
deriving DecidableEq

/-- `CryptographicSponge`: `squeeze` gives as many scalars as asked for,
`squeezeTruncated` an element of the base field. -/
structure RandomOracle (F C B : Type) where
  State : Type
  absorb : State → List (Element F C) → State
  squeeze : State → ℕ → List F × State
  squeezeTruncated : State → B × State
  length_squeeze : ∀ st n, (squeeze st n).1.length = n

/-- `squeeze_field_elements(1)[0]`. -/
def RandomOracle.squeezeOne {F C B : Type} [Zero F] (O : RandomOracle F C B) (st : O.State) :
    F × O.State :=
  ((O.squeeze st 1).1.getD 0 0, (O.squeeze st 1).2)

/-- The oracle that always answers `0`. -/
def zeroOracle (F C B : Type) [Zero F] [Zero B] : RandomOracle F C B where
  State := Unit
  absorb _ _ := ()
  squeeze _ n := (List.replicate n 0, ())
  squeezeTruncated _ := (0, ())
  length_squeeze _ _ := List.length_replicate

/-- `ark_poly::DenseMultilinearExtension`. -/
structure MultilinearExtensions (F : Type) [Field F] where
  Mle : Type
  numVars : Mle → ℕ
  index : Mle → ℕ → F
  fromEvaluationsVec : ℕ → List F → Option Mle
  fixVariable : Mle → F → Mle
  evaluate : Mle → List F → F
  isSome_from : ∀ n evals, (fromEvaluationsVec n evals).isSome ↔ evals.length = 2 ^ n
  numVars_from : ∀ n evals m, fromEvaluationsVec n evals = some m → numVars m = n
  index_from : ∀ n evals m, fromEvaluationsVec n evals = some m →
    ∀ b < 2 ^ n, index m b = evals.getD b 0
  numVars_fix : ∀ m r, numVars (fixVariable m r) = numVars m - 1
  index_fix : ∀ m r b, 2 * b + 1 < 2 ^ numVars m →
    index (fixVariable m r) b = index m (2 * b) + r * (index m (2 * b + 1) - index m (2 * b))
  evaluate_nil : ∀ m, numVars m = 0 → evaluate m [] = index m 0
  evaluate_cons : ∀ m r rs, numVars m = rs.length + 1 →
    evaluate m (r :: rs) = evaluate (fixVariable m r) rs

/-- Evaluations as functions of the index. -/
def tables (F : Type) [Field F] : MultilinearExtensions F where
  Mle := ℕ × (ℕ → F)
  numVars := Prod.fst
  index := Prod.snd
  fromEvaluationsVec n evals :=
    if evals.length = 2 ^ n then some (n, fun b => evals.getD b 0) else none
  fixVariable m r := (m.1 - 1, fun b => m.2 (2 * b) + r * (m.2 (2 * b + 1) - m.2 (2 * b)))
  evaluate m point :=
    (point.foldl (fun evals r b => evals (2 * b) + r * (evals (2 * b + 1) - evals (2 * b))) m.2) 0
  isSome_from n evals := by split_ifs with h <;> simp [h]
  numVars_from n evals m h := by
    split_ifs at h
    rw [← Option.some.inj h]
  index_from n evals m h b _ := by
    split_ifs at h
    rw [← Option.some.inj h]
  numVars_fix _ _ := rfl
  index_fix _ _ _ _ := rfl
  evaluate_nil _ _ := rfl
  evaluate_cons _ _ _ _ := rfl

namespace Sumcheck

inductive Error
  | reject
deriving DecidableEq

/-- Description of a polynomial. -/
structure PolynomialInfo where
  maxMultiplicands : ℕ
  numVariables : ℕ
  numTerms : ℕ
deriving DecidableEq

def PolynomialInfo.elements {F C : Type} (info : PolynomialInfo) : List (Element F C) :=
  [.size info.maxMultiplicands, .size info.numVariables, .size info.numTerms]

section Polynomials

variable {F : Type} [Field F] (M : MultilinearExtensions F)

/-- A sum of products of multilinear extensions.  The table that the code looks
up pointers in only shares equal multiplicands. -/
structure ListOfProductsOfPolynomials where
  maxMultiplicands : ℕ
  numVariables : ℕ
  products : List (F × List M.Mle)

variable {M}

def ListOfProductsOfPolynomials.new (numVariables : ℕ) : ListOfProductsOfPolynomials M :=
  ⟨0, numVariables, []⟩

def ListOfProductsOfPolynomials.info (g : ListOfProductsOfPolynomials M) : PolynomialInfo :=
  ⟨g.maxMultiplicands, g.numVariables, g.products.length⟩

/-- Adds a product with a coefficient. -/
def ListOfProductsOfPolynomials.addProduct {E : Type} (g : ListOfProductsOfPolynomials M)
    (product : List M.Mle) (coefficient : F) : Run E (ListOfProductsOfPolynomials M) := do
  Run.assert (product ≠ [])
  product.forM fun m => Run.assert (M.numVars m = g.numVariables)
  .ok
    { maxMultiplicands := max g.maxMultiplicands product.length
      numVariables := g.numVariables
      products := g.products ++ [(coefficient, product)] }

theorem addProduct_eq_ok {E : Type} {g g' : ListOfProductsOfPolynomials M} {product : List M.Mle}
    {coefficient : F} : (g.addProduct product coefficient : Run E _) = .ok g' ↔
      product ≠ [] ∧ (∀ m ∈ product, M.numVars m = g.numVariables) ∧
        g' = ⟨max g.maxMultiplicands product.length, g.numVariables,
          g.products ++ [(coefficient, product)]⟩ := by
  simp only [ListOfProductsOfPolynomials.addProduct, bind_eq_ok, assert_eq_ok, forM_eq_ok,
    exists_const, Except.ok.injEq]
  rw [eq_comm (a := g')]

end Polynomials

section Prover

variable {F C B : Type} [Field F] {M : MultilinearExtensions F} (O : RandomOracle F C B)

/-- One multiplicand at `t` in its first variable, at index `b` in the others. -/
def lineAt (m : M.Mle) (b : ℕ) (t : F) : F :=
  M.index m (2 * b) + t * (M.index m (2 * b + 1) - M.index m (2 * b))

/-- The message of a round in which `n` more variables follow: evaluations at
`0, 1, ..` of the sum over the other variables. -/
def proveRound (products : List (F × List M.Mle)) (degree n : ℕ) : List F :=
  (List.range (degree + 1)).map fun t : ℕ =>
    ((List.range (2 ^ n)).map fun b : ℕ =>
      (products.map fun (coefficient, product) =>
        product.foldl (fun p m => p * lineAt m b (t : F)) coefficient).sum).sum

/-- The rounds of the prover: messages, randomness and the oracle's last state. -/
def proveRounds (degree : ℕ) :
    ℕ → List (F × List M.Mle) → O.State → List (List F) × List F × O.State
  | 0, _, st => ([], [], st)
  | n + 1, products, st =>
      let msg := proveRound products degree n
      let st := O.absorb st (msg.map .scalar)
      let (r, st) := O.squeezeOne st
      let st := O.absorb st [.scalar r]
      let fixed := products.map fun (c, product) => (c, product.map (M.fixVariable · r))
      let (msgs, rs, st) := proveRounds degree n fixed st
      (msg :: msgs, r :: rs, st)

/-- The proof, the randomness and the oracle's last state. -/
def proveAsSubprotocol {E : Type} (g : ListOfProductsOfPolynomials M) (st : O.State) :
    Run E (List (List F) × List F × O.State) := do
  -- "Attempt to prove a constant."
  Run.assert (g.numVariables ≠ 0)
  let st := O.absorb st g.info.elements
  .ok (proveRounds O g.maxMultiplicands g.numVariables g.products st)

end Prover

section Interpolate

variable {F : Type} [Field F] [DecidableEq F]

/-- The last loop for at most 33 evaluations: the ratio of the denominators is
kept in integers. -/
def interpolateInt {E : Type} (p : List F) (prod evalAt : F) :
    ℕ → ℤ → ℕ → F → Run E F
  | 0, _, _, res => .ok res
  | i + 1, ratioNumerator, ratioEnumerator, res => do
      let denom : F := ((p.length - 1).factorial : F) * (ratioNumerator : F) * (evalAt - (i : F))
      Run.assert (denom ≠ 0)
      let res := res + p.getD i 0 * prod * (ratioEnumerator : F) / denom
      if i ≠ 0 then
        interpolateInt p prod evalAt i (ratioNumerator * -((p.length : ℤ) - (i : ℤ)))
          (ratioEnumerator * i) res
      else interpolateInt p prod evalAt i ratioNumerator ratioEnumerator res

/-- The last loop for more evaluations, in the field. -/
def interpolateField {E : Type} (p : List F) (prod evalAt : F) : ℕ → F → F → F → Run E F
  | 0, _, _, res => .ok res
  | i + 1, denomUp, denomDown, res => do
      let denom : F := denomUp * (evalAt - (i : F))
      Run.assert (denom ≠ 0)
      let res := res + p.getD i 0 * prod * denomDown / denom
      if i ≠ 0 then
        interpolateField p prod evalAt i (denomUp * -((p.length - i : ℕ) : F)) (denomDown * (i : F))
          res
      else interpolateField p prod evalAt i denomUp denomDown res

/-- `interpolate_uni_poly`: the value at a point of the polynomial with these
evaluations at `0, 1, ..`. -/
def interpolateUniPoly {E : Type} (p : List F) (evalAt : F) : Run E F := do
  -- `p_i[len - 1]`
  Run.assert (0 < p.length)
  -- the desired value has been passed
  match (List.range p.length).find? fun i : ℕ => decide (evalAt = (i : F)) with
  | some i => .ok (p.getD i 0)
  | none =>
      let prod := ((List.range p.length).map fun i : ℕ => evalAt - (i : F)).prod
      if p.length ≤ 33 then interpolateInt p prod evalAt p.length 1 1 0
      else interpolateField p prod evalAt p.length ((p.length - 1).factorial : F) 1 0

end Interpolate

/-! ## Verifier, accepted proofs and messages for the challenge `0` -/

section Verifier

variable {F C B : Type} [Field F] [DecidableEq F] (O : RandomOracle F C B)

/-- What is left to check of a proof. -/
structure SubClaim (F : Type) where
  point : List F
  expectedEvaluation : F
deriving DecidableEq

/-- The rounds of the verifier: the polynomials received, the randomness and the
oracle's last state. -/
def verifyRounds {E : Type} : ℕ → List (List F) → O.State → Run E (List (List F × F) × O.State)
  | 0, _, st => .ok ([], st)
  | _ + 1, [], _ => .error .panic
  | n + 1, msg :: msgs, st => do
      let st := O.absorb st (msg.map .scalar)
      let (r, st) := O.squeezeOne st
      let st := O.absorb st [.scalar r]
      let (rounds, st) ← verifyRounds n msgs st
      .ok ((msg, r) :: rounds, st)

/-- The loop of `check_and_generate_subclaim`. -/
def checkRounds (maxMultiplicands : ℕ) : F → List (List F × F) → Run Error F
  | expected, [] => .ok expected
  | expected, (evaluations, r) :: rounds => do
      Run.assert (evaluations.length = maxMultiplicands + 1)
      Run.assert (1 < evaluations.length)
      Run.failIf (evaluations.getD 0 0 + evaluations.getD 1 0 ≠ expected) .reject
      let expected ← interpolateUniPoly evaluations r
      checkRounds maxMultiplicands expected rounds

/-- The subclaim and the oracle's last state. -/
def verifyAsSubprotocol (info : PolynomialInfo) (claimedSum : F) (proof : List (List F))
    (st : O.State) : Run Error (SubClaim F × O.State) := do
  let st := O.absorb st info.elements
  let (rounds, st) ← verifyRounds O info.numVariables proof st
  -- "Verifier has not finished."
  Run.assert (info.numVariables ≠ 0)
  let expected ← checkRounds info.maxMultiplicands claimedSum rounds
  .ok (⟨rounds.map Prod.snd, expected⟩, st)

end Verifier

section Accepted

variable {F C B : Type} [Field F] [DecidableEq F] {O : RandomOracle F C B}

omit [DecidableEq F] in
theorem length_of_verifyRounds {E : Type} {n : ℕ} {msgs : List (List F)} {st : O.State}
    {out : List (List F × F) × O.State}
    (h : (verifyRounds O n msgs st : Run E (List (List F × F) × O.State)) = .ok out) :
    out.1.length = n := by
  induction n generalizing msgs st out with
  | zero =>
      obtain rfl := Except.ok.inj h
      rfl
  | succ n ih =>
      cases msgs with
      | nil => cases h
      | cons msg msgs =>
          obtain ⟨out', hrest, heq⟩ := bind_eq_ok.mp h
          obtain rfl := Except.ok.inj heq
          simpa using ih hrest

/-- The point of a subclaim has a coordinate for each variable. -/
theorem length_point {info : PolynomialInfo} {claimedSum : F} {proof : List (List F)}
    {st : O.State} {out : SubClaim F × O.State}
    (h : verifyAsSubprotocol O info claimedSum proof st = .ok out) :
    out.1.point.length = info.numVariables ∧ info.numVariables ≠ 0 := by
  simp only [verifyAsSubprotocol, bind_eq_ok, assert_eq_ok, exists_const, Except.ok.injEq] at h
  obtain ⟨⟨rounds, st'⟩, hrounds, hne, expected, -, rfl⟩ := h
  constructor
  · simpa using length_of_verifyRounds hrounds
  · exact hne

/-- With an evaluation there is no panic on the length. -/
theorem interpolateUniPoly_of_pos {E : Type} {p : List F} (hp : 0 < p.length) (evalAt : F) :
    (interpolateUniPoly p evalAt : Run E F) =
      match (List.range p.length).find? fun i : ℕ => decide (evalAt = (i : F)) with
      | some i => .ok (p.getD i 0)
      | none =>
          let prod := ((List.range p.length).map fun i : ℕ => evalAt - (i : F)).prod
          if p.length ≤ 33 then interpolateInt p prod evalAt p.length 1 1 0
          else interpolateField p prod evalAt p.length ((p.length - 1).factorial : F) 1 0 := by
  have hassert : (Run.assert (0 < p.length) : Run E Unit) = .ok () := assert_eq_ok.mpr hp
  rw [interpolateUniPoly, hassert]
  rfl

/-- Two evaluations can be interpolated in every field. -/
theorem interpolateUniPoly_pair {E : Type} (a b x : F) :
    ∃ v, (interpolateUniPoly [a, b] x : Run E F) = .ok v := by
  rw [interpolateUniPoly_of_pos (p := [a, b]) (Nat.succ_pos 1)]
  cases hfind : (List.range [a, b].length).find? fun i : ℕ => decide (x = (i : F)) with
  | some i => exact ⟨_, rfl⟩
  | none =>
      have hne : ∀ i : ℕ, i < 2 → x ≠ (i : F) := by
        intro i hi
        have := List.find?_eq_none.mp hfind i (List.mem_range.mpr hi)
        simpa using this
      have h0 : x ≠ 0 := by simpa using hne 0 (by decide)
      have h1 : x - 1 ≠ 0 := sub_ne_zero.mpr (by simpa using hne 1 (by decide))
      simp [interpolateInt, Run.assert, h0, h1, bind, Except.bind]

/-- For every oracle and every claimed sum there are messages that are accepted. -/
theorem exists_rounds (n : ℕ) (v : F) (st : O.State) :
    ∃ msgs rounds st' expected,
      (verifyRounds O n msgs st : Run Error (List (List F × F) × O.State)) = .ok (rounds, st') ∧
        checkRounds 1 v rounds = .ok expected := by
  induction n generalizing v st with
  | zero => exact ⟨[], [], st, v, rfl, rfl⟩
  | succ n ih =>
      obtain ⟨v', hv'⟩ := interpolateUniPoly_pair (E := Error) v 0
        (O.squeezeOne (O.absorb st ([v, 0].map .scalar))).1
      obtain ⟨msgs, rounds, st', expected, hrounds, hcheck⟩ := ih v'
        (O.absorb (O.squeezeOne (O.absorb st ([v, 0].map .scalar))).2
          [.scalar (O.squeezeOne (O.absorb st ([v, 0].map .scalar))).1])
      refine ⟨[v, 0] :: msgs, _, st', expected, bind_eq_ok.mpr ⟨_, hrounds, rfl⟩, ?_⟩
      have hsum : (Run.failIf ([v, 0].getD 0 0 + [v, 0].getD 1 0 ≠ v) Error.reject) = .ok () :=
        failIf_eq_ok.mpr (not_not.mpr (by simp))
      exact bind_eq_ok.mpr ⟨(), rfl, bind_eq_ok.mpr ⟨(), rfl, bind_eq_ok.mpr ⟨(), hsum,
        bind_eq_ok.mpr ⟨v', hv', hcheck⟩⟩⟩⟩

/-- Accepted messages have at least two evaluations. -/
theorem maxMultiplicands_pos {info : PolynomialInfo} {claimedSum : F} {proof : List (List F)}
    {st : O.State} {out : SubClaim F × O.State}
    (h : verifyAsSubprotocol O info claimedSum proof st = .ok out) :
    0 < info.maxMultiplicands := by
  simp only [verifyAsSubprotocol, bind_eq_ok, assert_eq_ok, exists_const] at h
  obtain ⟨⟨rounds, st'⟩, hrounds, hne, expected, hcheck, -⟩ := h
  cases rounds with
  | nil => exact absurd (length_of_verifyRounds hrounds).symm hne
  | cons round rounds =>
      simp only [checkRounds, bind_eq_ok, assert_eq_ok, exists_const] at hcheck
      obtain ⟨hlen, hlt, -⟩ := hcheck
      omega

/-- Evaluations `a` at `0` and `b` at `1`, out of `degree + 1`. -/
def forgedMessage (degree : ℕ) (a b : F) : List F := a :: b :: List.replicate (degree - 1) 0

theorem interpolateUniPoly_zero {E : Type} (a : F) (p : List F) :
    (interpolateUniPoly (a :: p) 0 : Run E F) = .ok a := by
  have hfind : (List.range (a :: p).length).find? (fun i : ℕ => decide ((0 : F) = (i : F))) =
      some 0 := by
    rw [List.length_cons, List.range_succ_eq_map, List.find?_cons_of_pos (by simp)]
  rw [interpolateUniPoly_of_pos (p := a :: p) (Nat.succ_pos _), hfind]
  rfl

/-- With the challenge `0` any claimed sum can be turned into the subclaim `1`. -/
theorem checkRounds_forged {degree : ℕ} (hdegree : 0 < degree) (n : ℕ) (v : F) :
    checkRounds degree v
      ((forgedMessage degree 1 (v - 1), 0) :: List.replicate n (forgedMessage degree 1 0, 0)) =
        .ok 1 := by
  have hlen : ∀ b : F, (forgedMessage degree 1 b).length = degree + 1 := by
    intro b
    rw [forgedMessage, List.length_cons, List.length_cons, List.length_replicate]
    omega
  have hround : ∀ (b : F) (rounds : List (List F × F)),
      checkRounds degree (1 + b) ((forgedMessage degree 1 b, 0) :: rounds) =
        checkRounds degree 1 rounds := by
    intro b rounds
    have hone : 1 < (forgedMessage degree 1 b).length := by
      rw [hlen]
      omega
    have hassert : ∀ {c : Prop} [Decidable c], c → (Run.assert c : Run Error Unit) = .ok () :=
      fun hc => assert_eq_ok.mpr hc
    have hsum : (Run.failIf ((forgedMessage degree 1 b).getD 0 0 +
        (forgedMessage degree 1 b).getD 1 0 ≠ 1 + b) Error.reject) = .ok () :=
      failIf_eq_ok.mpr (not_not.mpr rfl)
    rw [checkRounds, hassert (hlen b), hassert hone, hsum]
    show (interpolateUniPoly (forgedMessage degree 1 b) 0 >>= _) = _
    rw [forgedMessage, interpolateUniPoly_zero]
    rfl
  have hfirst := hround (v - 1) (List.replicate n (forgedMessage degree 1 0, 0))
  rw [add_sub_cancel] at hfirst
  rw [hfirst]
  clear hfirst
  induction n with
  | zero => rfl
  | succ n ih =>
      have hstep := hround 0 (List.replicate n (forgedMessage degree 1 0, 0))
      rw [add_zero] at hstep
      rw [List.replicate_succ, hstep]
      exact ih

omit [DecidableEq F] in
theorem verifyRounds_zeroOracle {C B E : Type} [Zero B] (msgs : List (List F)) :
    (verifyRounds (zeroOracle F C B) msgs.length msgs () : Run E _) =
      .ok (msgs.map fun msg => (msg, 0), ()) := by
  induction msgs with
  | nil => rfl
  | cons msg msgs ih => exact bind_eq_ok.mpr ⟨_, ih, rfl⟩

/-- A proof that leaves the subclaim `1`. -/
theorem exists_forged {C B : Type} [Zero B] (info : PolynomialInfo)
    (hmax : 0 < info.maxMultiplicands) (hvars : 0 < info.numVariables) (v : F) :
    ∃ msgs point, verifyAsSubprotocol (zeroOracle F C B) info v msgs () = .ok (⟨point, 1⟩, ()) := by
  obtain ⟨n, hn⟩ := Nat.exists_eq_succ_of_ne_zero hvars.ne'
  let msgs := forgedMessage info.maxMultiplicands 1 (v - 1) ::
    List.replicate n (forgedMessage info.maxMultiplicands 1 0)
  have hlen : msgs.length = info.numVariables := by
    rw [hn, List.length_cons, List.length_replicate]
  have hrounds := verifyRounds_zeroOracle (C := C) (B := B) (E := Error) msgs
  rw [hlen] at hrounds
  have hcheck : checkRounds info.maxMultiplicands v (msgs.map fun msg => (msg, 0)) = .ok 1 := by
    have hforged := checkRounds_forged hmax n v
    simpa only [msgs, List.map_cons, List.map_replicate] using hforged
  refine ⟨msgs, (msgs.map fun msg => (msg, (0 : F))).map Prod.snd, ?_⟩
  exact bind_eq_ok.mpr ⟨_, hrounds, bind_eq_ok.mpr ⟨(), assert_eq_ok.mpr hvars.ne',
    bind_eq_ok.mpr ⟨1, hcheck, rfl⟩⟩⟩

end Accepted

end Sumcheck

end NexusVm.Nova
