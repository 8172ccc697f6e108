import NexusVm.Bn254
import NexusVm.Nova.Interpolate
import NexusVm.Numerals
import Mathlib.Algebra.CharP.Lemmas
import Mathlib.Data.Nat.Prime.Factorial

/-!
# Interpolation in machine integers

`interpolate_uni_poly` of the sumcheck verifier as it is written: the scan over the nodes, then
one of three loops, in 64-bit integers, in 128-bit integers or in the field.  An integer out of
the range of its type panics here, so a result means that no operation overflows in any build.
-/

namespace NexusVm.Nova.Sumcheck.Machine

open Polynomial

section Integers

variable {E : Type}

/-- A result in the signed type of `w` bits. -/
def signed (w : ℕ) (x : ℤ) : Run E ℤ := do
  Run.assert (-2 ^ (w - 1) ≤ x ∧ x < 2 ^ (w - 1))
  .ok x

/-- A result in the unsigned type of `w` bits. -/
def unsigned (w : ℕ) (n : ℕ) : Run E ℕ := do
  Run.assert (n < 2 ^ w)
  .ok n

theorem signed_eq_ok {w : ℕ} {x y : ℤ} :
    (signed w x : Run E ℤ) = .ok y ↔ (-2 ^ (w - 1) ≤ x ∧ x < 2 ^ (w - 1)) ∧ x = y := by
  simp only [signed, bind_eq_ok, assert_eq_ok, exists_const, Except.ok.injEq]

theorem unsigned_eq_ok {w n m : ℕ} : (unsigned w n : Run E ℕ) = .ok m ↔ n < 2 ^ w ∧ n = m := by
  simp only [unsigned, bind_eq_ok, assert_eq_ok, exists_const, Except.ok.injEq]

/-- `u64_factorial` and `u128_factorial`. -/
def uintFactorial (w a : ℕ) : Run E ℕ :=
  (List.range' 1 a).foldlM (fun res i => unsigned w (res * i)) 1

theorem uintFactorial_eq {w a : ℕ} (h : a.factorial < 2 ^ w) :
    (uintFactorial w a : Run E ℕ) = .ok a.factorial := by
  induction a with
  | zero => rfl
  | succ a ih =>
      have hle : a.factorial ≤ (a + 1).factorial := Nat.factorial_le (Nat.le_succ a)
      have hprev := ih (hle.trans_lt h)
      have hmul : a.factorial * (1 + 1 * a) = (a + 1).factorial := by
        rw [Nat.factorial_succ, one_mul, Nat.add_comm 1 a, Nat.mul_comm]
      rw [uintFactorial] at hprev ⊢
      rw [List.range'_concat, List.foldlM_append, hprev]
      show ((unsigned w (a.factorial * (1 + 1 * a)) : Run E ℕ) >>= pure) = _
      rw [hmul, unsigned_eq_ok.mpr ⟨h, rfl⟩]
      rfl

end Integers

section Source

variable {F : Type} [Field F]

/-- `field_factorial`. -/
def fieldFactorial (a : ℕ) : F :=
  (List.range' 1 a).foldl (fun (res : F) (i : ℕ) => res * (i : F)) 1

/-- `ratio_numerator_f`. -/
def ratioNumeratorF {E : Type} (w : ℕ) (ratioNumerator : ℤ) : Run E F :=
  if ratioNumerator < 0 then do
    let neg ← signed w (-ratioNumerator)
    .ok (-(neg.toNat : F))
  else .ok (ratioNumerator.toNat : F)

variable [DecidableEq F]

/-- The first loop: the value at a node that is passed, or `check`, `prod` and `evals`. -/
def passNodes (p : List F) (evalAt : F) : List ℕ → F → F → List F → F ⊕ F × F × List F
  | [], check, prod, evals => .inr (check, prod, evals)
  | i :: is, check, prod, evals =>
      if evalAt = check then .inl (p.getD (i - 1) 0)
      else
        let check := check + 1
        let tmp := evalAt - check
        passNodes p evalAt is check (prod * tmp) (evals ++ [tmp])

/-- The loop over the nodes in reverse, with integers of `w` bits. -/
def interpolateInts {E : Type} (w : ℕ) (p evals : List F) (prod lastDenom : F) :
    ℕ → ℤ → ℕ → F → Run E F
  | 0, _, _, res => .ok res
  | i + 1, ratioNumerator, ratioEnumerator, res => do
      let numeratorF : F ← ratioNumeratorF w ratioNumerator
      let denom := lastDenom * numeratorF * evals.getD i 0
      Run.assert (denom ≠ 0)
      let res := res + p.getD i 0 * prod * (ratioEnumerator : F) / denom
      if i ≠ 0 then do
        let gap ← signed w ((p.length : ℤ) - (i : ℤ))
        let neg ← signed w (-gap)
        let ratioNumerator ← signed w (ratioNumerator * neg)
        let ratioEnumerator ← unsigned w (ratioEnumerator * i)
        interpolateInts w p evals prod lastDenom i ratioNumerator ratioEnumerator res
      else interpolateInts w p evals prod lastDenom i ratioNumerator ratioEnumerator res

/-- The same loop with field elements only. -/
def interpolateElements {E : Type} (p evals : List F) (prod : F) : ℕ → F → F → F → Run E F
  | 0, _, _, res => .ok res
  | i + 1, denomUp, denomDown, res => do
      let denom := denomUp * evals.getD i 0
      Run.assert (denom ≠ 0)
      let res := res + p.getD i 0 * prod * denomDown / denom
      if i ≠ 0 then
        interpolateElements p evals prod i (denomUp * -((p.length - i : ℕ) : F))
          (denomDown * (i : F)) res
      else interpolateElements p evals prod i denomUp denomDown res

/-- `interpolate_uni_poly`. -/
def interpolateUniPoly {E : Type} (p : List F) (evalAt : F) : Run E F :=
  match passNodes p evalAt (List.range' 1 (p.length - 1)) 0 evalAt [evalAt] with
  | .inl value => .ok value
  | .inr (check, prod, evals) => do
      -- `p_i[len - 1]`
      Run.assert (0 < p.length)
      if evalAt = check then .ok (p.getD (p.length - 1) 0)
      else if p.length ≤ 20 then do
        let lastDenom ← uintFactorial 64 (p.length - 1)
        interpolateInts 64 p evals prod (lastDenom : F) p.length 1 1 0
      else if p.length ≤ 33 then do
        let lastDenom ← uintFactorial 128 (p.length - 1)
        interpolateInts 128 p evals prod (lastDenom : F) p.length 1 1 0
      else interpolateElements p evals prod p.length (fieldFactorial (p.length - 1)) 1 0

end Source

/-! ## The loops and the value -/

section Loops

variable {F : Type} [Field F]

theorem fieldFactorial_eq (a : ℕ) : (fieldFactorial a : F) = a.factorial := by
  induction a with
  | zero => exact Nat.cast_one.symm
  | succ a ih =>
      rw [fieldFactorial] at ih ⊢
      rw [List.range'_concat, List.foldl_append, ih, List.foldl_cons, List.foldl_nil, one_mul,
        Nat.add_comm 1 a, Nat.factorial_succ, Nat.cast_mul, mul_comm]

/-- What the first loop pushes: the differences to the nodes up to `k`. -/
def differences (evalAt : F) (k : ℕ) : List F := (List.range (k + 1)).map fun i : ℕ => evalAt - i

theorem differences_succ (evalAt : F) (k : ℕ) :
    differences evalAt (k + 1) = differences evalAt k ++ [evalAt - ((k : F) + 1)] := by
  rw [differences, List.range_succ, List.map_append, List.map_singleton, Nat.cast_succ]
  rfl

theorem getD_differences (evalAt : F) {k i : ℕ} (hi : i ≤ k) :
    (differences evalAt k).getD i 0 = evalAt - i := by
  have hlt : i < (differences evalAt k).length := by
    rw [differences, List.length_map, List.length_range]
    omega
  rw [List.getD_eq_getElem _ _ hlt]
  simp only [differences, List.getElem_map, List.getElem_range]

/-- A numerator in range is cast as it is. -/
theorem ratioNumeratorF_eq {E : Type} {w : ℕ} {num : ℤ} (h : num.natAbs < 2 ^ (w - 1)) :
    (ratioNumeratorF w num : Run E F) = .ok (num : F) := by
  have hpow : ((2 ^ (w - 1) : ℕ) : ℤ) = 2 ^ (w - 1) := by push_cast; rfl
  rw [ratioNumeratorF]
  split_ifs with hneg
  · have hrange : -2 ^ (w - 1) ≤ -num ∧ -num < 2 ^ (w - 1) := by omega
    have hcast : ((-num).toNat : F) = ((-num : ℤ) : F) := by
      rw [← Int.cast_natCast, Int.toNat_of_nonneg (by omega)]
    rw [signed_eq_ok.mpr ⟨hrange, rfl⟩]
    show Except.ok (-((-num).toNat : F)) = _
    rw [hcast, Int.cast_neg, neg_neg]
  · rw [← Int.cast_natCast, Int.toNat_of_nonneg (by omega)]

/-- The numerator at the node `i` of `0, .., d`. -/
def numeratorAt (d i : ℕ) : ℤ := (-1) ^ (d - i) * ((d - i).factorial : ℤ)

theorem natAbs_numeratorAt (d i : ℕ) : (numeratorAt d i).natAbs = (d - i).factorial := by
  rw [numeratorAt, Int.natAbs_mul, Int.natAbs_pow, Int.natAbs_neg, Int.natAbs_one, one_pow,
    one_mul, Int.natAbs_natCast]

theorem numeratorAt_step {d i : ℕ} (hi : i < d) :
    numeratorAt d (i + 1) * -(((d + 1 : ℕ) : ℤ) - ((i + 1 : ℕ) : ℤ)) = numeratorAt d i := by
  have hsub : d - i = d - (i + 1) + 1 := by omega
  have hcast : ((d - (i + 1) + 1 : ℕ) : ℤ) = ((d + 1 : ℕ) : ℤ) - ((i + 1 : ℕ) : ℤ) := by omega
  rw [numeratorAt, numeratorAt, hsub, Nat.factorial_succ, pow_succ, Nat.cast_mul, hcast]
  ring

variable [DecidableEq F]

/-- **The first loop** finds the node that is passed, or forms the product over all nodes. -/
theorem passNodes_eq (p : List F) (evalAt : F) (k m : ℕ) :
    passNodes p evalAt (List.range' (k + 1) m) k (differences evalAt k).prod
        (differences evalAt k) =
      match (List.range' k m).find? fun i : ℕ => decide (evalAt = (i : F)) with
      | some i => .inl (p.getD i 0)
      | none => .inr (((k + m : ℕ) : F), (differences evalAt (k + m)).prod,
          differences evalAt (k + m)) := by
  induction m generalizing k with
  | zero => rfl
  | succ m ih =>
      rw [List.range'_succ, List.range'_succ, passNodes, List.find?_cons]
      by_cases hnode : evalAt = (k : F)
      · rw [if_pos hnode, decide_eq_true hnode]
        rfl
      · have hnext := ih (k + 1)
        rw [differences_succ, List.prod_append, List.prod_singleton, Nat.cast_succ] at hnext
        rw [if_neg hnode, decide_eq_false hnode]
        dsimp only
        rw [hnext, Nat.add_right_comm k 1 m, Nat.add_assoc k m 1]

/-- **The integer loop does not overflow** while the largest factorial fits. -/
theorem interpolateInts_eq {E : Type} {w d : ℕ} {p : List F} (hlen : p.length = d + 1)
    (hfits : d.factorial < 2 ^ (w - 1)) (evalAt prod : F) {i : ℕ} (hi : i ≤ d) {enum : ℕ}
    (henum : enum * i.factorial = d.factorial) (res : F) :
    (interpolateInts w p (differences evalAt d) prod (d.factorial : F) (i + 1) (numeratorAt d i)
        enum res : Run E F) =
      interpolateInt p prod evalAt (i + 1) (numeratorAt d i) enum res := by
  have hpred : p.length - 1 = d := by omega
  have habs : ∀ j, (numeratorAt d j).natAbs < 2 ^ (w - 1) := by
    intro j
    rw [natAbs_numeratorAt]
    exact (Nat.factorial_le (Nat.sub_le d j)).trans_lt hfits
  induction i generalizing enum res with
  | zero =>
      rw [interpolateInts, interpolateInt, ratioNumeratorF_eq (habs 0), hpred,
        getD_differences evalAt hi]
      rfl
  | succ i ih =>
      have hpow : ((2 ^ (w - 1) : ℕ) : ℤ) = 2 ^ (w - 1) := by push_cast; rfl
      have hself : d ≤ d.factorial := Nat.self_le_factorial d
      have hgap : (signed w ((p.length : ℤ) - ((i + 1 : ℕ) : ℤ)) : Run E ℤ) =
          .ok ((p.length : ℤ) - ((i + 1 : ℕ) : ℤ)) := by
        rw [signed_eq_ok]
        omega
      have hneg : (signed w (-((p.length : ℤ) - ((i + 1 : ℕ) : ℤ))) : Run E ℤ) =
          .ok (-((p.length : ℤ) - ((i + 1 : ℕ) : ℤ))) := by
        rw [signed_eq_ok]
        omega
      have hnum : numeratorAt d (i + 1) * -((p.length : ℤ) - ((i + 1 : ℕ) : ℤ)) =
          numeratorAt d i := by
        rw [hlen]
        exact numeratorAt_step hi
      have hnext : (signed w (numeratorAt d i) : Run E ℤ) = .ok (numeratorAt d i) := by
        have hrange := habs i
        rw [signed_eq_ok]
        omega
      have henum' : enum * (i + 1) * i.factorial = d.factorial := by
        rw [← henum, Nat.factorial_succ]
        ring
      have hle : enum * (i + 1) ≤ d.factorial := by
        rw [← henum']
        exact Nat.le_mul_of_pos_right _ (Nat.factorial_pos i)
      have hword : 2 ^ (w - 1) ≤ 2 ^ w := Nat.pow_le_pow_right Nat.two_pos (Nat.sub_le w 1)
      have henum_ok : (unsigned w (enum * (i + 1)) : Run E ℕ) = .ok (enum * (i + 1)) :=
        unsigned_eq_ok.mpr ⟨hle.trans_lt (hfits.trans_le hword), rfl⟩
      rw [interpolateInts, interpolateInt, ratioNumeratorF_eq (habs (i + 1)), hpred,
        getD_differences evalAt hi]
      simp only [ne_eq, Nat.succ_ne_zero, not_false_iff, if_true, hgap, hneg, hnum, hnext,
        henum_ok, bind, Except.bind, ih (by omega) henum']

/-- The field loop is the one that reads the differences again. -/
theorem interpolateElements_eq {E : Type} {p : List F} {d : ℕ} (hlen : p.length = d + 1)
    (evalAt prod : F) {n : ℕ} (hn : n ≤ p.length) (up down res : F) :
    (interpolateElements p (differences evalAt d) prod n up down res : Run E F) =
      interpolateField p prod evalAt n up down res := by
  induction n generalizing up down res with
  | zero => rfl
  | succ i ih =>
      rw [interpolateElements, interpolateField, getD_differences evalAt (by omega)]
      simp only [ih (by omega)]

theorem factorial_lt_word {d : ℕ} (hd : d ≤ 19) : d.factorial < 2 ^ 63 :=
  (Nat.factorial_le hd).trans_lt (by norm_num [Nat.factorial])

theorem factorial_lt_double {d : ℕ} (hd : d ≤ 32) : d.factorial < 2 ^ 127 :=
  (Nat.factorial_le hd).trans_lt (by norm_num [Nat.factorial])

/-- Each of the two integer regimes, from the last node. -/
theorem integer_regime_eq {E : Type} {w d : ℕ} {p : List F} (hlen : p.length = d + 1)
    (hfits : d.factorial < 2 ^ (w - 1)) (evalAt prod : F) :
    ((uintFactorial w d : Run E ℕ) >>= fun lastDenom =>
        interpolateInts w p (differences evalAt d) prod (lastDenom : F) p.length 1 1 0) =
      interpolateInt p prod evalAt p.length 1 1 0 := by
  have hword : 2 ^ (w - 1) ≤ 2 ^ w := Nat.pow_le_pow_right Nat.two_pos (Nat.sub_le w 1)
  have hstart : numeratorAt d d = 1 := by
    rw [numeratorAt, Nat.sub_self, pow_zero, Nat.factorial_zero, Nat.cast_one, one_mul]
  have hloop := interpolateInts_eq (E := E) hlen hfits evalAt prod le_rfl (one_mul d.factorial) 0
  rw [hstart] at hloop
  rw [uintFactorial_eq (hfits.trans_le hword), hlen]
  exact hloop

/-- **The code computes what the loops over integers and field elements compute**: no operation on
machine integers leaves its range. -/
theorem interpolateUniPoly_eq_loops {E : Type} (p : List F) (evalAt : F) :
    (interpolateUniPoly p evalAt : Run E F) = Sumcheck.interpolateUniPoly p evalAt := by
  by_cases hp : p = []
  · rw [hp]
    rfl
  obtain ⟨d, hlen⟩ : ∃ d, p.length = d + 1 :=
    Nat.exists_eq_succ_of_ne_zero (List.length_pos_of_ne_nil hp).ne'
  have hpred : p.length - 1 = d := by omega
  have hpush : differences evalAt 0 = [evalAt] := by
    rw [differences, List.range_one, List.map_singleton, Nat.cast_zero, sub_zero]
  have hscan := passNodes_eq p evalAt 0 d
  rw [hpush, List.prod_singleton, Nat.cast_zero, Nat.zero_add, Nat.zero_add,
    ← List.range_eq_range'] at hscan
  have hprod : (differences evalAt d).prod =
      ((List.range p.length).map fun i : ℕ => evalAt - (i : F)).prod := by
    rw [differences, hlen]
  rw [interpolateUniPoly, Sumcheck.interpolateUniPoly_of_pos (hlen ▸ Nat.succ_pos d), hpred,
    hscan, ← hprod, hlen,
    List.range_succ, List.find?_append]
  cases hfind : (List.range d).find? fun i : ℕ => decide (evalAt = (i : F)) with
  | some i => rfl
  | none =>
      have hassert : (Run.assert (0 < d + 1) : Run E Unit) = .ok () :=
        assert_eq_ok.mpr (Nat.succ_pos d)
      dsimp only [Option.none_or]
      rw [hassert, List.find?_singleton]
      by_cases hlast : evalAt = (d : F)
      · rw [decide_eq_true hlast, if_pos hlast]
        rfl
      · rw [decide_eq_false hlast, if_neg hlast, ← hlen]
        show (if p.length ≤ 20 then _ else if p.length ≤ 33 then _ else _) =
          (if p.length ≤ 33 then _ else _)
        by_cases hsmall : p.length ≤ 20
        · have hfits : d.factorial < 2 ^ (64 - 1) := factorial_lt_word (by omega)
          rw [if_pos hsmall, if_pos (hsmall.trans (by norm_num))]
          exact integer_regime_eq hlen hfits evalAt _
        · rw [if_neg hsmall]
          split_ifs with hmedium
          · have hfits : d.factorial < 2 ^ (128 - 1) := factorial_lt_double (by omega)
            exact integer_regime_eq hlen hfits evalAt _
          · rw [fieldFactorial_eq]
            exact interpolateElements_eq hlen evalAt _ le_rfl _ _ _

omit [DecidableEq F] in
theorem factorial_ne_zero_of_ringChar {d : ℕ} (h : ringChar F = 0 ∨ d < ringChar F) :
    (d.factorial : F) ≠ 0 := by
  intro hzero
  have hdvd := (ringChar.spec F d.factorial).mp hzero
  rcases CharP.char_is_prime_or_zero F (ringChar F) with hprime | hchar
  · have hle : ringChar F ≤ d := (Nat.Prime.dvd_factorial hprime).mp hdvd
    have hpos := hprime.pos
    omega
  · rw [hchar, zero_dvd_iff] at hdvd
    exact Nat.factorial_ne_zero d hdvd

/-- **Interpolation is exact in the code's own arithmetic.**  Through `n` evaluations at
`0, .., n - 1` goes one polynomial of degree below `n`, and the code computes its value at every
point, the nodes included. -/
theorem interpolateUniPoly_unique {E : Type} (p : List F) (hp : p ≠ [])
    (hchar : ringChar F = 0 ∨ p.length ≤ ringChar F) :
    ∃ q : F[X], (q.degree < p.length ∧
        ∀ i : ℕ, i < p.length → q.eval (i : F) = p.getD i 0) ∧
      (∀ q' : F[X], q'.degree < p.length →
        (∀ i : ℕ, i < p.length → q'.eval (i : F) = p.getD i 0) → q' = q) ∧
      ∀ evalAt, (interpolateUniPoly p evalAt : Run E F) = .ok (q.eval evalAt) := by
  obtain ⟨d, hlen⟩ : ∃ d, p.length = d + 1 :=
    Nat.exists_eq_succ_of_ne_zero (List.length_pos_of_ne_nil hp).ne'
  have hd : (d.factorial : F) ≠ 0 := factorial_ne_zero_of_ringChar (by omega)
  have hcard : (Finset.range (d + 1)).card = p.length := by rw [Finset.card_range, hlen]
  obtain ⟨q, hnat, hvalues⟩ := exists_interpolant hd hlen
  have hdegree : q.degree < p.length := by
    rw [hlen, degree_lt_iff_coeff_zero]
    exact natDegree_le_iff_coeff_eq_zero.mp hnat
  have heval : ∀ i : ℕ, i < p.length → q.eval (i : F) = p.getD i 0 := by
    intro i hi
    conv_rhs => rw [← hvalues]
    rw [List.getD_eq_getElem _ _ (by rw [hvalues]; exact hi), List.getElem_map,
      List.getElem_range]
  refine ⟨q, ⟨hdegree, heval⟩, ?_, ?_⟩
  · intro q' hdegree' heval'
    rw [← hcard] at hdegree hdegree'
    apply eq_of_degrees_lt_of_eval_index_eq _ (nodes_injOn hd) hdegree' hdegree
    intro i hi
    have hi' : i < p.length := hlen ▸ Finset.mem_range.mp hi
    rw [heval' i hi', heval i hi']
  · intro evalAt
    have hexact := Sumcheck.interpolateUniPoly_eq (E := E) hnat (x := evalAt) fun _ => hd
    rw [hvalues] at hexact
    rw [interpolateUniPoly_eq_loops, hexact]

/-- The squares of the first nodes in the scalar field of BN254. -/
def squares (n : ℕ) : List (ZMod Bn254.fr) := (List.range n).map fun i : ℕ => (i : ZMod Bn254.fr) ^ 2

/-- Twenty evaluations in integers of 64 bits, 25 in integers of 128 bits and 40 in the field. -/
theorem interpolateUniPoly_unique_squares :
    (∃ q : (ZMod Bn254.fr)[X], ∀ evalAt,
        (interpolateUniPoly (squares 20) evalAt : Run Error _) = .ok (q.eval evalAt)) ∧
      (∃ q : (ZMod Bn254.fr)[X], ∀ evalAt,
        (interpolateUniPoly (squares 25) evalAt : Run Error _) = .ok (q.eval evalAt)) ∧
      ∃ q : (ZMod Bn254.fr)[X], ∀ evalAt,
        (interpolateUniPoly (squares 40) evalAt : Run Error _) = .ok (q.eval evalAt) := by
  have hlen : ∀ n, (squares n).length = n := fun n => by
    rw [squares, List.length_map, List.length_range]
  have hne : ∀ n, 0 < n → squares n ≠ [] := fun n hn =>
    List.ne_nil_of_length_pos (hn.trans_eq (hlen n).symm)
  have hchar : ∀ n ≤ Bn254.fr, (squares n).length ≤ ringChar (ZMod Bn254.fr) := fun n hn => by
    rwa [hlen, ZMod.ringChar_zmod_n]
  refine ⟨?_, ?_, ?_⟩
  · obtain ⟨q, -, -, hq⟩ := interpolateUniPoly_unique (E := Error) (squares 20)
      (hne 20 (by decide)) (Or.inr (hchar 20 (by decide)))
    exact ⟨q, hq⟩
  · obtain ⟨q, -, -, hq⟩ := interpolateUniPoly_unique (E := Error) (squares 25)
      (hne 25 (by decide)) (Or.inr (hchar 25 (by decide)))
    exact ⟨q, hq⟩
  · obtain ⟨q, -, -, hq⟩ := interpolateUniPoly_unique (E := Error) (squares 40)
      (hne 40 (by decide)) (Or.inr (hchar 40 (by decide)))
    exact ⟨q, hq⟩

end Loops

end NexusVm.Nova.Sumcheck.Machine
