import NexusVm.Spartan.Zeromorph

/-!
# The challenges of Zeromorph

What both sides do with the challenge `x`: the loops of `zeromorph/mod.rs` that ask for another one,
and the quotients of `zeromorph/algebra.rs` at roots of unity.
-/

namespace NexusVm.Spartan

open Nova Univariate

section Resampling

variable {F C : Type} [Zero F] [DecidableEq F] {T : Transcript F C}

/-- The loop that asks for another challenge, for at most `fuel` rounds: what is in `x0` at its end,
how often it asked, and the transcript.  It tests `x`, which it does not change. -/
def resampleLoop (x : F) : ℕ → F → ℕ → T.State → Option (F × ℕ × T.State)
  | 0, _, _, _ => none
  | fuel + 1, x0, j, st =>
      if x = 0 then
        let (x0, st) := T.challengeScalar st ("x." ++ toString j)
        resampleLoop x fuel x0 (j + 1) st
      else some (x0, j, st)

/-- The loop as `prove` has it. -/
def proverResample (fuel : ℕ) (x : F) (st : T.State) : Option (F × ℕ × T.State) :=
  resampleLoop x fuel x 0 st

/-- The loop as `verify` has it. -/
def verifierResample (fuel : ℕ) (x : F) (st : T.State) : Option (F × ℕ × T.State) :=
  resampleLoop x fuel x 0 st

/-- The old challenge stays zero, whatever the new ones are. -/
theorem resampleLoop_zero (fuel : ℕ) (x0 : F) (j : ℕ) (st : T.State) :
    resampleLoop 0 fuel x0 j st = none := by
  induction fuel generalizing x0 j st with
  | zero => rfl
  | succ fuel ih =>
      rw [resampleLoop, if_pos rfl]
      exact ih _ _ _

theorem resampleLoop_ne_zero {x : F} (hx : x ≠ 0) (fuel : ℕ) (x0 : F) (j : ℕ) (st : T.State) :
    resampleLoop x (fuel + 1) x0 j st = some (x0, j, st) := by
  rw [resampleLoop, if_neg hx]

/-- **Another challenge.**  Both sides leave their loop, with the same challenge that is not zero
and after asking equally often, exactly if their first challenge is not zero. -/
theorem resample_iff (T : Transcript F C) (cQHat : C) (st : T.State) :
    (∃ fuel x' j st',
      proverResample fuel (lastChallenges cQHat st).1.1 (lastChallenges cQHat st).2 =
        some (x', j, st') ∧
      verifierResample fuel (lastChallenges cQHat st).1.1 (lastChallenges cQHat st).2 =
        some (x', j, st') ∧ x' ≠ 0) ↔
    (lastChallenges cQHat st).1.1 ≠ 0 := by
  constructor
  · rintro ⟨fuel, x', j, st', hprover, -, -⟩ hzero
    rw [hzero, proverResample, resampleLoop_zero] at hprover
    cases hprover
  · intro hx
    exact ⟨1, _, 0, _, resampleLoop_ne_zero hx 0 _ 0 _, resampleLoop_ne_zero hx 0 _ 0 _, hx⟩

/-- A transcript whose challenges are a stream. -/
def streamTranscript (C : Type) (stream : ℕ → F) : Transcript F C where
  State := ℕ
  appendMessage n _ _ := n
  challengeScalar n _ := (stream n, n + 1)

/-- The first challenge of the stream is zero, and all later ones are one. -/
theorem resample_zero_first : ¬ ∀ stream : ℕ → ℚ, (∃ n, 2 ≤ n ∧ stream n ≠ 0) →
    ∃ fuel x' j n,
      proverResample fuel (lastChallenges (T := streamTranscript Unit stream) () Nat.zero).1.1
          (lastChallenges (T := streamTranscript Unit stream) () Nat.zero).2 = some (x', j, n) ∧
      verifierResample fuel (lastChallenges (T := streamTranscript Unit stream) () Nat.zero).1.1
          (lastChallenges (T := streamTranscript Unit stream) () Nat.zero).2 = some (x', j, n) ∧
      x' ≠ 0 := by
  intro h
  obtain ⟨fuel, x', j, n, hprover, -⟩ :=
    h (fun n => if n = 0 then 0 else 1) ⟨2, le_refl 2, one_ne_zero⟩
  have hnone : resampleLoop (T := streamTranscript Unit fun n => if n = 0 then (0 : ℚ) else 1)
      0 fuel 0 0 Nat.zero.succ.succ = none := resampleLoop_zero fuel 0 0 _
  have hsome := hnone.symm.trans hprover
  cases hsome

end Resampling

/-! ## Roots of unity -/

section Roots

variable {F : Type} [Field F]

variable {n k : ℕ}

/-- The product of the model is the sum of the powers. -/
theorem cyclotomic_eq_sum (hk : k ≤ n) (x : F) :
    cyclotomic n k x = ∑ i ∈ Finset.range (2 ^ (n - k)), (x ^ 2 ^ k) ^ i := by
  induction n, hk using Nat.le_induction with
  | base => rw [cyclotomic_self, Nat.sub_self, pow_zero, Finset.sum_range_one, pow_zero]
  | succ n hn ih =>
      have hsize : 2 ^ (n + 1 - k) = 2 ^ (n - k) + 2 ^ (n - k) := by
        rw [Nat.succ_sub hn, pow_succ, mul_two]
      have hpow : (x ^ 2 ^ k) ^ 2 ^ (n - k) = x ^ 2 ^ n := by
        rw [← pow_mul, ← pow_add, Nat.add_sub_cancel' hn]
      rw [cyclotomic_succ hn, ih, hsize, Finset.sum_range_add, mul_add, mul_one]
      congr 1
      rw [Finset.sum_mul]
      apply Finset.sum_congr rfl
      intro i _
      rw [pow_add, hpow, mul_comm]

variable [DecidableEq F]

variable {E : Type}

theorem fieldDiv_guarded (a b : F) :
    Run.Guarded (fieldDiv a b : Run E F) (b ≠ 0) (a / b) :=
  Run.Guarded.congr ((Run.Guarded.assert _).bind fun _ => Run.Guarded.ok _) (and_iff_left trivial)
    fun _ => rfl

/-- **A generalized cyclotomic value** is computed without a division by zero exactly off the roots
of unity of its lower order. -/
theorem evalCyclotomic_guarded (hk : k ≤ n) (x : F) :
    Run.Guarded (evalGeneralizedCyclotomicPolynomial n k x : Run E F) (x ^ 2 ^ k ≠ 1)
      (cyclotomic n k x) := by
  rw [evalGeneralizedCyclotomicPolynomial, foldl_powers, if_pos hk]
  refine (fieldDiv_guarded _ _).congr sub_ne_zero fun hne => ?_
  rw [div_eq_iff (sub_ne_zero.mpr hne), ← cyclotomic_mul hk, mul_comm]

variable {x : F}

omit [DecidableEq F] in
/-- A root of a lower order is one of each higher order. -/
theorem pow_two_pow_eq_one {j n : ℕ} (hj : j ≤ n) (h : x ^ 2 ^ j = 1) : x ^ 2 ^ n = 1 := by
  rw [← Nat.add_sub_cancel' hj, pow_add, pow_mul, h, one_pow]

omit [DecidableEq F] in
/-- Off the roots of the highest order the challenge is good. -/
theorem goodPoint_of_ne {n : ℕ} (hx : x ≠ 0) (hroot : x ^ 2 ^ n ≠ 1) : GoodPoint n x where
  ne_zero := hx
  ne_one _ hk h := hroot (pow_two_pow_eq_one hk h)

/-- The loop panics at a root of the highest order: its last coefficient divides by it. -/
theorem zxLoop_guarded {n : ℕ} (x : F) {evalPoint : List F} {k : ℕ} (x2k : F)
    (hk : k + evalPoint.length = n) : ∃ result, Run.Guarded
      (zxLoop n x k x2k evalPoint : Run E _) (evalPoint ≠ [] → x ^ 2 ^ n ≠ 1) result := by
  induction evalPoint generalizing k x2k with
  | nil => exact ⟨[], (Run.Guarded.ok _).congr (by simp) fun _ => rfl⟩
  | cons u evalPoint ih =>
      rw [List.length_cons] at hk
      obtain ⟨result, htail⟩ := ih (k := k + 1) (x2k * x2k) (by omega)
      refine ⟨_, Run.Guarded.congr ((evalCyclotomic_guarded (by omega) x).bind fun _ =>
        (evalCyclotomic_guarded (by omega) x).bind fun _ => htail.bind fun _ =>
        Run.Guarded.ok _) ?_ fun _ => rfl⟩
      constructor
      · rintro ⟨-, hnext, hrest, -⟩ -
        cases evalPoint with
        | nil =>
            have hlast : k + 1 = n := hk
            rwa [hlast] at hnext
        | cons u' evalPoint => exact hrest (List.cons_ne_nil _ _)
      · intro h
        have hroot := h (List.cons_ne_nil _ _)
        exact ⟨fun hone => hroot (pow_two_pow_eq_one (by omega) hone),
          fun hone => hroot (pow_two_pow_eq_one (by omega) hone), fun _ => hroot, trivial⟩

omit [DecidableEq F] in
/-- The coefficient of a quotient in `Z_x`, with the sums written out. -/
theorem zxCoefficient_eq (hk : k < n) (x : F) (u : List F) :
    zxCoefficient n x u k =
      x ^ 2 ^ k * (∑ i ∈ Finset.range (2 ^ (n - k - 1)), (x ^ 2 ^ (k + 1)) ^ i) -
        u.getD k 0 * ∑ i ∈ Finset.range (2 ^ (n - k)), (x ^ 2 ^ k) ^ i := by
  rw [zxCoefficient, cyclotomic_eq_sum hk, cyclotomic_eq_sum hk.le, Nat.sub_sub]

/-- **The coefficients of `Z_x`.** -/
theorem getZxCoefficients_guarded (hx : x ≠ 0) (u : List F) :
    Run.Guarded (getZxCoefficients x u : Run E _) (u ≠ [] → x ^ 2 ^ u.length ≠ 1)
      ((List.range u.length).map (zxCoefficient u.length x u)) := by
  obtain ⟨result, hloop⟩ := zxLoop_guarded (E := E) x x (Nat.zero_add u.length)
  refine hloop.congr Iff.rfl fun hroot => ?_
  have hvalue : (getZxCoefficients x u : Run E _) =
      .ok ((List.range u.length).map (zxCoefficient u.length x u)) := by
    cases u with
    | nil => rfl
    | cons u0 u => exact getZxCoefficients_eq (goodPoint_of_ne hx (hroot (List.cons_ne_nil _ _)))
  exact Except.ok.inj ((hloop.returns hroot).symm.trans hvalue)

/-- The coefficients of `zeta_x` are computed at every challenge. -/
theorem getZetaXCoefficients_guarded (hx : x ≠ 0) (y : F) (n : ℕ) :
    Run.Guarded (getZetaXCoefficients x y n : Run E _) True
      ((List.range n).map (zetaCoefficient n x y)) := by
  rw [getZetaXCoefficients_eq hx y]
  exact Run.Guarded.ok _

/-- **Generalized cyclotomic values.**  At a point that is not zero the value of order `(n, k)` is
computed exactly off the roots of unity of order `2 ^ k`, and is the sum of the powers there; the
coefficients of `Z_x` are computed off the roots of order `2 ^ n`, and those of `zeta_x` always. -/
theorem cyclotomic_values_iff (hx : x ≠ 0) :
    (∀ n k, k ≤ n → ((evalGeneralizedCyclotomicPolynomial n k x : Run E F) =
        .ok (∑ i ∈ Finset.range (2 ^ (n - k)), x ^ (i * 2 ^ k)) ↔ x ^ 2 ^ k ≠ 1)) ∧
    (∀ u : List F, (getZxCoefficients x u : Run E _) = .ok ((List.range u.length).map fun k =>
        x ^ 2 ^ k * (∑ i ∈ Finset.range (2 ^ (u.length - k - 1)), (x ^ 2 ^ (k + 1)) ^ i) -
          u.getD k 0 * ∑ i ∈ Finset.range (2 ^ (u.length - k)), (x ^ 2 ^ k) ^ i) ↔
      u = [] ∨ x ^ 2 ^ u.length ≠ 1) ∧
    ∀ y n, (getZetaXCoefficients x y n : Run E _) =
      .ok ((List.range n).map fun k => y ^ k * x ^ (2 ^ n - 2 ^ k)) := by
  constructor
  · intro n k hk
    have hsum : ∑ i ∈ Finset.range (2 ^ (n - k)), x ^ (i * 2 ^ k) = cyclotomic n k x := by
      rw [cyclotomic_eq_sum hk]
      apply Finset.sum_congr rfl
      intro i _
      rw [← pow_mul, mul_comm]
    rw [hsum, (evalCyclotomic_guarded hk x).eq_ok_iff]
    exact and_iff_left rfl
  constructor
  · intro u
    have hcoefficients : ((List.range u.length).map fun k =>
        x ^ 2 ^ k * (∑ i ∈ Finset.range (2 ^ (u.length - k - 1)), (x ^ 2 ^ (k + 1)) ^ i) -
          u.getD k 0 * ∑ i ∈ Finset.range (2 ^ (u.length - k)), (x ^ 2 ^ k) ^ i) =
        (List.range u.length).map (zxCoefficient u.length x u) := by
      apply List.map_congr_left
      intro k hk
      exact (zxCoefficient_eq (List.mem_range.mp hk) x u).symm
    rw [hcoefficients, (getZxCoefficients_guarded hx u).eq_ok_iff, and_iff_left rfl,
      imp_iff_not_or, not_not]
  · exact fun y n => getZetaXCoefficients_eq hx y

/-- The point two over the rationals. -/
theorem cyclotomic_values_two :
    (evalGeneralizedCyclotomicPolynomial 1 0 (2 : ℚ) : Run Empty ℚ) =
        .ok (∑ i ∈ Finset.range (2 ^ (1 - 0)), (2 : ℚ) ^ (i * 2 ^ 0)) ↔ (2 : ℚ) ^ 2 ^ 0 ≠ 1 :=
  (cyclotomic_values_iff (two_ne_zero : (2 : ℚ) ≠ 0)).1 1 0 (Nat.zero_le 1)

/-- At minus one, a root of unity of order two, the value of order `(2, 1)` divides by zero. -/
theorem cyclotomic_values_root : ¬ ∀ (n k : ℕ) (x : ℚ), k ≤ n → x ≠ 0 →
    (evalGeneralizedCyclotomicPolynomial n k x : Run Empty ℚ) =
      .ok (∑ i ∈ Finset.range (2 ^ (n - k)), x ^ (i * 2 ^ k)) := by
  intro h
  have hvalue := h 2 1 (-1) one_le_two (neg_ne_zero.mpr one_ne_zero)
  rw [(evalCyclotomic_guarded one_le_two _).eq_ok_iff] at hvalue
  exact hvalue.1 (by rw [pow_one, neg_one_sq])

end Roots

end NexusVm.Spartan
