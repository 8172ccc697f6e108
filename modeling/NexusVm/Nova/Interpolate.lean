import NexusVm.Nova.Sumcheck
import Mathlib.LinearAlgebra.Lagrange

/-!
# Interpolation at small integers

`interpolate_uni_poly` of the sumcheck verifier computes the denominators of
Lagrange's formula one from the other, from the last node to the first.
-/

namespace NexusVm.Nova.Sumcheck

open Polynomial

section Denominators

variable {F : Type} [Field F]

/-- The denominator of the node `i` among `0, .., d`. -/
theorem prod_nodes_erase {d i : ℕ} (hi : i ≤ d) :
    ∏ j ∈ (Finset.range (d + 1)).erase i, ((i : F) - (j : F)) =
      (-1) ^ (d - i) * (i.factorial : F) * ((d - i).factorial : F) := by
  induction d, hi using Nat.le_induction with
  | base =>
      -- all other nodes are below `i`
      have herase : (Finset.range (i + 1)).erase i = Finset.range i := by
        rw [Finset.range_add_one, Finset.erase_insert Finset.notMem_range_self]
      rw [herase, Nat.sub_self, pow_zero, one_mul, Nat.factorial_zero, Nat.cast_one, mul_one,
        ← Finset.prod_range_add_one_eq_factorial, ← Finset.prod_range_reflect, Nat.cast_prod]
      apply Finset.prod_congr rfl
      intro j hj
      rw [Finset.mem_range] at hj
      rw [← Nat.cast_sub (by omega : i - 1 - j ≤ i)]
      congr 1
      omega
  | succ d hd ih =>
      have hne : d + 1 ≠ i := by omega
      have hnot : d + 1 ∉ (Finset.range (d + 1)).erase i := by simp
      have hsub : d + 1 - i = d - i + 1 := by omega
      rw [Finset.range_add_one, Finset.erase_insert_of_ne hne, Finset.prod_insert hnot, ih, hsub,
        pow_succ, Nat.factorial_succ, Nat.cast_mul]
      have hcast : ((d - i + 1 : ℕ) : F) = ((d + 1 : ℕ) : F) - (i : F) := by
        rw [← Nat.cast_sub (by omega : i ≤ d + 1), hsub]
      rw [hcast]
      ring

/-- Factorials below one that is not zero. -/
theorem factorial_ne_zero_of_le {d i : ℕ} (hd : (d.factorial : F) ≠ 0) (hi : i ≤ d) :
    (i.factorial : F) ≠ 0 := by
  obtain ⟨c, hc⟩ := Nat.factorial_dvd_factorial hi
  rw [hc, Nat.cast_mul] at hd
  exact left_ne_zero_of_mul hd

/-- The nodes `0, .., d` are distinct. -/
theorem nodes_injOn {d : ℕ} (hd : (d.factorial : F) ≠ 0) :
    Set.InjOn (fun i : ℕ => (i : F)) (Finset.range (d + 1)) := by
  have hlt : ∀ i j : ℕ, i < j → j ≤ d → (i : F) ≠ (j : F) := by
    intro i j hij hj heq
    have hsub : ((j - i : ℕ) : F) = 0 := by rw [Nat.cast_sub hij.le, heq, sub_self]
    have hdvd : j - i ∣ d.factorial := Nat.dvd_factorial (by omega) (by omega)
    obtain ⟨c, hc⟩ := hdvd
    rw [hc, Nat.cast_mul, hsub, zero_mul] at hd
    exact hd rfl
  intro i hi j hj heq
  simp only [Finset.coe_range, Set.mem_Iio] at hi hj
  rcases lt_trichotomy i j with h | h | h
  · exact absurd heq (hlt i j h (by omega))
  · exact h
  · exact absurd heq.symm (hlt j i h (by omega))

variable [DecidableEq F]

/-- One summand of Lagrange's formula. -/
def lagrangeTerm (p : List F) (prod x : F) (d i : ℕ) : F :=
  p.getD i 0 * prod * (((-1) ^ (d - i) * (i.factorial : F) * ((d - i).factorial : F))⁻¹ *
    (x - (i : F))⁻¹)

/-- Both loops compute the same. -/
theorem interpolateField_eq_interpolateInt {E : Type} (p : List F) (prod x : F) (n : ℕ)
    (hn : n ≤ p.length) (num : ℤ) (enum : ℕ) (res : F) :
    (interpolateField p prod x n (((p.length - 1).factorial : F) * (num : F)) (enum : F) res :
      Run E F) = interpolateInt p prod x n num enum res := by
  induction n generalizing num enum res with
  | zero => rfl
  | succ i ih =>
      have hi : i ≤ p.length := by omega
      have hnext := ih hi (num * -((p.length : ℤ) - (i : ℤ))) (enum * i)
      have hcast : ((p.length - 1).factorial : F) *
          ((num * -((p.length : ℤ) - (i : ℤ)) : ℤ) : F) =
            ((p.length - 1).factorial : F) * (num : F) * -((p.length - i : ℕ) : F) := by
        push_cast [Nat.cast_sub hi]
        ring
      have henum : ((enum * i : ℕ) : F) = (enum : F) * (i : F) := Nat.cast_mul _ _
      rw [hcast, henum] at hnext
      rw [interpolateField, interpolateInt]
      simp only [hnext, ih hi]

omit [DecidableEq F] in
/-- A step of the loop adds a summand of Lagrange's formula. -/
theorem step_eq_lagrangeTerm {p : List F} {d i : ℕ} (hd : (d.factorial : F) ≠ 0) (hi : i ≤ d)
    {x : F} (hx : x ≠ (i : F)) (prod : F) {num : ℤ} {enum : ℕ}
    (hnum : num = (-1) ^ (d - i) * ((d - i).factorial : ℤ))
    (henum : enum * i.factorial = d.factorial) :
    (d.factorial : F) * (num : F) * (x - (i : F)) ≠ 0 ∧
      p.getD i 0 * prod * (enum : F) / ((d.factorial : F) * (num : F) * (x - (i : F))) =
        lagrangeTerm p prod x d i := by
  have hfact : (i.factorial : F) ≠ 0 := factorial_ne_zero_of_le hd hi
  have hfact' : ((d - i).factorial : F) ≠ 0 := factorial_ne_zero_of_le hd (Nat.sub_le d i)
  have hsign : ((-1 : F)) ^ (d - i) ≠ 0 := pow_ne_zero _ (neg_ne_zero.mpr one_ne_zero)
  have hsub : x - (i : F) ≠ 0 := sub_ne_zero.mpr hx
  have hnumF : (num : F) = (-1) ^ (d - i) * ((d - i).factorial : F) := by
    rw [hnum]
    push_cast
    rfl
  have henumF : (d.factorial : F) = (enum : F) * (i.factorial : F) := by
    rw [← Nat.cast_mul, henum]
  have henum0 : (enum : F) ≠ 0 := by
    rw [henumF] at hd
    exact left_ne_zero_of_mul hd
  constructor
  · rw [hnumF]
    exact mul_ne_zero (mul_ne_zero hd (mul_ne_zero hsign hfact')) hsub
  · rw [lagrangeTerm, hnumF, henumF]
    field_simp

/-- The loop from the node `i` down to `0`. -/
theorem interpolateInt_eq {E : Type} {p : List F} {d : ℕ} (hlen : p.length = d + 1)
    (hd : (d.factorial : F) ≠ 0) {x : F} (hx : ∀ k ≤ d, x ≠ (k : F)) (prod : F) {i : ℕ}
    (hi : i ≤ d) {num : ℤ} {enum : ℕ} (hnum : num = (-1) ^ (d - i) * ((d - i).factorial : ℤ))
    (henum : enum * i.factorial = d.factorial) (res : F) :
    (interpolateInt p prod x (i + 1) num enum res : Run E F) =
      .ok (res + ∑ k ∈ Finset.range (i + 1), lagrangeTerm p prod x d k) := by
  have hassert : ∀ {c : Prop} [Decidable c], c → (Run.assert c : Run E Unit) = .ok () :=
    fun hc => assert_eq_ok.mpr hc
  have hpred : p.length - 1 = d := by omega
  induction i generalizing num enum res with
  | zero =>
      obtain ⟨hne, hstep⟩ := step_eq_lagrangeTerm (p := p) hd hi (hx 0 hi) prod hnum henum
      rw [interpolateInt, hpred, hassert hne, hstep, Finset.sum_range_one]
      rfl
  | succ i ih =>
      obtain ⟨hne, hstep⟩ := step_eq_lagrangeTerm (p := p) hd hi (hx (i + 1) hi) prod hnum henum
      have hnum' : num * -((p.length : ℤ) - ((i + 1 : ℕ) : ℤ)) =
          (-1) ^ (d - i) * ((d - i).factorial : ℤ) := by
        have hsub : d - i = d - (i + 1) + 1 := by omega
        have hcast : ((d - (i + 1) + 1 : ℕ) : ℤ) = (p.length : ℤ) - ((i + 1 : ℕ) : ℤ) := by
          rw [hlen]
          omega
        rw [hnum, hsub, Nat.factorial_succ, pow_succ, Nat.cast_mul, hcast]
        ring
      have henum' : enum * (i + 1) * i.factorial = d.factorial := by
        rw [← henum, Nat.factorial_succ]
        ring
      have hrest := ih (by omega) hnum' henum'
        (res + lagrangeTerm p prod x d (i + 1))
      rw [interpolateInt, hpred, hassert hne, hstep]
      show (if i + 1 ≠ 0 then interpolateInt p prod x (i + 1)
          (num * -((p.length : ℤ) - ((i + 1 : ℕ) : ℤ))) (enum * (i + 1))
          (res + lagrangeTerm p prod x d (i + 1))
        else interpolateInt p prod x (i + 1) num enum (res + lagrangeTerm p prod x d (i + 1))) = _
      rw [if_pos (Nat.succ_ne_zero i), hrest, Finset.sum_range_succ _ (i + 1)]
      congr 1
      ring

/-! ## The value of the polynomial -/

omit [DecidableEq F] in
/-- Evaluations at distinct nodes are those of a polynomial. -/
theorem exists_interpolant {d : ℕ} (hd : (d.factorial : F) ≠ 0) {p : List F}
    (hlen : p.length = d + 1) : ∃ q : F[X], q.natDegree ≤ d ∧
      ((List.range (d + 1)).map fun t : ℕ => q.eval (t : F)) = p := by
  have hinj := nodes_injOn hd
  refine ⟨Lagrange.interpolate (Finset.range (d + 1)) (fun i : ℕ => (i : F))
    fun i : ℕ => p.getD i 0, ?_, ?_⟩
  · have hdegree := Lagrange.degree_interpolate_lt (fun i : ℕ => p.getD i 0) hinj
    rw [Finset.card_range, degree_lt_iff_coeff_zero] at hdegree
    exact natDegree_le_iff_coeff_eq_zero.mpr hdegree
  · apply List.ext_getElem
    · rw [List.length_map, List.length_range, hlen]
    · intro i hi hi'
      rw [List.getElem_map, List.getElem_range, Lagrange.eval_interpolate_at_node _ hinj
        (Finset.mem_range.mpr (hlen ▸ hi')), List.getD_eq_getElem _ _ hi']

/-- **Interpolation is exact.**  The evaluations at `0, .., d` of a polynomial of
degree at most `d` give its value at every point, unless a factorial vanishes. -/
theorem interpolateUniPoly_eq {E : Type} {q : F[X]} {d : ℕ} (hq : q.natDegree ≤ d) {x : F}
    (hd : (∀ k ≤ d, x ≠ (k : F)) → (d.factorial : F) ≠ 0) :
    (interpolateUniPoly ((List.range (d + 1)).map fun t : ℕ => q.eval (t : F)) x : Run E F) =
      .ok (q.eval x) := by
  set p := (List.range (d + 1)).map fun t : ℕ => q.eval (t : F) with hp
  have hlen : p.length = d + 1 := by rw [hp, List.length_map, List.length_range]
  have hget : ∀ k ≤ d, p.getD k 0 = q.eval (k : F) := by
    intro k hk
    rw [hp, List.getD_eq_getElem _ _ (by rw [List.length_map, List.length_range]; omega),
      List.getElem_map, List.getElem_range]
  rw [interpolateUniPoly_of_pos (hlen ▸ Nat.succ_pos d)]
  cases hfind : (List.range p.length).find? fun i : ℕ => decide (x = (i : F)) with
  | some i =>
      have hx : x = (i : F) := by simpa using List.find?_some hfind
      have hi := List.mem_of_find?_eq_some hfind
      rw [List.mem_range, hlen] at hi
      show Except.ok (p.getD i 0) = _
      rw [hget i (by omega), hx]
  | none =>
      have hx : ∀ k ≤ d, x ≠ (k : F) := by
        intro k hk
        have hnot := List.find?_eq_none.mp hfind k (List.mem_range.mpr (by omega))
        simpa using hnot
      have hd' := hd hx
      have hinj := nodes_injOn hd'
      have hprod : ((List.range p.length).map fun i : ℕ => x - (i : F)).prod =
          (Lagrange.nodal (Finset.range (d + 1)) fun i : ℕ => (i : F)).eval x := by
        rw [Lagrange.eval_nodal, hlen]
        rfl
      have hloop := interpolateInt_eq (E := E) hlen hd' hx
        ((List.range p.length).map fun i : ℕ => x - (i : F)).prod (le_refl d)
        (show (1 : ℤ) = (-1) ^ (d - d) * ((d - d).factorial : ℤ) by simp)
        (show 1 * d.factorial = d.factorial from one_mul _) 0
      have hsum : ∑ k ∈ Finset.range (d + 1),
          lagrangeTerm p ((List.range p.length).map fun i : ℕ => x - (i : F)).prod x d k =
            q.eval x := by
        have hinterp : q = Lagrange.interpolate (Finset.range (d + 1)) (fun i : ℕ => (i : F))
            (fun i : ℕ => q.eval (i : F)) := by
          apply Lagrange.eq_interpolate hinj
          rw [Finset.card_range]
          exact lt_of_le_of_lt degree_le_natDegree (by exact_mod_cast Nat.lt_succ_of_le hq)
        conv_rhs => rw [hinterp]
        rw [Lagrange.eval_interpolate_not_at_node _
          fun k hk => hx k (Nat.lt_succ_iff.mp (Finset.mem_range.mp hk)), Finset.mul_sum]
        apply Finset.sum_congr rfl
        intro k hk
        have hk' : k ≤ d := Nat.lt_succ_iff.mp (Finset.mem_range.mp hk)
        rw [lagrangeTerm, hget k hk', hprod, Lagrange.nodalWeight, Finset.prod_inv_distrib,
          prod_nodes_erase hk']
        ring
      rw [hsum, zero_add, ← hlen] at hloop
      dsimp only
      split_ifs
      · exact hloop
      · have hfield := interpolateField_eq_interpolateInt (E := E) p
          ((List.range p.length).map fun i : ℕ => x - (i : F)).prod x p.length le_rfl 1 1 0
        rw [Int.cast_one, mul_one, Nat.cast_one] at hfield
        rw [hfield]
        exact hloop

end Denominators

end NexusVm.Nova.Sumcheck
