import Mathlib.Algebra.Polynomial.Bivariate

/-!
# Grand products

A permutation argument multiplies terms `α * label + β + value`.  As polynomials in `α` and `β`
such products determine their factors, so the products for the labels and for the permuted labels
agree exactly if the values are constant along the permutation.
-/

namespace NexusVm.GrandProduct

open Polynomial

variable {F : Type} [Field F]

/-- The term of a label and a value, as a polynomial in `β` over the polynomials in `α`. -/
noncomputable def term (c : F × F) : F[X][X] := C X * C (C c.1) + X + C (C c.2)

/-- The root of a term. -/
noncomputable def root (c : F × F) : F[X] := -(X * C c.1 + C c.2)

theorem term_eq (c : F × F) : term c = X - C (root c) := by
  rw [term, root, map_neg, map_add, map_mul]
  ring

theorem root_injective : Function.Injective (root : F × F → F[X]) := by
  intro c d h
  have hpoly : X * C c.1 + C c.2 = X * C d.1 + C d.2 := neg_injective h
  have hvalue := congrArg (coeff · 0) hpoly
  have hlabel := congrArg (coeff · 1) hpoly
  simp only [coeff_add, coeff_X_mul_zero, coeff_C_zero, zero_add] at hvalue
  simp only [coeff_add, coeff_X_mul, coeff_C_zero, coeff_C_succ, add_zero] at hlabel
  exact Prod.ext hlabel hvalue

/-- **Unique factorisation**: a product of terms determines its multiset of terms. -/
theorem prod_term_inj {s t : Multiset (F × F)} :
    (s.map term).prod = (t.map term).prod ↔ s = t := by
  constructor
  · intro h
    have hroots : ∀ u : Multiset (F × F), ((u.map term).prod).roots = u.map root := by
      intro u
      have hterms : u.map term = (u.map root).map fun a => X - C a := by
        rw [Multiset.map_map]
        exact Multiset.map_congr rfl fun c _ => term_eq c
      rw [hterms, roots_multiset_prod_X_sub_C]
    apply Multiset.map_injective root_injective
    rw [← hroots s, ← hroots t, h]
  · rintro rfl
    rfl

/-- **The permutation argument** for an involution of finitely many labelled cells. -/
theorem prod_permuted_iff {ι : Type} {s : Finset ι} {σ : ι → ι} (hmaps : ∀ x ∈ s, σ x ∈ s)
    (hinv : ∀ x ∈ s, σ (σ x) = x) {label : ι → F} (hlabel : Set.InjOn label s) (value : ι → F) :
    ∏ x ∈ s, term (label x, value x) = ∏ x ∈ s, term (label (σ x), value x) ↔
      ∀ x ∈ s, value x = value (σ x) := by
  constructor
  · intro h x hx
    have hmul : s.val.map (fun x => (label x, value x)) =
        s.val.map fun x => (label (σ x), value x) := by
      rw [← prod_term_inj, Multiset.map_map, Multiset.map_map]
      exact h
    have hmem : (label x, value x) ∈ s.val.map fun x => (label (σ x), value x) := by
      rw [← hmul]
      exact Multiset.mem_map_of_mem _ hx
    obtain ⟨y, hy, heq⟩ := Multiset.mem_map.mp hmem
    have hσ : σ y = x := hlabel (hmaps y hy) hx (congrArg Prod.fst heq)
    rw [← hσ, hinv y hy, hσ]
    exact (congrArg Prod.snd heq).symm
  · intro h
    refine Finset.prod_nbij' σ σ hmaps hmaps hinv hinv fun x hx => ?_
    rw [hinv x hx, ← h x hx]

end NexusVm.GrandProduct
