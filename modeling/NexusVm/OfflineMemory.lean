import Mathlib.Algebra.CharP.Basic
import Mathlib.Algebra.Polynomial.Roots

/-!
# Checking a memory afterwards

A memory that is only read can be checked at the end.  A read takes the entry of its cell and puts
it back one step later.  If what is put in is what is taken out, every read returned the value of
its cell, and products of hashes at all challenges tell whether it is.
-/

namespace NexusVm.OfflineMemory

open Polynomial

variable {F : Type} [Field F]

/-- What a cell holds: its address, its value and the time of the last read. -/
structure Entry (F : Type) where
  addr : F
  val : F
  time : F

/-- The entry one step later. -/
def Entry.later (e : Entry F) : Entry F := { e with time := e.time + 1 }

/-- The hash of an entry. -/
def Entry.hash (e : Entry F) (r : F) : F := e.time * r ^ 2 + e.val * r + e.addr

/-- The hash as a polynomial. -/
noncomputable def Entry.poly (e : Entry F) : F[X] := C e.time * X ^ 2 + C e.val * X + C e.addr

theorem Entry.eval_poly (e : Entry F) (r : F) : e.poly.eval r = e.hash r := by
  simp [Entry.poly, Entry.hash]

theorem Entry.poly_injective : Function.Injective (Entry.poly : Entry F → F[X]) := by
  intro e e' h
  have haddr := congrArg (coeff · 0) h
  have hval := congrArg (coeff · 1) h
  have htime := congrArg (coeff · 2) h
  simp [Entry.poly, coeff_X, coeff_C] at haddr hval htime
  cases e
  cases e'
  simp_all

theorem natCast_injOn : (Set.Iio (ringChar F)).InjOn ((↑) : ℕ → F) :=
  CharP.natCast_injOn_Iio F (ringChar F)

/-- A polynomial without values has too many roots. -/
theorem eq_zero_of_eval {p : F[X]} (hdegree : p.natDegree < ringChar F) (h : ∀ x, p.eval x = 0) :
    p = 0 := by
  refine eq_zero_of_natDegree_lt_card_of_eval_eq_zero p
    (f := fun i : Fin (ringChar F) => ((i : ℕ) : F)) ?_ (fun i => h _) ?_
  · intro i j hij
    exact Fin.ext (natCast_injOn i.isLt j.isLt hij)
  · rwa [Fintype.card_fin]

/-- A product over values, at every challenge, determines the values. -/
theorem perm_of_prod_sub {s t : List F} (hlen : s.length = t.length) (hs : s.length < ringChar F)
    (h : ∀ γ, (s.map (· - γ)).prod = (t.map (· - γ)).prod) : s.Perm t := by
  let P : List F → F[X] := fun s => ((s : Multiset F).map fun a => X - C a).prod
  have hnat : ∀ s, (P s).natDegree = s.length := fun s =>
    natDegree_multiset_prod_X_sub_C_eq_card (s : Multiset F)
  have heval : ∀ s γ, (P s).eval γ = (-1) ^ s.length * (s.map (· - γ)).prod := by
    intro s γ
    have hneg : ∀ a : F, (X - C a).eval γ = -1 * (a - γ) := by
      intro a
      simp
    simp only [P, Multiset.map_coe, Multiset.prod_coe, eval_list_prod, List.map_map,
      Function.comp_def, hneg, List.prod_map_mul, List.map_const', List.prod_replicate]
  have hP : P s - P t = 0 := by
    apply eq_zero_of_eval
    · refine (natDegree_sub_le _ _).trans_lt ?_
      rw [hnat, hnat, ← hlen, max_self]
      exact hs
    · intro γ
      rw [eval_sub, heval, heval, hlen, h, sub_self]
  have hroots := congrArg roots (sub_eq_zero.mp hP)
  simp only [P, roots_multiset_prod_X_sub_C] at hroots
  exact Multiset.coe_eq_coe.mp hroots

/-- An entry that meets one of a list at every point is in the list. -/
theorem mem_of_hash_mem {e : Entry F} {l : List (Entry F)} (hl : 2 * l.length < ringChar F)
    (h : ∀ r, e.hash r ∈ l.map (Entry.hash · r)) : e ∈ l := by
  have hprod : (l.map fun e' => e'.poly - e.poly).prod = 0 := by
    apply eq_zero_of_eval
    · refine (natDegree_list_prod_le _).trans_lt (lt_of_le_of_lt ?_ hl)
      have hle : ∀ d ∈ (l.map fun e' => e'.poly - e.poly).map natDegree, d ≤ 2 := by
        simp only [List.map_map, List.mem_map, Function.comp_apply, forall_exists_index, and_imp,
          forall_apply_eq_imp_iff₂]
        intro e' _
        exact (natDegree_sub_le _ _).trans (max_le natDegree_quadratic_le natDegree_quadratic_le)
      have hsum := List.sum_le_card_nsmul _ 2 hle
      rwa [List.length_map, List.length_map, smul_eq_mul, mul_comm] at hsum
    · -- at each point the factor of the entry that is met is zero
      intro r
      obtain ⟨e', he', heq⟩ := List.mem_map.mp (h r)
      rw [eval_list_prod, List.prod_eq_zero_iff, List.map_map]
      refine List.mem_map.mpr ⟨e', he', ?_⟩
      simp [Entry.eval_poly, heq]
  obtain ⟨e', he', heq⟩ := List.mem_map.mp (List.prod_eq_zero_iff.mp hprod)
  rwa [← Entry.poly_injective (sub_eq_zero.mp heq)]

/-- **Fingerprints**: products of hashes that agree for all challenges are products over the same
entries. -/
theorem perm_of_prod_hash {l l' : List (Entry F)} (hlen : l.length = l'.length)
    (hl : 2 * l.length < ringChar F)
    (h : ∀ r γ, (l.map fun e => e.hash r - γ).prod = (l'.map fun e => e.hash r - γ).prod) :
    l.Perm l' := by
  have hperm : ∀ r, (l.map (Entry.hash · r)).Perm (l'.map (Entry.hash · r)) := by
    intro r
    apply perm_of_prod_sub
    · rw [List.length_map, List.length_map, hlen]
    · rw [List.length_map]
      omega
    · intro γ
      simpa only [List.map_map, Function.comp_def] using h r γ
  clear h
  -- one entry after the other is found in the other list
  induction l generalizing l' with
  | nil => rw [List.length_eq_zero_iff.mp hlen.symm]
  | cons e l ih =>
      have hmem : e ∈ l' := mem_of_hash_mem (hlen ▸ hl) fun r =>
        (hperm r).mem_iff.mp (by simp)
      obtain ⟨l₁, l₂, rfl⟩ := List.append_of_mem hmem
      refine (List.Perm.cons e (ih ?_ ?_ ?_)).trans List.perm_middle.symm
      · simp only [List.length_cons, List.length_append] at hlen ⊢
        omega
      · rw [List.length_cons] at hl
        omega
      · intro r
        have hmiddle := (hperm r).trans (List.perm_middle.map (Entry.hash · r))
        exact List.Perm.cons_inv hmiddle

/-! ## Reads -/

/-- The cells before and what is put back are what is taken out and the cells after. -/
def Balanced (cells reads cells' : List (Entry F)) : Prop :=
  (cells ++ reads.map Entry.later).Perm (reads ++ cells')

theorem Balanced.nil (cells : List (Entry F)) : Balanced cells [] cells := by simp [Balanced]

theorem Balanced.append {cells reads cells' reads' cells'' : List (Entry F)}
    (h : Balanced cells reads cells') (h' : Balanced cells' reads' cells'') :
    Balanced cells (reads ++ reads') cells'' := by
  rw [Balanced, List.map_append, ← List.append_assoc, List.append_assoc reads]
  refine (List.Perm.append_right _ h).trans ?_
  rw [List.append_assoc]
  exact List.Perm.append_left reads h'

/-- **A read** leaves the entry that it takes one step later. -/
theorem balanced_read {cells : List (Entry F)} {i : ℕ} (hi : i < cells.length) {e : Entry F}
    (he : cells[i] = e) : Balanced cells [e] (cells.set i e.later) := by
  have hcells : cells.Perm (e :: cells.eraseIdx i) := he ▸ (List.getElem_cons_eraseIdx_perm hi).symm
  refine (List.perm_append_singleton _ _).trans ((hcells.cons _).trans ?_)
  exact (List.Perm.swap _ _ _).trans ((List.set_perm_cons_eraseIdx hi _).symm.cons _)

/-- **Values that no cell has are not read**: what holds of the cells before and after holds of
every read, for the times of the others would add up. -/
theorem Balanced.forall_read {S : F → F → Prop} {cells reads cells' : List (Entry F)}
    (h : Balanced cells reads cells') (hcells : ∀ e ∈ cells, S e.addr e.val)
    (hcells' : ∀ e ∈ cells', S e.addr e.val) (hreads : reads.length < ringChar F) :
    ∀ e ∈ reads, S e.addr e.val := by
  classical
  intro e he
  by_contra hbad
  let bad : Entry F → Bool := fun e' => e'.addr = e.addr ∧ e'.val = e.val
  have hnone : ∀ l : List (Entry F), (∀ e ∈ l, S e.addr e.val) → l.filter bad = [] := by
    intro l hl
    rw [List.filter_eq_nil_iff]
    intro e' he'
    simp only [bad, decide_eq_true_eq]
    rintro ⟨haddr, hval⟩
    exact hbad (haddr ▸ hval ▸ hl e' he')
  have hfilter := List.Perm.filter bad h
  rw [List.filter_append, List.filter_append, hnone _ hcells, hnone _ hcells', List.nil_append,
    List.append_nil, List.filter_map] at hfilter
  -- each of these reads is put back one step later
  have hsum := (hfilter.map Entry.time).sum_eq
  change (((reads.filter bad).map Entry.later).map Entry.time).sum = _ at hsum
  have hlater : (((reads.filter bad).map Entry.later).map Entry.time).sum =
      ((reads.filter bad).map Entry.time).sum + ((reads.filter bad).length : F) := by
    simp [List.map_map, Function.comp_def, Entry.later, List.sum_map_add]
  rw [hlater, add_eq_left, ringChar.spec] at hsum
  have hle := List.length_filter_le bad reads
  have hzero := Nat.eq_zero_of_dvd_of_lt hsum (by omega)
  have hmem : e ∈ reads.filter bad := List.mem_filter.mpr ⟨he, by simp [bad]⟩
  rw [List.length_eq_zero_iff.mp hzero] at hmem
  cases hmem

end NexusVm.OfflineMemory
