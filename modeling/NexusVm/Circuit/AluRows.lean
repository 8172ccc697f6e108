import NexusVm.Circuit.Decoding

/-!
# The arithmetic rows, read

What the rows of the addition, subtraction, shift and bit gadgets say in an
accepted assignment, and that the result of the selected instruction is `Z`.
An addition is only right in a field in which the sum of two words does not
wrap, hence the bound `2 ^ 33`.
-/

namespace NexusVm.Circuit

open NexusVm.Builder

section Rows

variable {p : ℕ} [Fact p.Prime] {ρ : Var → ZMod p} {x y z output : Var} {k : ℕ}

theorem Fits.toBits {n : Var} {v : U32} (hl : isLocal n = false)
    (h : Fits Op.Sat ρ (toBits n v)) : ∃ a : U32, IsWord ρ n a := by
  obtain ⟨l, hrows⟩ := h.holds_all (by
    simp [Circuit.toBits, setVar, setFieldVar, setBit, setBitFrom])
  obtain ⟨a, ha⟩ := toBits_sound hrows
  have hval := ha.value
  rw [glue_global hl] at hval
  exact ⟨a, hval, ha.bits⟩

theorem Fits.setEq {n v : Var} (hn : isLocal n = false) (hv : isLocal v = false)
    (h : Fits Op.Sat ρ (setEq n v)) : ρ n = ρ v := by
  obtain ⟨l, hrows⟩ := h.holds_all (by simp [Circuit.setEq])
  have heq := setEq_sat.mp hrows
  rwa [glue_global hn, glue_global hv] at heq

/-- The sum of `add_cir`, up to a carry. -/
theorem Fits.addCir {a b : U32} (hz : isLocal z = false) (hx : isLocal x = false)
    (hy : isLocal y = false) (h : Fits Op.Sat ρ (addCir z x y a b)) :
    ∃ c : Bool, ρ z + ((0x100000000 : ℕ) : ZMod p) * flag c = ρ x + ρ y := by
  unfold Circuit.addCir at h
  obtain ⟨l, hrows⟩ := h.holds (by simp [addCirBody, setVar, setFieldVar, setLocalVar])
  simp only [addCirBody, holds_append, holds_cons, holds_nil, and_true, Op.Sat, lc_cons, lc_nil,
    Term.eval_put, Term.eval_const, one_mul, mul_one, add_zero, glue_global hz, glue_global hx,
    glue_global hy] at hrows
  obtain ⟨-, hO, hsum⟩ := hrows
  rcases mul_eq_zero.mp hO with hO | hO
  · refine ⟨true, ?_⟩
    rw [← hsum, flag_true]
    linear_combination hO
  · refine ⟨false, ?_⟩
    rw [← hsum, flag_false, hO]
    ring

/-- The difference of `sub_cir`, up to a borrow. -/
theorem Fits.subCir {a b : U32} (hz : isLocal z = false) (hx : isLocal x = false)
    (hy : isLocal y = false) (h : Fits Op.Sat ρ (subCir z x y a b)) :
    ∃ c : Bool, ρ x + ((0x100000000 : ℕ) : ZMod p) * flag c = ρ z + ρ y := by
  unfold Circuit.subCir at h
  obtain ⟨l, hrows⟩ := h.left.left.holds_all (by
    simp [subCirFlags, setVar, setFieldVar, setBit, setBitFrom])
  simp only [subCirFlags, holds_append, holds_cons, holds_nil, and_true] at hrows
  obtain ⟨⟨⟨⟨⟨⟨⟨⟨hlt, -⟩, hrow⟩, -⟩, -⟩, -⟩, -⟩, -⟩, -⟩ := hrows
  simp only [Op.Sat, lc_cons, lc_nil, Term.eval_put, Term.eval_const, one_mul, mul_one, add_zero,
    glue_global hz, glue_global hx, glue_global hy] at hrow
  obtain ⟨c, hc⟩ : ∃ c : Bool, glue ρ l (.lt x y) = flag c := by
    rcases setBit_sound hlt with h0 | h1
    · exact ⟨false, h0⟩
    · exact ⟨true, h1⟩
  refine ⟨c, ?_⟩
  rw [← hrow, hc]
  ring

variable {a b r : U32}

/-- Two words and their sum, in a large field. -/
theorem add_word (hp : 2 ^ 33 < p) {c : Bool}
    (h : (r.toNat : ZMod p) + ((0x100000000 : ℕ) : ZMod p) * flag c = (a.toNat : ZMod p) + (b.toNat : ZMod p)) :
    r = a + b := by
  have ha := a.isLt
  have hb := b.isLt
  have hr := r.isLt
  have hnat : r.toNat + 0x100000000 * c.toNat = a.toNat + b.toNat := by
    have hc : c.toNat ≤ 1 := Bool.toNat_le c
    refine CharP.natCast_injOn_Iio (ZMod p) p (Set.mem_Iio.mpr (by omega))
      (Set.mem_Iio.mpr (by omega)) ?_
    rw [flag_eq_natCast] at h
    push_cast at h ⊢
    exact h
  apply BitVec.eq_of_toNat_eq
  rw [BitVec.toNat_add, ← hnat]
  omega

/-- A sum that the gadget computes from words. -/
theorem Fits.plus (hp : 2 ^ 33 < p) {a b r u v : U32} (hz : isLocal z = false)
    (hx : isLocal x = false) (hy : isLocal y = false) (h : Fits Op.Sat ρ (Circuit.addCir z x y u v))
    (ha : ρ x = (a.toNat : ZMod p)) (hb : ρ y = (b.toNat : ZMod p))
    (hr : ρ z = (r.toNat : ZMod p)) : r = a + b := by
  obtain ⟨c, hc⟩ := Fits.addCir hz hx hy h
  rw [hr, ha, hb] at hc
  exact add_word hp hc

theorem sub_word (hp : 2 ^ 33 < p) {c : Bool}
    (h : (a.toNat : ZMod p) + ((0x100000000 : ℕ) : ZMod p) * flag c = (r.toNat : ZMod p) + (b.toNat : ZMod p)) :
    r = a - b := by
  rw [add_word hp h]
  exact (BitVec.add_sub_cancel r b).symm

/-! ## Shifts and bit operations -/

/-- The output of a shift is the output of the selected amount. -/
theorem Fits.shiftBody (value : ℕ → U32) {given : ℕ → U32}
    {terms : ℕ → List (Term Var (ZMod p))} {I : ℕ}
    (hl : isLocal output = false) (hs : Selects ρ .shamt 32 k)
    (hX : ρ .X = ((value 0).toNat : ZMod p))
    (hterms : ∀ l, ∀ amt < 32, amt ≠ 0 →
      lc (glue ρ l) (terms amt) = ((value amt).toNat : ZMod p))
    (h : Fits Op.Sat ρ (shiftBody output I given terms ++ [Op.sealLocals])) :
    ρ output = ((value k).toNat : ZMod p) := by
  obtain ⟨l, hrows⟩ := h.holds (by
    simp only [Circuit.shiftBody, setVar, setFieldVar, setLocalVar, mul, sumRow, sealFree_append,
      sealFree_cons, sealFree_nil, sealFree_flatMap, Bool.and_true, Bool.true_and,
      List.all_eq_true]
    intro amt _
    split_ifs <;> rfl)
  simp only [Circuit.shiftBody, holds_append, holds_flatMap, List.mem_range, holds_cons, holds_nil,
    and_true] at hrows
  obtain ⟨⟨-, hamt⟩, hsum⟩ := hrows
  have hout : ∀ amt < 32, glue ρ l (.out amt) = ((value amt).toNat : ZMod p) := by
    intro amt hlt
    have hrow := (hamt amt hlt).1.1
    by_cases h0 : amt = 0
    · rw [if_pos h0, holds_append] at hrow
      have heq := setEq_sat.mp hrow.2
      rw [h0, heq, glue_global rfl, hX]
    · rw [if_neg h0, holds_append, holds_cons] at hrow
      have hterm := hrow.2.1
      simp only [Op.Sat, hterms l amt hlt h0, lc_cons, lc_nil, Term.eval_const, Term.eval_put,
        one_mul, mul_one, add_zero] at hterm
      exact hterm.symm
  have hSZ : ∀ amt < 32, glue ρ l (.SZ amt) =
      if amt = k then ((value amt).toNat : ZMod p) else 0 := by
    intro amt hlt
    have hrow := (hamt amt hlt).2
    simp only [mul, Op.Sat, lc_cons, lc_nil, Term.eval_put, one_mul, add_zero, hout amt hlt]
      at hrow
    rw [← hrow, show glue ρ l (.is .shamt amt) = _ from hs.2.2 amt hlt]
    split_ifs <;> simp
  have hZ := sumRow_sat.mp hsum
  rw [glue_global hl, List.map_map,
    sum_map_single (k := k) List.nodup_range (List.mem_range.mpr hs.1)] at hZ
  · rw [hZ, Function.comp_apply, hSZ k hs.1, if_pos rfl]
  · intro amt hmem hne
    rw [Function.comp_apply, hSZ amt (List.mem_range.mp hmem), if_neg hne]

theorem Fits.shiftLeft {a X : U32} {I : ℕ} (hl : isLocal output = false)
    (hs : Selects ρ .shamt 32 k) (hX : IsWord ρ .X X)
    (h : Fits Op.Sat ρ (shiftLeft output a I)) : ρ output = ((X <<< k).toNat : ZMod p) := by
  refine Fits.shiftBody (fun amt => X <<< amt) hl hs ?_
    (fun l amt _ _ => lc_shiftLeftTerms (hX.glue rfl)) h
  rw [hX.value, BitVec.shiftLeft_zero]

theorem Fits.shiftRight {a X : U32} {I : ℕ} {arith : Bool} (hl : isLocal output = false)
    (hs : Selects ρ .shamt 32 k) (hX : IsWord ρ .X X)
    (h : Fits Op.Sat ρ (shiftRight output a I arith)) :
    ρ output = ((if arith then X.sshiftRight k else X >>> k).toNat : ZMod p) := by
  refine Fits.shiftBody (fun amt => if arith then X.sshiftRight amt else X >>> amt) hl hs ?_
    (fun l amt _ _ => lc_shiftRightTerms (hX.glue rfl) arith) h
  rw [hX.value]
  cases arith <;> simp

/-- The bits of a conjunction. -/
theorem conj_word (hx : IsWord ρ x a) (hy : IsWord ρ y b) (hr : IsWord ρ (.conj x y) r)
    (hrow : ∀ i < 32, ρ (.bit x i) * ρ (.bit y i) = ρ (.bit (.conj x y) i)) : r = a &&& b := by
  apply BitVec.eq_of_getLsbD_eq
  intro i hi
  have hbit := hrow i hi
  rw [hx.bit hi, hy.bit hi, hr.bit hi, flag_mul] at hbit
  rw [← flag_inj hbit, BitVec.getLsbD_and]

/-- The bits of `bitop` are those of a word. -/
theorem Fits.bitop {a b c z' r : U32} {adj : ZMod p} (hl : isLocal output = false)
    (hx : IsWord ρ .X a) (hy : IsWord ρ y b) (hc : IsWord ρ (.conj .X y) c)
    (hr : ∀ i < 32, (flag (a.getLsbD i) : ZMod p) + flag (b.getLsbD i) +
      adj * flag (c.getLsbD i) = flag (r.getLsbD i))
    (h : Fits Op.Sat ρ (bitop output y z' adj)) : ρ output = (r.toNat : ZMod p) := by
  obtain ⟨l, hrows⟩ := h.holds_all (by
    simp [Circuit.bitop, Circuit.toBits, setVar, setFieldVar, setBit, setBitFrom])
  simp only [Circuit.bitop, holds_append, holds_flatMap, List.mem_range, holds_cons, holds_nil,
    and_true] at hrows
  obtain ⟨hword, hbits⟩ := hrows
  obtain ⟨v, hv⟩ := toBits_sound hword
  have hvr : v = r := by
    apply BitVec.eq_of_getLsbD_eq
    intro i hi
    have hrow := (hbits i hi).2
    simp only [Op.Sat, lc_cons, lc_nil, Term.eval_put, Term.eval_const, one_mul, mul_one, add_zero]
      at hrow
    rw [show glue ρ l (.bit .X i) = _ from hx.bit hi, show glue ρ l (.bit y i) = _ from hy.bit hi,
      show glue ρ l (.bit (.conj .X y) i) = _ from hc.bit hi, hv.bit hi, ← add_assoc, hr i hi]
      at hrow
    exact (flag_inj hrow).symm
  have hval := hv.value
  rw [glue_global hl, hvr] at hval
  exact hval

end Rows

end NexusVm.Circuit
