import NexusVm.Circuit.Arith

/-!
# Load and store gadgets

When the gadgets that take a cache line apart accept the values of their
names.  The selected byte, half word and word are parameters: no row ties them
to the address.
-/

namespace NexusVm.Circuit

open NexusVm.Builder

variable {p : ℕ} [Fact p.Prime] {σ ρ : Var → ZMod p} {redo : Var → Bool}

section Open

/-- The values of a line opened at `addr`: the half chosen by `b`, and for each
width the unit chosen by `k`. -/
structure Opened (ρ : Var → ZMod p) (addr name : Var) (b : Bool) (k : ℕ → ℕ) : Prop where
  dir : ρ (.bit addr 4) = flag b
  value : ρ name = if b then ρ (.hi name) else ρ (.lo name)
  small : (ρ name).val < 2 ^ 128
  bits : HasBits ρ name (ρ name).val 128
  units : ∀ w i, ρ (.unit name w i) = (unitOf (ρ name) w i : ZMod p)
  sel : ∀ w ∈ [8, 16, 32], Selects ρ (.cat addr w) (128 / w) (k w)
  out : ∀ w ∈ [8, 16, 32], ρ (.cat name w) = (unitOf (ρ name) w (k w) : ZMod p)

theorem choose_holds {wo : Bool} {result bit yes no : Var} {b : Bool} (hb : σ bit = flag b)
    (hres : σ result = if b then σ yes else σ no)
    (hli : σ (.chooseL result) = if b then σ yes else 0)
    (hri : σ (.chooseR result) = if b then 0 else σ no) :
    Holds (Op.Honest redo) σ (choose wo result bit yes no) := by
  have hv : ∀ n ∈ [bit, yes, no], view [bit, yes, no] σ n = σ n := fun n hn => view_mem hn
  have h1 := hv bit (by simp)
  have h2 := hv yes (by simp)
  have h3 := hv no (by simp)
  have hflag : (flag b : ZMod p) = 1 ↔ b = true := by cases b <;> simp
  simp only [choose, holds_append, holds_cons, holds_nil, and_true, Op.Honest, true_and, h1, h2, h3,
    hb, hflag]
  refine ⟨⟨Or.inr hres.symm, Or.inr hli.symm, Or.inr ?_⟩, ?_⟩
  · rw [hri]
  · cases wo with
    | true => simp
    | false =>
        simp only [Bool.false_eq_true, if_false, holds_cons, holds_nil, and_true,
          Op.Honest, lc_cons, lc_nil, Term.eval_put, Term.eval_const, hb, hres, hli, hri]
        cases b <;> simp

theorem split128_holds {name : Var} {widths : List ℕ} (hsmall : (σ name).val < 2 ^ 128)
    (hbits : HasBits σ name (σ name).val 128)
    (hunits : ∀ w i, σ (.unit name w i) = (unitOf (σ name) w i : ZMod p)) :
    Holds (Op.Honest redo) σ (split128 name widths) := by
  have hv : view [name] σ name = σ name := view_mem (by simp)
  simp only [split128, holds_append, holds_flatMap, List.mem_range, holds_cons, holds_nil,
    and_true, Op.Honest, setBitFrom_honest, hv, true_and, lc_powRow, lc_cons, lc_nil,
    Term.eval_const, Term.eval_put, one_mul, mul_one, add_zero]
  refine ⟨⟨⟨?_, fun i hi => ⟨Or.inr (hbits i hi).symm, ?_⟩⟩, ?_⟩, fun w _ i hi => ⟨?_, ?_⟩⟩
  · simpa using hsmall
  · rw [hbits i hi]
    cases (σ name).val.testBit i <;> simp
  · rw [hbits.sum_names (by omega), pow_zero, Nat.div_one, Nat.mod_eq_of_lt hsmall,
      ZMod.natCast_zmod_val]
  · exact Or.inr (hunits w i).symm
  · have hle : i * w + w ≤ 128 := by
      have hmul := Nat.mul_le_mul_right w (show i + 1 ≤ 128 / w by omega)
      have := Nat.div_mul_le_self 128 w
      rw [Nat.add_mul, one_mul] at hmul
      omega
    rw [hbits.sum_names hle, hunits, unitOf, Nat.mul_comm]

variable {addr name : Var} {b : Bool} {k : ℕ → ℕ}

theorem loadSelect_passes {wo : Bool} {a : U32} (hp : 16 ≤ p) (hln : isLocal name = false)
    (h : Opened ρ addr name b k)
    (hr : (k 8 = (a &&& 0xf).toNat ∧ k 16 = (a &&& 0xf).toNat / 2 ∧
      k 32 = (a &&& 0xf).toNat / 2 / 2) ∨ ∀ n, redo n = true) :
    Passes (Op.Honest redo) ρ (loadSelect wo addr name a false) := by
  have hlow : (a &&& 0xf).toNat < 16 := by
    rw [BitVec.toNat_and]
    exact lt_of_le_of_lt Nat.and_le_right (by decide)
  generalize hlo : (a &&& 0xf).toNat = low at hr hlow
  have hconst : ∀ n, 2 ≤ n → n ≤ 16 → Constants (ZMod p) (List.range n) := by
    refine fun n h2 h16 => ⟨by simpa using h2, List.nodup_range, fun x hx y hy hxy => ?_⟩
    rw [List.mem_range] at hx hy
    exact CharP.natCast_injOn_Iio (ZMod p) p (Set.mem_Iio.mpr (by omega))
      (Set.mem_Iio.mpr (by omega)) hxy
  have hunit : ∀ w i, isLocal (Var.unit name w i) = false := fun _ _ => rfl
  have hcat : ∀ v w, isLocal (Var.cat v w) = false := fun _ _ => rfl
  have hout : ∀ w ∈ [8, 16, 32], ρ (.cat name w) = ρ (.unit name w (k w)) := by
    intro w hw
    rw [h.out w hw, h.units]
  -- the first block runs from the choice of a half to the seal of the first selector
  have hsplit : (loadSelect wo addr name a false : Ops p) =
      ((choose wo name (.bit addr 4) (.hi name) (.lo name) ++ split128 name [8, 16, 32] ++
        (.check [] (fun _ => decide (2 < 16) && decide (low < 16)) ::
          memberBody wo (.cat addr 8) low (List.range 16))) ++ [Op.sealLocals]) ++
      ((loadArrayBody wo (.cat addr 8) (.cat name 8) (.unit name 8) 16 low ++ [Op.sealLocals]) ++
        (loadArray wo (.cat addr 16) (.cat name 16) (.unit name 16) 8 (low / 2) ++
          loadArray wo (.cat addr 32) (.cat name 32) (.unit name 32) 4 (low / 2 / 2))) := by
    simp [loadSelect, loadWidths, loadArray, selector, member, ← hlo]
  rw [hsplit]
  refine Passes.append ?_ (Passes.append ?_ (Passes.append ?_ ?_))
  · let l : Var → ZMod p
      | .chooseL _ => if b then ρ (.hi name) else 0
      | .chooseR _ => if b then 0 else ρ (.lo name)
      | n => memberLocals (ZMod p) (List.range 16) (k 8) n
    have hsel := h.sel 8 (by simp)
    refine passes_sealed ?_ l ?_
    · rw [sealFree_append, sealFree_append, sealFree_cons, sealFree_memberBody]
      have hsplit : sealFree (split128 name [8, 16, 32] : Ops p) = true := by
        simp [split128, setBitFrom]
      rw [hsplit]
      cases wo <;> simp [choose]
    · simp only [holds_append, holds_cons]
      refine ⟨⟨?_, ?_⟩, ?_, ?_⟩
      · refine choose_holds (b := b) h.dir ?_ rfl rfl
        rw [glue_global hln, h.value]
        rfl
      · refine split128_holds ?_ ?_ ?_
        · rw [glue_global hln]
          exact h.small
        · rw [glue_global hln]
          exact h.bits
        · intro w i
          rw [glue_global hln]
          exact h.units w i
      · simpa [Op.Honest] using hlow
      · refine memberBody_holds (hconst 16 (by omega) (by omega))
          (memberValues_glue (l := l) (List.mem_range.mpr hsel.1) (hcat _ _) hsel.2.1
            (fun s hs => hsel.2.2 s (List.mem_range.mp hs)) fun _ => ⟨rfl, rfl, rfl, rfl⟩)
          (List.mem_range.mpr hlow) (hr.imp (fun h => h.1.symm) id)
  · exact loadArrayBody_passes (hunit 8) (hcat _ _) (hcat _ _) (h.sel 8 (by simp))
      (hout 8 (by simp)) (hr.imp (fun h => h.1.symm) id)
  · exact loadArray_passes (hconst 8 (by omega) (by omega)) (by decide) (hunit 16) (hcat _ _)
      (hcat _ _) (h.sel 16 (by simp)) (hout 16 (by simp)) (by omega)
      (hr.imp (fun h => h.2.1.symm) id)
  · exact loadArray_passes (hconst 4 (by omega) (by omega)) (by decide) (hunit 32) (hcat _ _)
      (hcat _ _) (h.sel 32 (by simp)) (hout 32 (by simp)) (by omega)
      (hr.imp (fun h => h.2.2.symm) id)

end Open

/-! ## Sign extension and stores -/

section Units

/-- Sign extension of the `n + 1` low bits to a word, as a number. -/
def signExtend (n v : ℕ) : ℕ := if v.testBit n then 2 ^ 32 - 2 ^ n + v % 2 ^ n else v % 2 ^ n

theorem sx_holds {wo : Bool} {n v : ℕ} {output input : Var} (hn : n < 32) (hv : v < 2 ^ (n + 1))
    (hp : v < p) (hin : σ input = (v : ZMod p)) (hsb : σ (.sb input) = flag (v.testBit n))
    (hsv : σ (.sv input) = ((v % 2 ^ n : ℕ) : ZMod p))
    (hout : σ output = ((signExtend n v : ℕ) : ZMod p)) :
    Holds (Op.Honest redo) σ (sx wo n output input) := by
  have hval : (view [input] σ input).val = v := by
    rw [view_mem (by simp), hin, ZMod.val_natCast, Nat.mod_eq_of_lt hp]
  have hlt : v % 2 ^ n < 2 ^ n := Nat.mod_lt _ (Nat.two_pow_pos n)
  have htop : 2 ^ 32 - 2 ^ n = 2 ^ n * (2 ^ (32 - n) - 1) := by
    rw [Nat.mul_sub, mul_one, ← pow_add, show n + (32 - n) = 32 by omega]
  have hor : (2 ^ 32 - 2 ^ n) ||| (v % 2 ^ n) = 2 ^ 32 - 2 ^ n + v % 2 ^ n := by
    rw [htop, ← Nat.two_pow_add_eq_or_of_lt hlt]
  have hsplit : v = v % 2 ^ n + (v.testBit n).toNat * 2 ^ n := by
    have hdiv : v / 2 ^ n < 2 := by
      rw [Nat.div_lt_iff_lt_mul (Nat.two_pow_pos n), mul_comm, ← pow_succ]
      exact hv
    have hbit : (v.testBit n).toNat = v / 2 ^ n := by
      rw [Nat.testBit_eq_decide_div_mod_eq, Nat.mod_eq_of_lt hdiv]
      obtain h0 | h1 := Nat.le_one_iff_eq_zero_or_eq_one.mp (Nat.lt_succ_iff.mp hdiv)
      · rw [h0]
        rfl
      · rw [h1]
        rfl
    rw [hbit, add_comm, mul_comm]
    exact (Nat.div_add_mod v (2 ^ n)).symm
  simp only [sx, holds_append, setBitFrom_honest, holds_cons, holds_nil, and_true, Op.Honest,
    true_and, hval, hor]
  refine ⟨⟨⟨Or.inr hsb.symm, ?_⟩, Or.inr hsv.symm, Or.inr ?_⟩, ?_⟩
  · rw [hsb]
    cases v.testBit n <;> simp
  · rw [hout, signExtend]
  · cases wo with
    | true => simp
    | false =>
        simp only [Bool.false_eq_true, if_false, holds_cons, holds_nil, and_true, Op.Honest,
          lc_cons, lc_nil, Term.eval_put, Term.eval_const, hin, hsb, hsv, hout, signExtend]
        constructor
        · have hcast := congrArg (Nat.cast : ℕ → ZMod p) hsplit
          rw [flag_eq_natCast]
          push_cast at hcast ⊢
          linear_combination -hcast
        · split_ifs with hb
          · rw [hb, flag_true]
            push_cast
            ring
          · rw [Bool.not_eq_true] at hb
            rw [hb, flag_false]
            ring

theorem storeUnit_holds {wo : Bool} {J width : ℕ} {a b : List (Term Var (ZMod p))}
    (hZ : σ (.ZJ J) = 0) (hPC : σ (.PCJ J) = σ .pc4)
    (htarget : σ (.Jw J width) = σ (.is .J J) * σ (.cat .writeMem width))
    (htie : lc σ a * lc σ b = σ (.Jw J width)) :
    Holds (Op.Honest redo) σ (storeUnit wo J width a b) := by
  have hv1 : view [.is .J J, .cat .writeMem width] σ (.is .J J) = σ (.is .J J) :=
    view_mem (by simp)
  have hv2 : view [.is .J J, .cat .writeMem width] σ (.cat .writeMem width) =
      σ (.cat .writeMem width) := view_mem (by simp)
  simp only [storeUnit, holds_append, holds_cons, holds_nil, and_true, Op.Honest, true_and, hv1,
    hv2]
  refine ⟨⟨⟨setVar_holds (by simpa using hZ), setEq_holds hPC⟩, Or.inr htarget.symm⟩, ?_⟩
  cases wo with
  | true => simp
  | false =>
      simp only [Bool.false_eq_true, if_false, holds_cons, holds_nil, and_true, mul, Op.Honest,
        lc_cons, lc_nil, Term.eval_put, htie, htarget]
      constructor <;> ring

end Units

end NexusVm.Circuit
