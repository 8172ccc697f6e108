import NexusVm.Circuit.Riscv
import NexusVm.Circuit.Gadgets

/-!
# Arithmetic gadgets

When the addition, comparison, shift and bit gadgets accept the values of
their names.  The flags of a comparison are parameters, since the rows leave
more than one choice for them.
-/

namespace NexusVm.Circuit

open NexusVm.Builder

variable {p : ℕ} [Fact p.Prime] {σ ρ : Var → ZMod p} {redo : Var → Bool}

section Add

variable {z x y : Var} {xv yv : U32}

/-- The advice of `add_cir`: minus the carry. -/
def carry (p : ℕ) (xv yv : U32) : ZMod p :=
  if 2 ^ 32 ≤ xv.toNat + yv.toNat then 0 - ((0x100000000 : ℕ) : ZMod p) else 0

theorem add_carry (xv yv : U32) :
    ((xv + yv).toNat : ZMod p) = (xv.toNat : ZMod p) + (yv.toNat : ZMod p) + carry p xv yv := by
  unfold carry
  have hx := xv.isLt
  have hy := yv.isLt
  rw [BitVec.toNat_add]
  split_ifs with h
  · have hmod : (xv.toNat + yv.toNat) % 2 ^ 32 + 2 ^ 32 = xv.toNat + yv.toNat := by omega
    have hcast := congrArg (Nat.cast : ℕ → ZMod p) hmod
    push_cast at hcast ⊢
    linear_combination hcast
  · rw [Nat.mod_eq_of_lt (by omega)]
    push_cast
    ring

theorem addCirBody_holds (hx : σ x = (xv.toNat : ZMod p)) (hy : σ y = (yv.toNat : ZMod p))
    (hz : σ z = ((xv + yv).toNat : ZMod p)) (hO : σ .O = carry p xv yv) :
    Holds (Op.Honest redo) σ (addCirBody z x y xv yv) := by
  have hsq : (((0x100000000 : ℕ) : ZMod p) + carry p xv yv) * carry p xv yv = 0 := by
    unfold carry
    split_ifs <;> ring
  simp only [addCirBody, holds_append, setLocalVar_honest, holds_cons, holds_nil, and_true]
  refine ⟨⟨setVar_holds hz, Or.inr hO.symm⟩, ?_, ?_⟩
  · simpa [Op.Honest, hO] using mul_eq_zero.mp hsq
  · simp only [Op.Honest, lc_cons, lc_nil, Term.eval_put, Term.eval_const, hx, hy, hz, hO,
      add_carry]
    ring

theorem addCir_passes (hlx : isLocal x = false) (hly : isLocal y = false)
    (hlz : isLocal z = false) (hx : ρ x = (xv.toNat : ZMod p)) (hy : ρ y = (yv.toNat : ZMod p))
    (hz : ρ z = ((xv + yv).toNat : ZMod p)) :
    Passes (Op.Honest redo) ρ (addCir z x y xv yv) := by
  refine passes_sealed rfl (fun _ => carry p xv yv) (addCirBody_holds ?_ ?_ ?_ rfl)
  · rw [glue_global hlx, hx]
  · rw [glue_global hly, hy]
  · rw [glue_global hlz, hz]

variable {lt eq : Bool}

/-- Global values of `sub_cir` for chosen flags.  The builder chooses
`lt = xv.ult yv` and `eq = (xv == yv)`. -/
structure SubValues (σ : Var → ZMod p) (z x y : Var) (xv yv : U32) (lt eq : Bool) : Prop where
  left : σ x = (xv.toNat : ZMod p)
  right : σ y = (yv.toNat : ZMod p)
  leftMsb : σ (.bit x 31) = flag xv.msb
  rightMsb : σ (.bit y 31) = flag yv.msb
  diff : σ z = (xv.toNat : ZMod p) - (yv.toNat : ZMod p) +
    ((0x100000000 : ℕ) : ZMod p) * flag lt
  zero : eq = true → σ z = 0
  ltFlag : σ (.lt x y) = flag lt
  eqFlag : σ (.eq x y) = flag eq
  geFlag : σ (.ge x y) = flag !lt
  neFlag : σ (.ne x y) = flag !eq
  sltFlag : σ (.slt x y) = flag ((xv.msb != yv.msb) != lt)
  sgeFlag : σ (.sge x y) = flag !((xv.msb != yv.msb) != lt)

/-- Local values of `sub_cir`. -/
def subLocals (F : Type) [Field F] (xv yv : U32) (lt : Bool) : Var → F
  | .ds => flag (xv.msb != yv.msb)
  | .XsYs => flag (xv.msb && yv.msb)
  | .sltl => flag ((xv.msb != yv.msb) && !lt)
  | .sltr => flag (!(xv.msb != yv.msb) && lt)
  | _ => 0

theorem sub_borrow (xv yv : U32) :
    ((xv - yv).toNat : ZMod p) = (xv.toNat : ZMod p) - (yv.toNat : ZMod p) +
      ((0x100000000 : ℕ) : ZMod p) * flag (xv.ult yv) := by
  have hx := xv.isLt
  have hy := yv.isLt
  rw [BitVec.toNat_sub, BitVec.ult_eq_decide]
  by_cases h : xv.toNat < yv.toNat
  · have hmod : (2 ^ 32 - yv.toNat + xv.toNat) % 2 ^ 32 + yv.toNat = xv.toNat + 2 ^ 32 := by omega
    have hcast := congrArg (Nat.cast : ℕ → ZMod p) hmod
    simp only [h, decide_true, flag_true]
    push_cast at hcast ⊢
    linear_combination hcast
  · have hmod : (2 ^ 32 - yv.toNat + xv.toNat) % 2 ^ 32 + yv.toNat = xv.toNat := by omega
    have hcast := congrArg (Nat.cast : ℕ → ZMod p) hmod
    simp only [h, decide_false, flag_false]
    push_cast at hcast ⊢
    linear_combination hcast

theorem slt_eq_flags (xv yv : U32) : xv.slt yv = ((xv.msb != yv.msb) != xv.ult yv) := by
  rw [BitVec.slt_eq_ult]

theorem subCirFlags_holds (h : SubValues σ z x y xv yv lt eq)
    (hr : (lt = xv.ult yv ∧ eq = (xv == yv)) ∨ ∀ n, redo n = true) :
    Holds (Op.Honest redo) σ (subCirFlags z x y xv yv) := by
  have hlt : xv.ult yv = lt ∨ redo (.lt x y) = true := hr.imp (fun h => h.1.symm) fun h => h _
  have heq : (xv == yv) = eq ∨ redo (.eq x y) = true := hr.imp (fun h => h.2.symm) fun h => h _
  have hge : (!xv.ult yv) = !lt ∨ redo (.ge x y) = true :=
    hr.imp (fun h => by rw [h.1]) fun h => h _
  have hne : (xv != yv) = !eq ∨ redo (.ne x y) = true :=
    hr.imp (fun h => by rw [h.2]; rfl) fun h => h _
  have hz : redo z = true ∨ ((xv - yv).toNat : ZMod p) = σ z := by
    rcases hr with ⟨rfl, -⟩ | hr
    · exact Or.inr (by rw [h.diff, sub_borrow])
    · exact Or.inl (hr _)
  simp only [subCirFlags, holds_append, holds_cons, holds_nil, and_true, setVar,
    setFieldVar_honest]
  refine ⟨⟨⟨⟨⟨⟨⟨⟨setBit_holds h.ltFlag hlt, hz⟩, ?_⟩, setBit_holds h.eqFlag heq⟩, ?_⟩,
    setBit_holds h.geFlag hge⟩, ?_⟩, setBit_holds h.neFlag hne⟩, ?_⟩
  · simp only [Op.Honest, lc_cons, lc_nil, Term.eval_put, Term.eval_const, h.left, h.right,
      h.diff, h.ltFlag]
    ring
  · simp only [Op.Honest, lc_cons, lc_nil, Term.eval_put, h.eqFlag]
    cases eq with
    | true => simp [h.zero rfl]
    | false => simp
  · simp only [Op.Honest, lc_cons, lc_nil, Term.eval_put, Term.eval_const, h.ltFlag, h.geFlag]
    cases lt <;> simp
  · simp only [Op.Honest, lc_cons, lc_nil, Term.eval_put, Term.eval_const, h.eqFlag, h.neFlag]
    cases eq <;> simp

theorem subCirSigned_holds (h : SubValues σ z x y xv yv lt eq)
    (hloc : ∀ n, isLocal n = true → σ n = subLocals (ZMod p) xv yv lt n)
    (hr : lt = xv.ult yv ∨ ∀ n, redo n = true) :
    Holds (Op.Honest redo) σ (subCirSigned x y xv yv) := by
  have hds : σ .ds = flag (xv.msb != yv.msb) := hloc .ds rfl
  have hprod : σ .XsYs = flag (xv.msb && yv.msb) := hloc .XsYs rfl
  have hsltl : σ .sltl = flag ((xv.msb != yv.msb) && !lt) := hloc .sltl rfl
  have hsltr : σ .sltr = flag (!(xv.msb != yv.msb) && lt) := hloc .sltr rfl
  have hrb : ∀ {n : Var} {b c : Bool}, (lt = xv.ult yv → b = c) → b = c ∨ redo n = true :=
    fun hbc => hr.imp hbc fun h => h _
  have hslt := slt_eq_flags xv yv
  simp only [subCirSigned, holds_append, holds_cons, holds_nil, and_true, setLocalVar_honest]
  refine ⟨⟨⟨⟨⟨⟨⟨⟨⟨setBit_holds h.sltFlag (hrb fun e => by rw [hslt, e]),
    setBit_holds h.sgeFlag (hrb fun e => by rw [hslt, e])⟩, ?_, trivial⟩,
    setBit_holds hds (Or.inl rfl)⟩, Or.inr hprod.symm⟩, ?_, ?_, trivial⟩,
    setBit_holds hsltl (hrb fun e => by rw [e])⟩, ?_, trivial⟩,
    setBit_holds hsltr (hrb fun e => by rw [e])⟩, ?_, ?_⟩
  · simp only [Op.Honest, lc_cons, lc_nil, Term.eval_put, Term.eval_const, h.sltFlag, h.sgeFlag]
    cases (xv.msb != yv.msb) != lt <;> simp
  · simp only [mul, Op.Honest, lc_cons, lc_nil, Term.eval_put, h.leftMsb, h.rightMsb, hprod]
    cases xv.msb <;> cases yv.msb <;> simp
  · simp only [Op.Honest, lc_cons, lc_nil, Term.eval_put, Term.eval_const, h.leftMsb,
      h.rightMsb, hprod, hds]
    cases xv.msb <;> cases yv.msb <;> norm_num
  · simp only [Op.Honest, lc_cons, lc_nil, Term.eval_put, Term.eval_const, hds, h.ltFlag, hsltl]
    cases xv.msb != yv.msb <;> cases lt <;> simp
  · simp only [Op.Honest, lc_cons, lc_nil, Term.eval_put, Term.eval_const, hds, h.ltFlag, hsltr]
    cases xv.msb != yv.msb <;> cases lt <;> simp
  · simp only [Op.Honest, lc_cons, lc_nil, Term.eval_put, Term.eval_const, hsltl, hsltr, h.sltFlag]
    cases xv.msb != yv.msb <;> cases lt <;> simp

theorem SubValues.glue {l : Var → ZMod p} (h : SubValues ρ z x y xv yv lt eq)
    (hlx : isLocal x = false) (hly : isLocal y = false) (hlz : isLocal z = false) :
    SubValues (Builder.glue ρ l) z x y xv yv lt eq where
  left := by rw [glue_global hlx, h.left]
  right := by rw [glue_global hly, h.right]
  leftMsb := h.leftMsb
  rightMsb := h.rightMsb
  diff := by rw [glue_global hlz, h.diff]
  zero e := by rw [glue_global hlz, h.zero e]
  ltFlag := h.ltFlag
  eqFlag := h.eqFlag
  geFlag := h.geFlag
  neFlag := h.neFlag
  sltFlag := h.sltFlag
  sgeFlag := h.sgeFlag

theorem subCir_passes (hlx : isLocal x = false) (hly : isLocal y = false)
    (hlz : isLocal z = false) (h : SubValues ρ z x y xv yv lt eq)
    (hr : (lt = xv.ult yv ∧ eq = (xv == yv)) ∨ ∀ n, redo n = true) :
    Passes (Op.Honest redo) ρ (subCir z x y xv yv) := by
  refine passes_sealed rfl (subLocals (ZMod p) xv yv lt) ?_
  rw [holds_append]
  exact ⟨subCirFlags_holds (h.glue hlx hly hlz) hr,
    subCirSigned_holds (h.glue hlx hly hlz) (fun n hn => glue_local hn) (hr.imp And.left id)⟩

end Add

/-! ## Shifts, bit operations and branches -/

section Shift

variable {output : Var} {k : ℕ}

variable {t : ℕ → List (Term Var (ZMod p))}

/-- A row that is written in one step for each bit of the result. -/
theorem lc_flatMap_range {b : ℕ → ZMod p} {n : ℕ}
    (h : ∀ i < n, lc σ (t i) = ((2 ^ i : ℕ) : ZMod p) * b i) :
    lc σ ((List.range n).flatMap t) = bitSum ((List.range n).map b) := by
  induction n with
  | zero => simp
  | succ n ih =>
      rw [List.range_succ, List.flatMap_append, List.map_append, lc_append, bitSum_append,
        ih fun i hi => h i (by omega)]
      simp [h n (by omega)]

/-- A row whose bits are those of a word. -/
theorem lc_word {v : U32} (h : ∀ i < 32, lc σ (t i) = ((2 ^ i : ℕ) : ZMod p) * flag (v.getLsbD i)) :
    lc σ ((List.range 32).flatMap t) = (v.toNat : ZMod p) := by
  rw [lc_flatMap_range h]
  have hsum := bitSum_testBit (F := ZMod p) v.toNat 0 32
  rw [pow_zero, Nat.div_one, Nat.mod_eq_of_lt v.isLt, ← List.range_eq_range'] at hsum
  simpa only [BitVec.testBit_toNat] using hsum

variable {X : U32}

theorem lc_shiftRightTerms (hX : IsWord σ .X X) (arith : Bool) {amt : ℕ} :
    lc σ (shiftRightTerms arith amt) =
      ((if arith then X.sshiftRight amt else X >>> amt).toNat : ZMod p) := by
  refine lc_word fun i hi => ?_
  by_cases h : i + amt < 32
  · have hbit : (if arith then X.sshiftRight amt else X >>> amt).getLsbD i =
        X.getLsbD (i + amt) := by
      cases arith
      · simp [Nat.add_comm]
      · simp [BitVec.getLsbD_sshiftRight, Nat.add_comm amt, h, show ¬ 32 ≤ i by omega]
    rw [if_pos h, hbit]
    simp [hX.bit h]
  · have hbit : (if arith then X.sshiftRight amt else X >>> amt).getLsbD i =
        (arith && X.getLsbD 31) := by
      cases arith
      · simp [show 32 ≤ amt + i by omega]
      · simp [BitVec.getLsbD_sshiftRight, Nat.add_comm amt, h, show ¬ 32 ≤ i by omega,
          BitVec.msb_eq_getLsbD_last]
    rw [if_neg h, hbit]
    cases arith
    · simp
    · simp [hX.bit (show 31 < 32 by omega)]

theorem lc_shiftLeftTerms (hX : IsWord σ .X X) {amt : ℕ} :
    lc σ (shiftLeftTerms amt) = ((X <<< amt).toNat : ZMod p) := by
  refine lc_word fun i hi => ?_
  by_cases h : amt ≤ i
  · have hbit : (X <<< amt).getLsbD i = X.getLsbD (i - amt) := by
      rw [BitVec.getLsbD_shiftLeft]
      simp [hi, show ¬ i < amt by omega]
    rw [if_pos h, hbit]
    simp [hX.bit (show i - amt < 32 by omega)]
  · rw [if_neg h]
    simp [show i < amt by omega]

/-- Local values of a shift. -/
def shiftLocals (F : Type) [Field F] (value : ℕ → U32) (k : ℕ) : Var → F
  | .out i => ((value i).toNat : F)
  | .SZ i => if i = k then ((value i).toNat : F) else 0
  | _ => 0

theorem shiftBody_passes {value : ℕ → U32} {terms : ℕ → List (Term Var (ZMod p))}
    (hl : isLocal output = false) (hs : Selects ρ .shamt 32 k)
    (hX : ρ .X = ((value 0).toNat : ZMod p)) (hout : ρ output = ((value k).toNat : ZMod p))
    (hterms : ∀ l, ∀ amt < 32, amt ≠ 0 →
      lc (glue ρ l) (terms amt) = ((value amt).toNat : ZMod p)) :
    Passes (Op.Honest redo) ρ (shiftBody output k value terms ++ [Op.sealLocals]) := by
  refine passes_sealed ?_ (shiftLocals (ZMod p) value k) ?_
  · simp only [shiftBody, setVar, setFieldVar, setLocalVar, mul, sumRow, sealFree_append,
      sealFree_cons, sealFree_nil, sealFree_flatMap, Bool.and_true, Bool.true_and, List.all_eq_true]
    intro amt _
    split_ifs <;> rfl
  · have hlocOut : ∀ amt, glue ρ (shiftLocals (ZMod p) value k) (.out amt) =
        ((value amt).toNat : ZMod p) := fun _ => rfl
    have hlocSZ : ∀ amt, glue ρ (shiftLocals (ZMod p) value k) (.SZ amt) =
        if amt = k then ((value amt).toNat : ZMod p) else 0 := fun _ => rfl
    have hsel : ∀ amt < 32, glue ρ (shiftLocals (ZMod p) value k) (.is .shamt amt) =
        if amt = k then 1 else 0 := hs.2.2
    simp only [shiftBody, holds_append, holds_flatMap, List.mem_range, holds_cons, holds_nil,
      and_true, setLocalVar_honest, sumRow_honest, List.map_map]
    refine ⟨⟨setVar_holds (by rw [glue_global hl, hout]), fun amt hamt => ⟨⟨?_, ?_⟩, ?_⟩⟩, ?_⟩
    · by_cases h0 : amt = 0
      · subst h0
        rw [if_pos rfl]
        simp only [holds_append, holds_cons, holds_nil, and_true]
        exact ⟨trivial, setEq_holds (by rw [hlocOut]; exact hX.symm)⟩
      · rw [if_neg h0]
        simp only [holds_append, holds_cons, holds_nil, and_true, setLocalVar_honest]
        refine ⟨Or.inr (hlocOut amt).symm, ?_⟩
        simp only [Op.Honest, hterms _ amt hamt h0, lc_cons, lc_nil, Term.eval_const,
          Term.eval_put, hlocOut]
        ring
    · exact Or.inr (hlocSZ amt).symm
    · simp only [mul, Op.Honest, lc_cons, lc_nil, Term.eval_put, hsel amt hamt, hlocOut, hlocSZ]
      split_ifs <;> simp
    · rw [glue_global hl, hout,
        sum_map_single (k := k) List.nodup_range (List.mem_range.mpr hs.1)]
      · simp [hlocSZ]
      · intro amt _ hne
        simp [hlocSZ, hne]

theorem IsWord.glue {n : Var} {x : U32} {l : Var → ZMod p} (h : IsWord ρ n x)
    (hl : isLocal n = false) : IsWord (Builder.glue ρ l) n x where
  value := by rw [glue_global hl, h.value]
  bits := h.bits

theorem shiftRight_passes {arith : Bool} (hl : isLocal output = false) (hs : Selects ρ .shamt 32 k)
    (hX : IsWord ρ .X X)
    (hout : ρ output = ((if arith then X.sshiftRight k else X >>> k).toNat : ZMod p)) :
    Passes (Op.Honest redo) ρ (shiftRight output X k arith) := by
  refine shiftBody_passes hl hs ?_ hout fun l amt _ _ =>
    lc_shiftRightTerms (hX.glue rfl) arith
  rw [hX.value]
  cases arith <;> simp

theorem shiftLeft_passes (hl : isLocal output = false) (hs : Selects ρ .shamt 32 k)
    (hX : IsWord ρ .X X) (hout : ρ output = ((X <<< k).toNat : ZMod p)) :
    Passes (Op.Honest redo) ρ (shiftLeft output X k) := by
  refine shiftBody_passes hl hs ?_ hout fun l amt _ _ => lc_shiftLeftTerms (hX.glue rfl)
  rw [hX.value]
  simp

end Shift

section Bitop

variable {output y : Var} {z : U32}

theorem bitop_holds {adj : ZMod p} (hz : IsWord σ output z)
    (hrow : ∀ i < 32, σ (.bit .X i) + σ (.bit y i) + adj * σ (.bit (.conj .X y) i) =
      flag (z.getLsbD i)) :
    Holds (Op.Honest redo) σ (bitop output y z adj) := by
  simp only [bitop, holds_append, holds_flatMap, List.mem_range, holds_cons, holds_nil, and_true]
  refine ⟨toBits_holds hz, fun i hi => ⟨setBit_holds (hz.bit hi) (Or.inl rfl), ?_⟩⟩
  simp only [Op.Honest, lc_cons, lc_nil, Term.eval_put, Term.eval_const, hz.bit hi]
  rw [← hrow i hi]
  ring

/-- The row of `or` and of `xor`, for one bit. -/
theorem flag_or_xor (a b : Bool) :
    (flag a : ZMod p) + flag b + -1 * flag (a && b) = flag (a || b) ∧
      (flag a : ZMod p) + flag b + -2 * flag (a && b) = flag (a ^^ b) := by
  cases a <;> cases b <;> norm_num

end Bitop

section Branch

variable {J : ℕ} {cond inverse : Var} {c : Bool}

/-- Local values of a branch. -/
def branchLocals (ρ : Var → ZMod p) (c : Bool) : Var → ZMod p
  | .left => if c then ρ (.plus .pc .I) else 0
  | .right => if c then 0 else ρ .pc4
  | _ => 0

theorem branch_passes (hl : isLocal cond = false) (hli : isLocal inverse = false)
    (hc : ρ cond = flag c) (hi : ρ inverse = flag !c)
    (hPC : ρ (.PCJ J) = if c then ρ (.plus .pc .I) else ρ .pc4) (hZ : ρ (.ZJ J) = 0) :
    Passes (Op.Honest redo) ρ (branch J cond inverse) := by
  refine passes_sealed rfl (branchLocals ρ c) ?_
  generalize hσ : glue ρ (branchLocals ρ c) = σ
  have hcond : σ cond = flag c := by rw [← hσ, glue_global hl, hc]
  have hinv : σ inverse = flag !c := by rw [← hσ, glue_global hli, hi]
  have hleft : σ .left = if c then σ (.plus .pc .I) else 0 := by rw [← hσ]; rfl
  have hright : σ .right = if c then 0 else σ .pc4 := by rw [← hσ]; rfl
  have hout : σ (.PCJ J) = if c then σ (.plus .pc .I) else σ .pc4 := by rw [← hσ]; exact hPC
  have hz : σ (.ZJ J) = ((0 : U32).toNat : ZMod p) := by
    rw [← hσ]
    exact hZ.trans (by simp)
  have hview : ∀ n ∈ [cond, .plus .pc .I, .pc4],
      view [cond, .plus .pc .I, .pc4] σ n = σ n := fun n hn => view_mem hn
  have hv1 := hview cond (by simp)
  have hv2 := hview (.plus .pc .I) (by simp)
  have hv3 := hview .pc4 (by simp)
  have hv0 : view [cond] σ cond = σ cond := view_mem (by simp)
  simp only [branchBody, holds_append, setLocalVar_honest, holds_cons, holds_nil, and_true,
    Op.Honest, hv0, hv1, hv2, hv3, true_and]
  have hflag : (flag c : ZMod p) = 0 ↔ c = false := by cases c <;> simp
  refine ⟨⟨⟨⟨⟨⟨⟨?_, Or.inr ?_⟩, ?_⟩, Or.inr ?_⟩, ?_⟩, Or.inr ?_, ?_⟩, setVar_holds hz⟩, ?_⟩
  · rw [hcond]
    cases c <;> simp
  · rw [hcond, hleft]
    cases c <;> simp
  · simp only [mul, lc_cons, lc_nil, Term.eval_put, hcond, hleft]
    cases c <;> simp
  · rw [hcond, hright]
    cases c <;> simp
  · simp only [mul, lc_cons, lc_nil, Term.eval_put, hinv, hright]
    cases c <;> simp
  · rw [hcond, hout]
    cases c <;> simp
  · simp only [add, lc_cons, lc_nil, Term.eval_put, Term.eval_const, hleft, hright, hout]
    cases c <;> simp
  · simp [hz]

end Branch

end NexusVm.Circuit
