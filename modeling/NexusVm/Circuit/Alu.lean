import NexusVm.Circuit.AluRows
import NexusVm.Circuit.Wrap

/-!
# Soundness of the arithmetic instructions

When the selected result of an accepted assignment is the result of the
evaluator on the same operands.
-/

namespace NexusVm.Circuit

open NexusVm.Builder

/-- The instructions with an arithmetic result: all of `alu_op` but the comparisons. -/
def isArith : RV32 → Bool
  | .lui .. | .auipc .. => true
  | .alui aop .. => [AOP.add, .sll, .srl, .sra, .or, .and, .xor].contains aop
  | .alu aop .. => [AOP.add, .sub, .sll, .srl, .sra, .or, .and, .xor].contains aop
  | _ => false

/-- The result of the evaluator on the operands `pc`, `X`, `Y` and `I`. -/
def arithZ (pc x y i : U32) : RV32 → U32
  | .lui .. => i
  | .auipc .. => add32 pc i
  | .alui aop .. => aluOp aop x i
  | .alu aop .. => aluOp aop x y
  | _ => 0

/-- **When the rows tie the result down.**  They never do for `lui` and for the
shifts by an immediate, and sums and differences need a large field. -/
def ArithTied (p : ℕ) : RV32 → Prop
  | .lui .. => False
  | .auipc .. => 2 ^ 33 < p
  | .alui .add .. => 2 ^ 33 < p
  | .alui .sll .. | .alui .srl .. | .alui .sra .. => False
  | .alu .add .. | .alu .sub .. => 2 ^ 33 < p
  | _ => True

section Sound

variable {p : ℕ} [Fact p.Prime] {ρ : Var → ZMod p} {P : Type} {w : Witness P}

/-- Of the products with the selectors only the selected one is left. -/
theorem sum_selected {l : Var → ZMod p} (product value : ℕ → Var) {J : ℕ}
    (hJ : J ∈ List.range' 1 RV32.maxJ)
    (his : ∀ j ∈ List.range' 1 RV32.maxJ, l (.is .J j) = flag (j == J))
    (hproduct : ∀ j ∈ List.range' 1 RV32.maxJ, l (.is .J j) * l (value j) = l (product j)) :
    (((List.range' 1 RV32.maxJ).map product).map l).sum = l (value J) := by
  have hsel : ∀ j ∈ List.range' 1 RV32.maxJ, l (product j) = if j = J then l (value j) else 0 := by
    intro j hj
    rw [← hproduct j hj, his j hj]
    by_cases hjJ : j = J
    · rw [if_pos hjJ, hjJ, beq_self_eq_true, flag_true, one_mul]
    · rw [if_neg hjJ, beq_false_of_ne hjJ, flag_false, zero_mul]
  rw [List.map_map, sum_map_single (k := J) List.nodup_range' hJ]
  · rw [Function.comp_apply, hsel J hJ, if_pos rfl]
  · intro j hj hne
    rw [Function.comp_apply, hsel j hj, if_neg hne]

/-- The rows of `Z` and `PC`: they are those of the one selected instruction. -/
theorem selected_of_fits {J : ℕ} (h : Fits Op.Sat ρ (selectJ w))
    (hJ : J ∈ List.range' 1 RV32.maxJ)
    (his : ∀ j ∈ List.range' 1 RV32.maxJ, ρ (.is .J j) = flag (j == J)) :
    ρ .Z = ρ (.ZJ J) ∧ ρ .PC = ρ (.PCJ J) := by
  obtain ⟨l, hrows⟩ := h.holds_all (by simp [selectJ, setVar, setFieldVar, mul, sumRow])
  simp only [selectJ, holds_append, holds_flatMap, holds_cons, holds_nil, and_true] at hrows
  obtain ⟨hprod, hZ, hPC⟩ := hrows
  have hrow : ∀ {prod value : Var} {j : ℕ}, Op.Sat (glue ρ l) (mul prod (.is .J j) value) →
      glue ρ l (.is .J j) * glue ρ l value = glue ρ l prod := by
    intro prod value j hmul
    simpa only [mul, Op.Sat, lc_cons, lc_nil, Term.eval_put, one_mul, add_zero] using hmul
  constructor
  · exact (sumRow_sat.mp hZ).trans
      (sum_selected Var.JZ Var.ZJ hJ his fun j hj => hrow (hprod j hj).1.1.2)
  · exact (sumRow_sat.mp hPC).trans
      (sum_selected Var.JPC Var.PCJ hJ his fun j hj => hrow (hprod j hj).2)

/-- The shift amount of a register operation: the low bits of `Y`. -/
theorem shamt_of_fits (hp : 2 ^ 32 < p) {y : U32} (hY : IsWord ρ .Y y)
    (h19 : ρ (.is .opcode 19) = 0) (h51 : ρ (.is .opcode 51) = 1)
    (hparse : Fits Op.Sat ρ (parseShamt false w.Y)) (hshift : Fits Op.Sat ρ (shift false w)) :
    Selects ρ .shamt 32 (y &&& 0x1f).toNat := by
  unfold parseShamt at hparse
  obtain ⟨l, hrows⟩ := hparse.holds (by
    simp [parseShamtBody, setVar, setFieldVar, setLocalVar, mul, add])
  simp only [parseShamtBody, holds_append, Bool.false_eq_true, if_false, holds_cons, holds_nil,
    and_true, mul, add, Op.Sat, lc_cons, lc_nil, lc_powRow, Term.eval_put, Term.eval_const,
    one_mul, mul_one, add_zero] at hrows
  obtain ⟨-, hlow, hI, hR, hsum⟩ := hrows
  have hbits : HasBits (glue ρ l) .Y y.toNat 32 := hY.bits
  rw [hbits.sum_names (by omega), pow_zero, Nat.div_one, ← lowY_toNat] at hlow
  rw [show glue ρ l (.is .opcode 19) = 0 from h19, zero_mul] at hI
  rw [show glue ρ l (.is .opcode 51) = 1 from h51, one_mul] at hR
  rw [← hI, ← hR, zero_add, ← hlow, glue_global rfl] at hsum
  have hlt : (y &&& 0x1f).toNat < 32 := by
    rw [lowY_toNat]
    exact Nat.mod_lt _ (by decide)
  unfold shift at hshift
  obtain ⟨k, hk⟩ := Fits.selector (constants_range hp (by omega) (by omega)) rfl
    hshift.left.left.left.left.left.left
  have heq : (y &&& 0x1f).toNat = k :=
    (cast_eq_iff hp (by omega) (by have := hk.1; omega)).mp (hsum.trans hk.2.1)
  rwa [heq]

/-- The conjunctions of `bitops`. -/
theorem conj_of_fits {x y i : U32} (hX : IsWord ρ .X x) (hY : IsWord ρ .Y y)
    (hI : IsWord ρ .I i) (h : Fits Op.Sat ρ (bitops w)) :
    IsWord ρ (.conj .X .Y) (x &&& y) ∧ IsWord ρ (.conj .X .I) (x &&& i) := by
  unfold bitops at h
  have hwords := h.left.left.left.left.left.left
  obtain ⟨a, ha⟩ := Fits.toBits rfl hwords.left.left
  obtain ⟨b, hb⟩ := Fits.toBits rfl hwords.left.right
  obtain ⟨l, hrows⟩ := hwords.right.holds_all (by simp [setBit, setBitFrom, mul])
  simp only [holds_flatMap, List.mem_range, holds_append, holds_cons, holds_nil, and_true, mul,
    Op.Sat, lc_cons, lc_nil, Term.eval_put, one_mul, add_zero] at hrows
  have hXY := conj_word hX hY ha fun j hj => (hrows j hj).1.1.2
  have hXI := conj_word hX hI hb fun j hj => (hrows j hj).2
  exact ⟨hXY ▸ ha, hXI ▸ hb⟩

/-! ## The results and accepted assignments -/

/-- The words that an accepted assignment computes with. -/
structure Words (ρ : Var → ZMod p) (pc x y i z : U32) : Prop where
  pc : ρ .pc = (pc.toNat : ZMod p)
  X : IsWord ρ .X x
  Y : IsWord ρ .Y y
  I : IsWord ρ .I i
  Z : ρ .Z = (z.toNat : ZMod p)

variable {pc x y i z : U32}

/-- Bit by bit, `or` and `xor` from the conjunction. -/
theorem word_or_xor (a b : U32) (j : ℕ) :
    (flag (a.getLsbD j) : ZMod p) + flag (b.getLsbD j) + -1 * flag ((a &&& b).getLsbD j) =
        flag ((a ||| b).getLsbD j) ∧
      (flag (a.getLsbD j) : ZMod p) + flag (b.getLsbD j) + -2 * flag ((a &&& b).getLsbD j) =
        flag ((a ^^^ b).getLsbD j) := by
  rw [BitVec.getLsbD_and, BitVec.getLsbD_or, BitVec.getLsbD_xor]
  exact flag_or_xor _ _

/-- Register operations. -/
theorem alu_of_fits (hp : 2 ^ 32 < p) (hw : Words ρ pc x y i z)
    (h : Fits Op.Sat ρ (alu false w)) {aop : AOP}
    {rd rs1 rs2 : U32} (hop : isArith (.alu aop rd rs1 rs2) = true)
    (htied : ArithTied p (.alu aop rd rs1 rs2)) (hs : Selects ρ .shamt 32 (y &&& 0x1f).toNat)
    (hZ : ρ .Z = ρ (.ZJ (RV32.alu aop rd rs1 rs2).indexJ)) : z = aluOp aop x y := by
  unfold alu at h
  have hsums := h.left.left.left.left
  have hshift := h.left.left.right
  have hbits := h.left.right
  have hconj := (conj_of_fits hw.X hw.Y hw.I hbits).1
  unfold shift at hshift
  unfold bitops at hbits
  have hword : ∀ {r : U32}, ρ (.ZJ (RV32.alu aop rd rs1 rs2).indexJ) = (r.toNat : ZMod p) → z = r :=
    fun hr => word_inj hp (hw.Z.symm.trans (hZ.trans hr))
  cases aop with
  | add =>
      have hadd := hsums.left.left.left
      have hsum : ρ (.plus .X .Y) = ρ .Z := (Fits.setEq rfl rfl hadd.right).symm.trans hZ.symm
      exact Fits.plus htied rfl rfl rfl hadd.left hw.X.value hw.Y.value (hsum.trans hw.Z)
  | sub =>
      have hsub := hsums.left.right
      obtain ⟨c, hc⟩ := Fits.subCir rfl rfl rfl hsub.left
      have hdiff : ρ (.minus .X .Y) = ρ .Z := (Fits.setEq rfl rfl hsub.right).symm.trans hZ.symm
      rw [hdiff, hw.Z, hw.X.value, hw.Y.value] at hc
      exact sub_word htied hc
  | slt => cases hop
  | sltu => cases hop
  | sll => exact hword (Fits.shiftLeft rfl hs hw.X hshift.left.left.right)
  | srl => exact hword (Fits.shiftRight rfl hs hw.X hshift.left.right)
  | sra => exact hword (Fits.shiftRight rfl hs hw.X hshift.right)
  | or =>
      exact hword (Fits.bitop rfl hw.X hw.Y hconj (fun j _ => (word_or_xor x y j).1)
        hbits.left.left.right)
  | and =>
      exact hword ((Fits.setEq rfl rfl hbits.left.left.left.left.right).trans hconj.value)
  | xor =>
      exact hword (Fits.bitop rfl hw.X hw.Y hconj (fun j _ => (word_or_xor x y j).2) hbits.right)

/-- Operations with an immediate. -/
theorem alui_of_fits (hp : 2 ^ 32 < p) (hw : Words ρ pc x y i z)
    (h : Fits Op.Sat ρ (alu false w)) {aop : AOP}
    {rd rs1 imm : U32} (hop : isArith (.alui aop rd rs1 imm) = true)
    (htied : ArithTied p (.alui aop rd rs1 imm))
    (hZ : ρ .Z = ρ (.ZJ (RV32.alui aop rd rs1 imm).indexJ)) : z = aluOp aop x i := by
  unfold alu at h
  have hsums := h.left.left.left.left
  have hbits := h.left.right
  have hconj := (conj_of_fits hw.X hw.Y hw.I hbits).2
  unfold bitops at hbits
  have hword : ∀ {r : U32}, ρ (.ZJ (RV32.alui aop rd rs1 imm).indexJ) = (r.toNat : ZMod p) →
      z = r := fun hr => word_inj hp (hw.Z.symm.trans (hZ.trans hr))
  cases aop with
  | add =>
      have hadd := hsums.left.left.right
      have hsum : ρ (.plus .X .I) = ρ .Z := (Fits.setEq rfl rfl hadd.right).symm.trans hZ.symm
      exact Fits.plus htied rfl rfl rfl hadd.left hw.X.value hw.I.value (hsum.trans hw.Z)
  | sub => cases hop
  | slt => cases hop
  | sltu => cases hop
  | sll => exact htied.elim
  | srl => exact htied.elim
  | sra => exact htied.elim
  | or =>
      exact hword (Fits.bitop rfl hw.X hw.I hconj (fun j _ => (word_or_xor x i j).1)
        hbits.left.left.left.right)
  | and =>
      exact hword ((Fits.setEq rfl rfl hbits.left.left.left.left.left.right).trans hconj.value)
  | xor =>
      exact hword (Fits.bitop rfl hw.X hw.I hconj (fun j _ => (word_or_xor x i j).2)
        hbits.left.right)

/-- `auipc`. -/
theorem auipc_of_fits {rd imm : U32} (hp : 2 ^ 33 < p) (hw : Words ρ pc x y i z)
    (hsum : Fits Op.Sat ρ (addCir (.plus .pc .I) .pc .I w.regs.pc w.I))
    (h : Fits Op.Sat ρ auipcCs) (hZ : ρ .Z = ρ (.ZJ (RV32.auipc rd imm).indexJ)) :
    z = add32 pc i := by
  have heq : ρ (.plus .pc .I) = ρ .Z := (Fits.setEq rfl rfl h.left).symm.trans hZ.symm
  exact Fits.plus hp rfl rfl rfl hsum hw.pc hw.I.value (heq.trans hw.Z)

variable [MemoryProof P p] {cs : R1CS Var (ZMod p)}

/-- The operands and the result are words. -/
theorem exists_words (h : step w false = some cs) {z : ℕ → ZMod p} (hz : z 0 = 1)
    (hsat : cs.Sat z) : ∃ pc x y i r : U32, Words (fun n => z (cs.var n)) pc x y i r := by
  have hfit := step_sound h hz hsat
  have hpc : Fits Op.Sat (fun n => z (cs.var n)) (toBits .pc w.regs.pc) :=
    hfit.of_mem (by simp [stepGadgets])
  have hX : Fits Op.Sat (fun n => z (cs.var n)) (toBits .X w.X) :=
    hfit.of_mem (by simp [stepGadgets])
  have hY : Fits Op.Sat (fun n => z (cs.var n)) (toBits .Y w.Y) :=
    hfit.of_mem (by simp [stepGadgets])
  have hI : Fits Op.Sat (fun n => z (cs.var n)) (toBits .I w.I) :=
    hfit.of_mem (by simp [stepGadgets])
  have hZ : Fits Op.Sat (fun n => z (cs.var n)) (toBits .Z w.Z) :=
    hfit.of_mem (by simp [stepGadgets])
  obtain ⟨pc, hpc⟩ := Fits.toBits rfl hpc
  obtain ⟨x, hX⟩ := Fits.toBits rfl hX
  obtain ⟨y, hY⟩ := Fits.toBits rfl hY
  obtain ⟨i, hI⟩ := Fits.toBits rfl hI
  obtain ⟨r, hZ⟩ := Fits.toBits rfl hZ
  exact ⟨pc, x, y, i, r, hpc.value, hX, hY, hI, hZ.value⟩

/-- **An instruction is sound**: in every accepted assignment that selects it, `Z` is
the result of the evaluator. -/
def ArithSound (cs : R1CS Var (ZMod p)) (inst : RV32) : Prop :=
  ∀ z, z 0 = 1 → cs.Sat z → z (cs.var (.is .J inst.indexJ)) = 1 →
    ∀ pc x y i : U32, z (cs.var .pc) = (pc.toNat : ZMod p) → z (cs.var .X) = (x.toNat : ZMod p) →
      z (cs.var .Y) = (y.toNat : ZMod p) → z (cs.var .I) = (i.toNat : ZMod p) →
        z (cs.var .Z) = ((arithZ pc x y i inst).toNat : ZMod p)

variable {inst : RV32}

/-- What an accepted assignment selects, as flags of the opcode. -/
theorem selector_of_accepted (hp : 2 ^ 32 < p) (h : step w false = some cs) {z : ℕ → ZMod p}
    (hz : z 0 = 1) (hsat : cs.Sat z) (hsel : z (cs.var (.is .J inst.indexJ)) = 1) :
    (∀ j ∈ List.range' 1 RV32.maxJ, z (cs.var (.is .J j)) = flag (j == inst.indexJ)) ∧
      ∃ k : Key, decodes k inst.indexJ = true ∧ ReadsKey (fun n => z (cs.var n)) k := by
  obtain ⟨word, J, hinst, -, hdec, hval⟩ := exists_decodes hp h hz hsat
  obtain ⟨word', hinst', -, hreads⟩ := exists_readsKey hp (step_sound h hz hsat)
  obtain rfl : word = word' := word_inj hp (hinst.symm.trans hinst')
  have hmem : inst.indexJ ∈ List.range' 1 RV32.maxJ := by
    have hj := inst.indexJ_mem
    rw [List.mem_range'_1]
    omega
  have hJ : inst.indexJ = J := by
    have hflag := (hval _ hmem).symm.trans hsel
    rw [← flag_true] at hflag
    exact beq_iff_eq.mp (flag_inj hflag)
  rw [hJ]
  exact ⟨hval, keyOf word, hdec, hreads⟩

/-- The opcode that goes with a register operation. -/
theorem opcode_of_alu {k : Key} {aop : AOP} {rd rs1 rs2 : U32}
    (hd : decodes k (RV32.alu aop rd rs1 rs2).indexJ = true) : k.opc = 51 := by
  have hJ := (RV32.alu aop rd rs1 rs2).indexJ_mem
  have h20 : (RV32.alu aop rd rs1 rs2).indexJ ≠ 20 := by
    cases aop <;> simp [RV32.indexJ]
  have hsel := selects_of_decodes hd hJ.1 hJ.2 h20
  rw [beq_self_eq_true] at hsel
  have hopc : (k.opc == 51) = true := by
    cases aop <;> first | exact hsel | exact (Bool.and_eq_true_iff.mp hsel).1
  exact beq_iff_eq.mp hopc

/-- **Soundness**: the result is that of the evaluator, where the rows tie it down. -/
theorem arithSound_of_tied (hp : 2 ^ 32 < p) (h : step w false = some cs)
    (harith : isArith inst = true) (htied : ArithTied p inst) : ArithSound cs inst := by
  intro z hz hsat hsel pc x y i hpc hX hY hI
  have hfit := step_sound h hz hsat
  obtain ⟨pc', x', y', i', r, hw⟩ := exists_words h hz hsat
  obtain rfl : pc' = pc := word_inj hp (hw.pc.symm.trans hpc)
  obtain rfl : x' = x := word_inj hp (hw.X.value.symm.trans hX)
  obtain rfl : y' = y := word_inj hp (hw.Y.value.symm.trans hY)
  obtain rfl : i' = i := word_inj hp (hw.I.value.symm.trans hI)
  obtain ⟨hflags, k, hdec, hreads⟩ := selector_of_accepted hp h hz hsat hsel
  have hmem : inst.indexJ ∈ List.range' 1 RV32.maxJ := by
    have hj := inst.indexJ_mem
    rw [List.mem_range'_1]
    omega
  have hselect : Fits Op.Sat (fun n => z (cs.var n)) (selectJ w) :=
    hfit.of_mem (by simp [stepGadgets])
  have halu : Fits Op.Sat (fun n => z (cs.var n)) (alu false w) :=
    hfit.of_mem (by simp [stepGadgets])
  have hZ := (selected_of_fits hselect hmem hflags).1
  suffices hr : r = arithZ pc' x' y' i' inst by
    rw [← hr]
    exact hw.Z
  cases inst with
  | lui => exact htied.elim
  | auipc rd imm =>
      have hsum : Fits Op.Sat (fun n => z (cs.var n))
          (addCir (.plus .pc .I) .pc .I w.regs.pc w.I) := hfit.of_mem (by simp [stepGadgets])
      have hauipc : Fits Op.Sat (fun n => z (cs.var n)) auipcCs :=
        hfit.of_mem (by simp [stepGadgets])
      exact auipc_of_fits htied hw hsum hauipc hZ
  | alui aop => exact alui_of_fits hp hw halu harith htied hZ
  | alu aop =>
      have hopc := opcode_of_alu hdec
      have h19 := hreads.opc 19 (by decide)
      have h51 := hreads.opc 51 (by decide)
      rw [hopc] at h19 h51
      have hparse : Fits Op.Sat (fun n => z (cs.var n)) (parseShamt false w.Y) :=
        hfit.of_mem (by simp [stepGadgets])
      have hshift : Fits Op.Sat (fun n => z (cs.var n)) (shift false w) := by
        unfold alu at halu
        exact halu.left.left.right
      exact alu_of_fits hp hw halu harith htied (shamt_of_fits hp hw.Y h19 h51 hparse hshift) hZ
  | _ => cases harith

/-! ## Wrong results -/

variable {word : U32}

/-- On cleared registers a sound instruction leaves no choice of the result. -/
theorem result_of_arithSound (hp : 2 ^ 32 < p) (h : step w false = some cs) {J : ℕ} {s : Sums}
    (hs : ArithSound cs inst) (hindex : inst.indexJ = J) (hopc : (opcode word).toNat ∈ opcodes)
    (hdec : decodes (keyOf word) J = true) (hJ : J ∈ [1, 2, 19, 29]) (hrd : rd word = 0)
    (hacc : s.Accepted p) :
    s.result J = arithZ 0 0 0 0 inst := by
  subst hindex
  obtain ⟨z, hz, hsat, hval⟩ := exists_wrapped hp h hopc hdec hJ hrd hacc
  have hsel : z (cs.var (.is .J inst.indexJ)) = 1 := by
    rw [hval _ (isJ_mem_mainNames inst)]
    exact if_pos rfl
  have hZ := hs z hz hsat hsel 0 0 0 0 (hval .pc (by decide)) (hval .X (by decide))
    (hval .Y (by decide)) (hval .I (by decide))
  exact word_inj hp ((hval .Z (by decide)).symm.trans hZ)

theorem zeroSum_zero : ZeroSum p 0 := by
  show _ * ((0 : ℕ) : ZMod p) = 0
  rw [Nat.cast_zero, mul_zero]

/-- In a field of at most `2 ^ 33` elements, minus `2 ^ 32` is a word. -/
theorem exists_wrap (hp : 2 ^ 32 < p) (hsmall : ¬ 2 ^ 33 < p) :
    ∃ v : U32, v ≠ 0 ∧ ((0x100000000 : ℕ) : ZMod p) + (v.toNat : ZMod p) = 0 := by
  have hne : p ≠ 2 ^ 33 := by
    rintro rfl
    have hprime : Nat.Prime (2 ^ 33) := Fact.out
    exact Nat.Prime.not_prime_pow (by omega) hprime
  have hnat : (BitVec.ofNat 32 (p - 2 ^ 32)).toNat = p - 2 ^ 32 := by
    rw [BitVec.toNat_ofNat, Nat.mod_eq_of_lt (by omega)]
  refine ⟨BitVec.ofNat 32 (p - 2 ^ 32), fun h0 => ?_, ?_⟩
  · rw [h0] at hnat
    simp at hnat
    omega
  · rw [hnat, ← Nat.cast_add, show 0x100000000 + (p - 2 ^ 32) = p by omega, ZMod.natCast_self]

/-- In a small field a sum of zeros need not be zero. -/
theorem big_of_arithSound (hp : 2 ^ 32 < p) (h : step w false = some cs) {J : ℕ}
    (hs : ArithSound cs inst) (hindex : inst.indexJ = J) (hopc : (opcode word).toNat ∈ opcodes)
    (hdec : decodes (keyOf word) J = true) (hJ : J ∈ [2, 19, 29]) (hrd : rd word = 0)
    (hzero : arithZ 0 0 0 0 inst = 0) :
    2 ^ 33 < p := by
  by_contra hsmall
  obtain ⟨v, hv, hcast⟩ := exists_wrap hp hsmall
  have hsum : ZeroSum p v := by rw [ZeroSum, hcast, zero_mul]
  have hres := result_of_arithSound (s := ⟨v, v, v, 0⟩) hp h hs hindex hopc hdec
    (List.mem_cons_of_mem _ hJ) hrd ⟨hsum, hsum, hsum⟩
  rw [hzero] at hres
  refine hv (Eq.trans ?_ hres)
  fin_cases hJ <;> rfl

/-- `sub x0, x1, x0`. -/
def subWord : U32 := 0x40008033

/-- The choices for a difference of `x1` and zero. -/
def wrapSub (v : U32) : Draft p := plain (twoRegs v 0) subWord 30 0

theorem wrapSub_X (v : U32) : (wrapSub v : Draft p).X = v :=
  flipped_X (p := p) (a := v) (b := 0) (I := 0) (J := 30) (by decide)

theorem wrapSub_Y (v : U32) : (wrapSub v : Draft p).Y = 0 := by
  have hy : Fin.ofNat 32 (if (opcode subWord).toNat ∈ [opcBr, opcStore, opcAlu] then rs2 subWord
      else 0).toNat = 0 := by decide
  show (twoRegs v 0).x (Fin.ofNat 32 (if (opcode subWord).toNat ∈ [opcBr, opcStore, opcAlu]
    then rs2 subWord else 0).toNat) = 0
  rw [hy]
  rfl

/-- With a borrow, the difference of minus `2 ^ 32` and zero is zero. -/
theorem wrapSub_fitting (hp : 2 ^ 32 < p) {v : U32}
    (hv : ((0x100000000 : ℕ) : ZMod p) + (v.toNat : ZMod p) = 0) :
    Fitting { (wrapSub v : Draft p).witness with Z := 0 }
      { (wrapSub v : Draft p).f with ltXY := true } := by
  have hd : (wrapSub v : Draft p).Sound := plain_sound hp (by decide) (by decide)
  have hf := hd.fitting
  have hX : (wrapSub v : Draft p).witness.X = v := wrapSub_X v
  have hY : (wrapSub v : Draft p).witness.Y = 0 := wrapSub_Y v
  have hdiff : (diff (wrapSub v : Draft p).witness.X (wrapSub v : Draft p).witness.Y true :
      ZMod p) = 0 := by
    rw [diff, hX, hY, flag_true, mul_one, show ((0 : U32).toNat : ZMod p) = 0 from Nat.cast_zero,
      sub_zero, add_comm]
    exact hv
  exact
    { opcode := hf.opcode
      lt := hf.lt
      X := hf.X
      Y := hf.Y
      shamt := hf.shamt
      decodes := hf.decodes
      Z := Nat.cast_zero.trans hdiff.symm
      eqXY := fun he => by cases he
      eqXI := fun he => by cases he
      units := hf.units
      readHalf := hf.readHalf
      writeHalf := hf.writeHalf
      sb := fun h => by cases h
      sh := fun h => by cases h
      sw := fun h => by cases h
      rd := hf.rd
      rs1 := hf.rs1
      rs2 := hf.rs2
      PC := rfl }

/-- In a small field subtraction is not sound. -/
theorem big_of_arithSound_sub (hp : 2 ^ 32 < p) (h : step w false = some cs)
    {rd rs1 rs2 : U32} (hs : ArithSound cs (.alu .sub rd rs1 rs2)) : 2 ^ 33 < p := by
  by_contra hsmall
  obtain ⟨v, hne, hv⟩ := exists_wrap hp hsmall
  obtain ⟨z, hz, hsat, hval⟩ := exists_sat hp h (wrapSub_fitting hp hv)
  have hsel : z (cs.var (.is .J 30)) = 1 := hval (.is .J 30) (by decide)
  have hX : z (cs.var .X) = (v.toNat : ZMod p) :=
    (hval .X (by decide)).trans (congrArg (fun x : U32 => (x.toNat : ZMod p)) (wrapSub_X v))
  have hY : z (cs.var .Y) = ((0 : U32).toNat : ZMod p) :=
    (hval .Y (by decide)).trans (congrArg (fun y : U32 => (y.toNat : ZMod p)) (wrapSub_Y v))
  have hZ := hs z hz hsat hsel 0 v 0 0 (hval .pc (by decide)) hX hY (hval .I (by decide))
  have hzero : 0 = aluOp .sub v 0 := word_inj hp ((hval .Z (by decide)).symm.trans hZ)
  have hsub : aluOp .sub v 0 = v := BitVec.sub_zero _
  exact hne (hzero.trans hsub).symm

theorem flipped_shamt {a b word I : U32} {J : ℕ} (hopc : (opcode word).toNat = 19)
    (hs : NexusVm.shamt word = 0) : (flipped a b word J I : Draft p).shamt = 0 := by
  show (if (opcode word).toNat = 19 then NexusVm.shamt word else _) = 0
  rw [if_pos hopc, hs]

/-- A shift of `1` by the amount of the word, `0`, and not by the immediate `1`. -/
theorem not_arithSound_shift (hp : 2 ^ 32 < p) (h : step w false = some cs) {inst i : RV32}
    (hparse : parseU32 word = some i) (hindex : i.indexJ = inst.indexJ) (h20 : i.indexJ ≠ 20)
    (h30 : i.indexJ ≠ 30)
    (hx : Fin.ofNat 32 (if (opcode word).toNat ∈ [opcLui, opcAuipc, opcJal, opcEcall] then 0 else rs1 word).toNat = 1)
    (hopc : (opcode word).toNat = 19) (hshamt : NexusVm.shamt word = 0)
    (hres : (flipped 1 0 word i.indexJ 1 : Draft p).X = 1 → (flipped 1 0 word i.indexJ 1 : Draft p).shamt = 0 → (flipped 1 0 word i.indexJ 1 : Draft p).witness.Z = 1)
    (hne : ∀ y : U32, arithZ 0 1 y 1 inst ≠ 1) : ¬ ArithSound cs inst := by
  intro hs
  obtain ⟨z, hz, hsat, hX, hY, hI, hpc, hval⟩ :=
    exists_flipped (a := 1) (b := 0) (I := 1) hp h hparse h20 h30 hx
  have hsel : z (cs.var (.is .J inst.indexJ)) = 1 := by
    rw [hval _ (isJ_mem_mainNames inst), ← hindex]
    exact if_pos rfl
  have hZ := hs z hz hsat hsel 0 1 _ 1 hpc hX hY hI
  have hone := word_inj hp ((hval .Z (by decide)).symm.trans hZ)
  exact hne _ (hone.symm.trans (hres (flipped_X hx) (flipped_shamt hopc hshamt)))

/-- The shifts by an immediate are not sound. -/
theorem not_arithSound_shifts (hp : 2 ^ 32 < p) (h : step w false = some cs) {aop : AOP}
    {rd rs1 imm : U32} (haop : aop ∈ [AOP.sll, .srl, .sra]) :
    ¬ ArithSound cs (.alui aop rd rs1 imm) := by
  have hsll : aluOp .sll 1 1 ≠ 1 := by decide
  have hsrl : aluOp .srl 1 1 ≠ 1 := by decide
  have hsra : aluOp .sra 1 1 ≠ 1 := by decide
  fin_cases haop
  · have hparse : parseU32 0x9193 = some (.alui .sll 3 1 0) := by decide
    refine not_arithSound_shift hp h hparse rfl (by decide) (by decide) (by decide) (by decide)
      (by decide) (fun hX hs => ?_) fun _ => hsll
    show (flipped 1 0 0x9193 21 1 : Draft p).X <<<
      (flipped 1 0 0x9193 21 1 : Draft p).shamt.toNat = 1
    rw [show (flipped 1 0 0x9193 21 1 : Draft p).X = 1 from hX,
      show (flipped 1 0 0x9193 21 1 : Draft p).shamt = 0 from hs]
    decide
  · have hparse : parseU32 0xd193 = some (.alui .srl 3 1 0) := by decide
    refine not_arithSound_shift hp h hparse rfl (by decide) (by decide) (by decide) (by decide)
      (by decide) (fun hX hs => ?_) fun _ => hsrl
    show (flipped 1 0 0xd193 25 1 : Draft p).X >>>
      (flipped 1 0 0xd193 25 1 : Draft p).shamt.toNat = 1
    rw [show (flipped 1 0 0xd193 25 1 : Draft p).X = 1 from hX,
      show (flipped 1 0 0xd193 25 1 : Draft p).shamt = 0 from hs]
    decide
  · have hparse : parseU32 0x4000d193 = some (.alui .sra 3 1 0) := by decide
    refine not_arithSound_shift hp h hparse rfl (by decide) (by decide) (by decide) (by decide)
      (by decide) (fun hX hs => ?_) fun _ => hsra
    show (flipped 1 0 0x4000d193 26 1 : Draft p).X.sshiftRight
      (flipped 1 0 0x4000d193 26 1 : Draft p).shamt.toNat = 1
    rw [show (flipped 1 0 0x4000d193 26 1 : Draft p).X = 1 from hX,
      show (flipped 1 0 0x4000d193 26 1 : Draft p).shamt = 0 from hs]
    decide

/-- **Unsoundness**: an instruction is sound only where the rows tie its result down. -/
theorem tied_of_arithSound (hp : 2 ^ 32 < p) (h : step w false = some cs)
    (harith : isArith inst = true) (hs : ArithSound cs inst) : ArithTied p inst := by
  cases inst with
  | lui =>
      have hopc : (opcode 0x37).toNat ∈ opcodes := by decide
      have hres := result_of_arithSound (J := 1) (s := ⟨0, 0, 0, 1⟩) hp h hs rfl hopc (by decide)
        (by decide) (by decide) ⟨zeroSum_zero, zeroSum_zero, zeroSum_zero⟩
      cases hres
  | auipc =>
      have hopc : (opcode 0x17).toNat ∈ opcodes := by decide
      exact big_of_arithSound (J := 2) hp h hs rfl hopc (by decide) (by decide) (by decide) rfl
  | alui aop =>
      cases aop with
      | add =>
          have hopc : (opcode 0x13).toNat ∈ opcodes := by decide
          exact big_of_arithSound (J := 19) hp h hs rfl hopc (by decide) (by decide) (by decide) rfl
      | sll => exact not_arithSound_shifts hp h (by decide) hs
      | srl => exact not_arithSound_shifts hp h (by decide) hs
      | sra => exact not_arithSound_shifts hp h (by decide) hs
      | _ => trivial
  | alu aop =>
      cases aop with
      | add =>
          have hopc : (opcode 0x33).toNat ∈ opcodes := by decide
          exact big_of_arithSound (J := 29) hp h hs rfl hopc (by decide) (by decide) (by decide) rfl
      | sub => exact big_of_arithSound_sub hp h hs
      | _ => trivial
  | _ => cases harith

/-- **The arithmetic instructions**: operands and result are words in every accepted
assignment, and the result is that of the evaluator exactly for the instructions
that the rows tie down. -/
theorem arith_sound_iff (hp : 2 ^ 32 < p) (h : step w false = some cs) :
    (∀ z, z 0 = 1 → cs.Sat z → ∀ n ∈ [Var.pc, .X, .Y, .I, .Z],
      ∃ a : U32, z (cs.var n) = (a.toNat : ZMod p)) ∧
      ∀ inst, isArith inst = true → (ArithSound cs inst ↔ ArithTied p inst) := by
  constructor
  · intro z hz hsat n hn
    obtain ⟨pc, x, y, i, r, hw⟩ := exists_words h hz hsat
    fin_cases hn
    · exact ⟨pc, hw.pc⟩
    · exact ⟨x, hw.X.value⟩
    · exact ⟨y, hw.Y.value⟩
    · exact ⟨i, hw.I.value⟩
    · exact ⟨r, hw.Z⟩
  · intro inst harith
    exact ⟨tied_of_arithSound hp h harith, arithSound_of_tied hp h harith⟩

/-- The circuit of `addi x0, x0, 0`, and `sub`. -/
theorem arith_sound_iff_idle :
    ∃ cs : R1CS Var (ZMod prime521), step (idle : Draft prime521).witness false = some cs ∧
      (ArithSound cs (.alu .sub 0 0 0) ↔ 2 ^ 33 < prime521) := by
  obtain ⟨cs, hcs⟩ := idle_built word_lt_prime521
  exact ⟨cs, hcs, (arith_sound_iff word_lt_prime521 hcs).2 _ (by decide)⟩

/-- **`lui` is free**: with immediate `0` it is accepted with result `1`. -/
theorem lui_forged :
    ∃ cs : R1CS Var (ZMod prime521), step (idle : Draft prime521).witness false = some cs ∧
      ∃ z, z 0 = 1 ∧ cs.Sat z ∧ z (cs.var (.is .J (RV32.lui 0 0).indexJ)) = 1 ∧
        z (cs.var .I) = 0 ∧ z (cs.var .Z) = 1 := by
  obtain ⟨cs, hcs⟩ := idle_built word_lt_prime521
  have hopc : (opcode 0x37).toNat ∈ opcodes := by decide
  obtain ⟨z, hz, hsat, hval⟩ := exists_wrapped (J := 1) (s := ⟨0, 0, 0, 1⟩) word_lt_prime521 hcs
    hopc (by decide) (by decide) (by decide) ⟨zeroSum_zero, zeroSum_zero, zeroSum_zero⟩
  refine ⟨cs, hcs, z, hz, hsat, ?_, ?_, ?_⟩
  · exact hval (.is .J 1) (by decide)
  · exact (hval .I (by decide)).trans Nat.cast_zero
  · exact (hval .Z (by decide)).trans Nat.cast_one

end Sound

end NexusVm.Circuit
