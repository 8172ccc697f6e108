import NexusVm.Builder.Frame
import NexusVm.Circuit.Free

/-!
# Results that a prover is free to choose

The result of `lui` occurs in no row but that of the selection, and `add_cir`
accepts every word that is zero or minus `2 ^ 32` in the field as the sum of two
zeros.  `wrapped` are the values of a step on cleared registers with such words in
place of the sums, and of the result.
-/

namespace NexusVm.Circuit

open NexusVm.Builder

/-- The words in place of `pc+I`, `X+I`, `X+Y` and of the result of `lui`. -/
structure Sums where
  pcI : U32
  XI : U32
  XY : U32
  lui : U32

/-- The result of the instructions that give one of these words. -/
def Sums.result (s : Sums) : ℕ → U32
  | 1 => s.lui
  | 2 => s.pcI
  | 19 => s.XI
  | 29 => s.XY
  | _ => 0

section Wrapped

variable {p : ℕ} [Fact p.Prime]

/-- The rows of `add_cir` accept the word as a sum of zeros. -/
def ZeroSum (p : ℕ) (v : U32) : Prop :=
  (((0x100000000 : ℕ) : ZMod p) + (v.toNat : ZMod p)) * (v.toNat : ZMod p) = 0

structure Sums.Accepted (p : ℕ) (s : Sums) : Prop where
  pcI : ZeroSum p s.pcI
  XI : ZeroSum p s.XI
  XY : ZeroSum p s.XY

/-- An instruction on cleared registers, with lines of zeros. -/
def zeros (word : U32) (J : ℕ) : Draft p := { (idle : Draft p) with word := word, J := J }

theorem zeros_sound {word : U32} {J : ℕ} (hopc : (opcode word).toNat ∈ opcodes)
    (hdec : decodes (keyOf word) J = true) (hJ : J ∈ [1, 2, 19, 29]) :
    (zeros word J : Draft p).Sound := by
  have hd : (idle : Draft p).Sound := idle_sound
  have hne : ∀ {j : ℕ}, j ∉ [1, 2, 19, 29] → J ≠ j := fun hj he => hj (he ▸ hJ)
  exact ⟨hopc, hdec, fun _ => rfl, fun _ => rfl, fun _ => ⟨rfl, rfl⟩, fun _ => ⟨rfl, rfl⟩, hd.units,
    hd.readLo, hd.readHi, hd.writeLo, hd.writeHi, fun h => absurd h (hne (by decide)),
    fun h => absurd h (hne (by decide)), fun h => absurd h (hne (by decide))⟩

/-- The values of `zeros` but for the sums, the result and what follows from them. -/
def wrapped (s : Sums) (word : U32) (J : ℕ) : Var → ZMod p
  | .plus .pc .I => s.pcI.toNat
  | .plus .X .I => s.XI.toNat
  | .plus .X .Y => s.XY.toNat
  | .bit (.plus .X .I) i => flag (s.XI.getLsbD i)
  | .Z => (s.result J).toNat
  | .bit .Z i => flag ((s.result J).getLsbD i)
  | .JZ j => if j = J then ((s.result J).toNat : ZMod p) else 0
  | .ZJ 1 => s.lui.toNat
  | .ZJ 2 => s.pcI.toNat
  | .ZJ 19 => s.XI.toNat
  | .ZJ 29 => s.XY.toNat
  | .PCJ 3 | .PCJ 5 | .PCJ 8 | .PCJ 10 => s.pcI.toNat
  | .PCJ 4 => s.XI.toNat
  | n => val (zeros word J : Draft p).witness (zeros word J : Draft p).f n

/-- The names whose value changed. -/
def isWrapped : Var → Bool
  | .plus .pc .I | .plus .X .I | .plus .X .Y | .bit (.plus .X .I) _ => true
  | .Z | .bit .Z _ | .JZ _ | .ZJ 1 | .ZJ 2 | .ZJ 19 | .ZJ 29 => true
  | .PCJ 3 | .PCJ 5 | .PCJ 8 | .PCJ 10 | .PCJ 4 => true
  | _ => false

theorem val_eq_wrapped {s : Sums} {word : U32} {J : ℕ} {n : Var} (h : isWrapped n = false) :
    val (zeros word J : Draft p).witness (zeros word J : Draft p).f n = wrapped s word J n := by
  unfold wrapped
  split <;> first | rfl | cases h

/-- Gadgets whose rows mention no changed name. -/
def untouched {P : Type} (w : Witness P) : List (Ops p) :=
  [selectXY false w.rs1 w.rs2, toBits .pc w.regs.pc, toBits .X w.X, toBits .Y w.Y, toBits .I w.I,
    toBits .PC w.PC, toBits .inst w.inst, typeBits,
    member false .opcode (opcode w.inst).toNat opcodes, parseOpcBody false ++ [Op.sealLocals],
    parseImm false w.inst, parseShamt false w.Y, parseJ w.J, addCir .pc4 .pc .four w.regs.pc 4,
    subCs w, subiCs w, sltCs, bitops w, sx8 false (.ZJ 11) (.cat .readMem 8),
    sx16 false (.ZJ 12) (.cat .readMem 16), storeWord false, storeHalf false, storeByte false,
    misc]

theorem like_untouched {q : ℕ} [Fact q.Prime] {R : ZMod p → ZMod q → Prop} (hR : Uniform R)
    {P Q : Type} (w : Witness P) (w' : Witness Q) :
    List.Forall₂ (Like R) (untouched w : List (Ops p)) (untouched w') := by
  have hseal : Like R [(.sealLocals : Op Var (ZMod p))] [Op.sealLocals] := by simp [Op.Like]
  have hbits : Like R (typeBits : Ops p) typeBits := like_flatMap fun ty _ => like_setBit hR
  have hslt : Like R (sltCs : Ops p) (sltCs : Ops q) :=
    (((like_setEq hR).append (like_setEq hR)).append (like_setEq hR)).append (like_setEq hR)
  have hput : ∀ n : Var, List.Forall₂ (Term.Like R) [.put n 1] [.put n 1] :=
    fun n => by simp [Term.Like, hR.one]
  refine .cons ((like_loadArray hR).append (like_loadArray hR)) ?_
  refine .cons (like_toBits hR) (.cons (like_toBits hR) (.cons (like_toBits hR) ?_))
  refine .cons (like_toBits hR) (.cons (like_toBits hR) (.cons (like_toBits hR) ?_))
  refine .cons hbits (.cons (like_member hR) (.cons ((like_parseOpcBody hR).append hseal) ?_))
  refine .cons (like_parseImm hR) (.cons (like_parseShamt hR) (.cons (like_parseJ hR) ?_))
  refine .cons (like_addCir hR) (.cons ((like_subCir hR).append (like_setEq hR)) ?_)
  refine .cons ((like_subCir hR).append (like_setEq hR)) (.cons hslt ?_)
  refine .cons (like_bitops hR w w') (.cons (like_sx hR) (.cons (like_sx hR) ?_))
  refine .cons (like_storeUnit hR (hput _) (hput _)) ?_
  refine .cons (like_storeUnit hR (like_powOne hR) (hput _)) ?_
  exact .cons (like_storeUnit hR (like_powOne hR) (hput _)) (.cons (like_misc hR) .nil)

theorem avoids_sample : (untouched sample : List (Ops 3)).all (avoids isWrapped) = true := by
  decide +kernel

/-- No row of these gadgets mentions a changed name. -/
theorem avoids_untouched {P : Type} (w : Witness P) :
    ∀ g ∈ (untouched w : List (Ops p)), avoids isWrapped g = true :=
  forall_avoids_like (like_untouched uniform_true w sample) avoids_sample

/-! ## The other gadgets -/

section Rows

variable {σ ρ : Var → ZMod p}

/-- The rows of a word, whatever value the builder gives it. -/
theorem toBits_fits {n : Var} {v x : U32} (hl : isLocal n = false) (h : IsWord ρ n x) :
    Passes Op.Sat ρ (toBits n v) := by
  refine passes_of_holds (by simp [toBits, setVar, setFieldVar, setBit, setBitFrom]) fun l => ?_
  have hx : Holds (Op.Honest fun _ => true) (glue ρ l) (toBits n x) := toBits_holds (h.glue hl)
  exact holds_like (like_toBits uniform_eq) (hx.mono fun op ho => ho.sat)

theorem setVar_fits {n : Var} {v : U32} : Passes Op.Sat ρ (setVar n v) :=
  passes_of_holds rfl fun l => by simp [setVar, setFieldVar, Op.Sat]

theorem setEq_fits {n v : Var} (hn : isLocal n = false) (hv : isLocal v = false)
    (h : ρ n = ρ v) : Passes Op.Sat ρ (setEq n v) := by
  have hpass : Passes (Op.Honest fun _ => true) ρ (setEq n v) := setEq_passes hn hv h
  exact hpass.mono fun _ _ ho => ho.sat

/-- A word that is accepted as a sum of zeros. -/
theorem addCir_fits {x y n : Var} {a b v : U32} (hlx : isLocal x = false)
    (hly : isLocal y = false) (hln : isLocal n = false) (hx : ρ x = 0) (hy : ρ y = 0)
    (hn : ρ n = (v.toNat : ZMod p)) (hv : ZeroSum p v) :
    Passes Op.Sat ρ (addCir n x y a b) := by
  refine passes_sealed rfl (fun _ => (v.toNat : ZMod p)) ?_
  have hO : glue ρ (fun _ => (v.toNat : ZMod p)) .O = (v.toNat : ZMod p) := rfl
  simp only [addCirBody, setVar, setFieldVar, setLocalVar, holds_append, holds_cons, holds_nil,
    and_true, true_and, Op.Sat, lc_cons, lc_nil, Term.eval_put, Term.eval_const, one_mul, mul_one,
    add_zero, glue_global hlx, glue_global hly, glue_global hln, hx, hy, hn, hO, zero_add]
  exact hv

/-- The rows of the selection. -/
theorem selectJ_fits {P : Type} {w : Witness P} {J : ℕ} (hJ : J ∈ List.range' 1 RV32.maxJ)
    (his : ∀ j, ρ (.is .J j) = if j = J then 1 else 0)
    (hJZ : ∀ j, ρ (.JZ j) = if j = J then ρ .Z else 0)
    (hJPC : ∀ j, ρ (.JPC j) = if j = J then ρ .PC else 0) (hZ : ρ (.ZJ J) = ρ .Z)
    (hPC : ρ (.PCJ J) = ρ .PC) : Passes Op.Sat ρ (selectJ w) := by
  have hpick : ∀ (v : ℕ → Var) (x : ZMod p), (∀ j, ρ (v j) = if j = J then x else 0) →
      (((List.range' 1 RV32.maxJ).map v).map ρ).sum = x := by
    intro v x hv
    rw [List.map_map, sum_map_single (k := J) List.nodup_range' hJ]
    · simp [hv]
    · intro j _ hj
      simp [hv, hj]
  refine passes_of_holds (by simp [selectJ, setVar, setFieldVar, mul, sumRow]) fun l => ?_
  simp only [selectJ, setVar, setFieldVar, holds_append, holds_flatMap, holds_cons, holds_nil,
    and_true, true_and, Op.Sat]
  refine ⟨fun j _ => ⟨?_, ?_⟩, ?_, ?_⟩
  · simp only [mul, lc_cons, lc_nil, Term.eval_put, one_mul, add_zero]
    show ρ (.is .J j) * ρ (.ZJ j) = ρ (.JZ j)
    rw [his, hJZ]
    split_ifs with hj
    · rw [one_mul, hj, hZ]
    · rw [zero_mul]
  · simp only [mul, lc_cons, lc_nil, Term.eval_put, one_mul, add_zero]
    show ρ (.is .J j) * ρ (.PCJ j) = ρ (.JPC j)
    rw [his, hJPC]
    split_ifs with hj
    · rw [one_mul, hj, hPC]
    · rw [zero_mul]
  · exact sumRow_sat.mpr (hpick _ _ hJZ).symm
  · exact sumRow_sat.mpr (hpick _ _ hJPC).symm

end Rows

section Passes

variable {s : Sums} {word : U32} {J : ℕ}

/-- A gadget that mentions no changed name passes as it did. -/
theorem wrapped_of_honest {g : Ops p}
    (h : Passes (Op.Honest fun _ => true)
      (val (zeros word J : Draft p).witness (zeros word J : Draft p).f) g)
    (ha : avoids isWrapped g = true) : Passes Op.Sat (wrapped s word J : Var → ZMod p) g :=
  (h.mono fun _ _ ho => ho.tracked True).of_avoids ha fun _ => val_eq_wrapped

/-- The arithmetic gadgets: the two sums are changed. -/
theorem wrapped_alu (hp : 2 ^ 32 < p) (hf : (zeros word J : Draft p).Sound)
    (hs : s.Accepted p) :
    Passes Op.Sat (wrapped s word J : Var → ZMod p) (alu false (zeros word J : Draft p).witness) :=
    by
  have hh := hf.fitting.toLoose
  have ha := avoids_untouched (p := p) (zeros word J : Draft p).witness
  have hshift : Passes (Op.Honest fun _ => true) (wrapped s word J : Var → ZMod p)
      (shift false (zeros word J : Draft p).witness) := by
    refine shift_passes_of (f := (zeros word J : Draft p).f) hp ?_ ?_ ?_
    · exact ⟨hh.lt.2.2.2, rfl, fun i _ => rfl⟩
    · have hX : IsWord (val (zeros word J : Draft p).witness (zeros word J : Draft p).f) .X
          (zeros word J : Draft p).witness.X := isWord_val rfl
      exact ⟨hX.value, hX.bits⟩
    · intro j hj
      fin_cases hj <;> rfl
  unfold alu
  refine .append (.append (.append (.append (.append (.append (.append ?_ ?_) ?_) ?_) ?_) ?_) ?_) ?_
  · exact .append (addCir_fits rfl rfl rfl Nat.cast_zero Nat.cast_zero rfl hs.XY)
      (setEq_fits rfl rfl rfl)
  · exact .append (addCir_fits rfl rfl rfl Nat.cast_zero Nat.cast_zero rfl hs.XI)
      (setEq_fits rfl rfl rfl)
  · exact wrapped_of_honest ((subXY_passes hh (Or.inr fun _ => rfl)).append
      (setEq_passes rfl rfl rfl)) (ha _ (by simp [untouched]))
  · exact wrapped_of_honest ((subXI_passes hh (Or.inr fun _ => rfl)).append
      (setEq_passes rfl rfl rfl)) (ha _ (by simp [untouched]))
  · exact wrapped_of_honest sltCs_passes (ha _ (by simp [untouched]))
  · exact hshift.mono fun _ _ ho => ho.sat
  · exact wrapped_of_honest bitops_passes (ha _ (by simp [untouched]))
  · refine passes_flatMap fun j hj => setEq_fits rfl rfl ?_
    have hj' : 19 ≤ j ∧ j < 19 + 20 := List.mem_range'_1.mp hj
    have hn : isWrapped (.PCJ j) = false := by
      obtain ⟨h19, h39⟩ := hj'
      interval_cases j <;> rfl
    rw [← val_eq_wrapped hn]
    exact congrArg (fun x : U32 => (x.toNat : ZMod p)) (pcVal_next (by omega) (by omega))

/-- The words that are opened, for an address that wraps. -/
theorem wrapped_opened {name : Var} (hf : (zeros word J : Draft p).Sound)
    (hn : name = .readMem ∨ name = .writeMem) :
    Opened (wrapped s word J : Var → ZMod p) (.plus .X .I) name (s.XI.getLsbD 4)
      (fun _ => 0) := by
  have hh := hf.fitting.toLoose
  rcases hn with rfl | rfl
  · have ho := opened_read hh
    refine ⟨rfl, ?_, ho.small, ho.bits, ho.units, ho.sel, ho.out⟩
    cases s.XI.getLsbD 4 <;> exact ite_self _
  · have ho := opened_write hh
    refine ⟨rfl, ?_, ho.small, ho.bits, ho.units, ho.sel, ho.out⟩
    cases s.XI.getLsbD 4 <;> exact ite_self _

/-- Branches: those that are taken go to the word in place of `pc+I`. -/
theorem wrapped_br : Passes Op.Sat (wrapped s word J : Var → ZMod p) br := by
  have hsigned : signedFlag 0 0 false = false := by decide
  have htaken : taken (zeros word J : Draft p).witness (zeros word J : Draft p).f 7 = false :=
    hsigned
  have hslt : (wrapped s word J (.slt .X .Y) : ZMod p) = flag false := congrArg flag hsigned
  have hsge : (wrapped s word J (.sge .X .Y) : ZMod p) = flag true := by
    show (flag (!signedFlag 0 0 false) : ZMod p) = flag true
    rw [hsigned]
    rfl
  have hPC7 : (wrapped s word J (.PCJ 7) : ZMod p) = wrapped s word J .pc4 := by
    show val (zeros word J : Draft p).witness (zeros word J : Draft p).f (.PCJ 7) = _
    rw [val_branch (by omega) (by omega), htaken]
    rfl
  have hpass : Passes (Op.Honest fun _ => true) (wrapped s word J : Var → ZMod p) br := by
    unfold br
    refine .append (.append (.append (.append (.append ?_ ?_) ?_) ?_) ?_) ?_
    · exact branch_passes (c := true) rfl rfl rfl rfl rfl rfl
    · exact branch_passes (c := false) rfl rfl rfl rfl rfl rfl
    · exact branch_passes (c := false) rfl rfl hslt hsge hPC7 rfl
    · exact branch_passes (c := true) rfl rfl hsge hslt rfl rfl
    · exact branch_passes (c := false) rfl rfl rfl rfl rfl rfl
    · exact branch_passes (c := true) rfl rfl rfl rfl rfl rfl
  exact hpass.mono fun _ _ ho => ho.sat

/-- Loads and stores: the address is changed, the lines are zero. -/
theorem wrapped_memory (hp : 2 ^ 32 < p) (hf : (zeros word J : Draft p).Sound) :
    Passes Op.Sat (wrapped s word J : Var → ZMod p) (load false (zeros word J : Draft p).witness) ∧
      Passes Op.Sat (wrapped s word J : Var → ZMod p)
        (store false (zeros word J : Draft p).witness) := by
  have hh := hf.fitting.toLoose
  have ha := avoids_untouched (p := p) (zeros word J : Draft p).witness
  have hopen : ∀ {name : Var} {a : U32}, name = .readMem ∨ name = .writeMem →
      Passes Op.Sat (wrapped s word J : Var → ZMod p)
        (loadSelect false (.plus .X .I) name a false) := by
    intro name a hn
    have hl : isLocal name = false := by
      rcases hn with rfl | rfl <;> rfl
    have hpass : Passes (Op.Honest fun _ => true) (wrapped s word J : Var → ZMod p)
        (loadSelect false (.plus .X .I) name a false) :=
      loadSelect_passes (by omega) hl (wrapped_opened hf hn) (Or.inr fun _ => rfl)
    exact hpass.mono fun _ _ ho => ho.sat
  have hword : IsWord (wrapped s word J : Var → ZMod p) (.plus .X .I) s.XI :=
    ⟨rfl, fun i _ => by rw [BitVec.testBit_toNat]; rfl⟩
  have h8 : avoids isWrapped (sx8 false (.ZJ 11) (.cat .readMem 8) : Ops p) = true :=
    ha _ (by simp [untouched])
  have h16 : avoids isWrapped (sx16 false (.ZJ 12) (.cat .readMem 16) : Ops p) = true :=
    ha _ (by simp [untouched])
  constructor
  · unfold load
    refine .append (.append (.append (.append (.append (.append (.append (.append (.append (.append
      (.append ?_ ?_) ?_) ?_) ?_) ?_) ?_) ?_) ?_) ?_) ?_) ?_
    · exact toBits_fits rfl hword
    · exact hopen (Or.inl rfl)
    · exact setEq_fits rfl rfl rfl
    · exact setEq_fits rfl rfl rfl
    · exact setEq_fits rfl rfl rfl
    · exact setEq_fits rfl rfl rfl
    · exact setEq_fits rfl rfl rfl
    · exact setEq_fits rfl rfl rfl
    · exact wrapped_of_honest (sx_passes (f := (zeros word J : Draft p).f) hp rfl rfl (by omega)
        rfl) h8
    · exact setEq_fits rfl rfl rfl
    · exact wrapped_of_honest (sx_passes (f := (zeros word J : Draft p).f) hp rfl rfl (by omega)
        rfl) h16
    · exact setEq_fits rfl rfl rfl
  · obtain ⟨hword, hhalf, hbyte⟩ := storeUnits_passes (fun _ => true) false hh
    unfold store
    refine .append (.append (.append (hopen (Or.inr rfl)) ?_) ?_) ?_
    · exact wrapped_of_honest hword (ha _ (by simp [untouched]))
    · exact wrapped_of_honest hhalf (ha _ (by simp [untouched]))
    · exact wrapped_of_honest hbyte (ha _ (by simp [untouched]))

/-- The rows of the selection: the result is the changed one, and it is not stored. -/
theorem wrapped_select (hp : 2 ^ 32 < p) (hf : (zeros word J : Draft p).Sound)
    (hJ : J ∈ [1, 2, 19, 29]) (hrd : rd word = 0) :
    Passes Op.Sat (wrapped s word J : Var → ZMod p) (selectJ (zeros word J : Draft p).witness) ∧
      Passes Op.Sat (wrapped s word J : Var → ZMod p)
        (selectZ false (zeros word J : Draft p).witness.rd) := by
  have hh := hf.fitting.toLoose
  have hmem : J ∈ List.range' 1 RV32.maxJ := by
    have hsub : ∀ j ∈ [1, 2, 19, 29], j ∈ List.range' 1 RV32.maxJ := by decide
    exact hsub J hJ
  have hzero : (zeros word J : Draft p).witness.rd = 0 := by
    show (if (opcode word).toNat ∈ [opcBr, opcStore] then 0 else rd word) = 0
    rw [hrd, ite_self]
  constructor
  · refine selectJ_fits hmem (fun _ => rfl) (fun _ => rfl) (fun _ => rfl) ?_ ?_
    · fin_cases hJ <;> rfl
    · fin_cases hJ <;> rfl
  · refine .append (passes_of_holds rfl fun l => by simp [Op.Sat]) ?_
    have hstore : Passes (Op.Honest fun _ => true) (wrapped s word J : Var → ZMod p)
        (storeReg false .rd .Z (zeros word J : Draft p).witness.rd.toNat) := by
      refine storeReg_passes (k := 0) (constants_range hp (by omega) (by omega)) rfl rfl
        ⟨by omega, ?_, fun i _ => ?_⟩ (fun i h1 _ => ?_) hh.lt.1 (Or.inr fun _ => rfl)
      · show ((zeros word J : Draft p).witness.rd.toNat : ZMod p) = _
        rw [hzero]
        rfl
      · show (if i = (zeros word J : Draft p).witness.rd.toNat then (1 : ZMod p) else 0) = _
        rw [hzero]
        rfl
      · show ((if i = 0 then 0 else if i = (zeros word J : Draft p).witness.rd.toNat then
          (zeros word J : Draft p).witness.Z else 0 : U32).toNat : ZMod p) = _
        rw [hzero, if_neg (by omega), if_neg (show i ≠ BitVec.toNat 0 by simp; omega),
          if_neg (by omega)]
        rfl
    exact hstore.mono fun _ _ ho => ho.sat

/-- **The changed values are accepted** by the rows of the circuit of any witness. -/
theorem exists_wrapped (hp : 2 ^ 32 < p) {P : Type} [MemoryProof P p] {w : Witness P}
    {cs : R1CS Var (ZMod p)} (h : step w false = some cs)
    (hopc : (opcode word).toNat ∈ opcodes) (hdec : decodes (keyOf word) J = true)
    (hJ : J ∈ [1, 2, 19, 29]) (hrd : rd word = 0) (hs : s.Accepted p) :
    ∃ z, z 0 = 1 ∧ cs.Sat z ∧ ∀ n ∈ mainNames, z (cs.var n) = wrapped s word J n := by
  have hf : (zeros word J : Draft p).Sound := zeros_sound hopc hdec hJ
  have hh := hf.fitting.toLoose
  have ha := avoids_untouched (p := p) (zeros word J : Draft p).witness
  obtain ⟨ty, hty⟩ := exists_format hh
  have hset : (setType (opcode word).toNat : Ops p) = setVar (.type ty) 1 := by
    have hty' : typeOf (opcode word).toNat = some ty := hty
    simp only [setType, hty']
  obtain ⟨hload, hstore⟩ := wrapped_memory (s := s) hp hf
  obtain ⟨hselJ, hselZ⟩ := wrapped_select (s := s) hp hf hJ hrd
  have hall : ∀ n, (fun _ : Var => true) n = true := fun _ => rfl
  have hword : IsWord (wrapped s word J : Var → ZMod p) .Z (s.result J) :=
    ⟨rfl, fun i _ => by rw [BitVec.testBit_toNat]; rfl⟩
  have hbits : ∀ {v : Var} {x : U32}, isLocal v = false → hasWord v = true →
      toBits v x ∈ (untouched (zeros word J : Draft p).witness : List (Ops p)) →
      wordOf (zeros word J : Draft p).witness (zeros word J : Draft p).f v = x →
      Passes Op.Sat (wrapped s word J : Var → ZMod p) (toBits v x) := fun hl hv hmem hx =>
    wrapped_of_honest (hx ▸ toBits_passes hl (isWord_val hv)) (ha _ hmem)
  have hhead : Passes Op.Sat (wrapped s word J : Var → ZMod p)
      (stepHead (zeros word J : Draft p).witness false) := by
    unfold stepHead
    refine .append (.append (.append (.append (.append (.append (.append (.append (.append (.append
      (.append ?_ ?_) ?_) ?_) ?_) ?_) ?_) setVar_fits) setVar_fits) setVar_fits) setVar_fits) ?_
    · exact wrapped_of_honest (selectXY_passes hp hh) (ha _ (by simp [untouched]))
    · exact hbits rfl rfl (by simp [untouched]) rfl
    · exact hbits rfl rfl (by simp [untouched]) rfl
    · exact hbits rfl rfl (by simp [untouched]) rfl
    · exact hbits rfl rfl (by simp [untouched]) rfl
    · exact toBits_fits rfl hword
    · exact hbits rfl rfl (by simp [untouched]) rfl
    · exact hbits rfl rfl (by simp [untouched]) rfl
  have htype : Passes Op.Sat (wrapped s word J : Var → ZMod p)
      (stepType (zeros word J : Draft p).witness) := by
    have hpart : (setType (opcode (zeros word J : Draft p).witness.inst).toNat : Ops p) =
        setVar (.type ty) 1 := hset
    rw [stepType, hpart]
    refine .append ?_ setVar_fits
    exact wrapped_of_honest (typeBits_passes hty rfl) (ha _ (by simp [untouched]))
  have htail : Passes Op.Sat (wrapped s word J : Var → ZMod p)
      (stepTail (zeros word J : Draft p).witness false) := by
    unfold stepTail
    refine .append (.append (.append (.append (.append (.append (.append (.append (.append
      (.append (.append (.append (.append (.append (.append (.append (.append (.append
      (.append ?_ ?_) ?_) ?_) ?_) ?_) ?_) ?_) ?_) ?_) ?_) ?_) ?_) ?_) ?_) ?_) ?_) ?_) ?_) ?_
    · exact wrapped_of_honest (member_passes (constants_opcodes hp) rfl hh.opcode rfl
        (fun s _ => rfl) hh.opcode (Or.inl rfl)) (ha _ (by simp [untouched]))
    · have hbody : Passes (Op.Tracked True fun _ => true)
          (val (zeros word J : Draft p).witness (zeros word J : Draft p).f)
          (parseOpcBody false ++ [Op.sealLocals]) :=
        parseOpcBody_passes hh.opcode fun _ => hf.fitting.toOperands
      exact hbody.of_avoids (ha _ (by simp [untouched])) fun _ => val_eq_wrapped
    · exact wrapped_of_honest (parseImm_passes hp hh (Or.inr hall)) (ha _ (by simp [untouched]))
    · exact wrapped_of_honest (parseShamt_passes hh) (ha _ (by simp [untouched]))
    · exact wrapped_of_honest (parseJ_passes hh (Or.inr hall)) (ha _ (by simp [untouched]))
    · exact setVar_fits
    · exact wrapped_of_honest (addCir_passes rfl rfl rfl rfl rfl rfl) (ha _ (by simp [untouched]))
    · exact addCir_fits rfl rfl rfl Nat.cast_zero Nat.cast_zero rfl hs.pcI
    · exact wrapped_alu hp hf hs
    · exact .append setVar_fits (setEq_fits rfl rfl rfl)
    · exact .append (setEq_fits rfl rfl rfl) (setEq_fits rfl rfl rfl)
    · exact .append (setEq_fits rfl rfl rfl) (setEq_fits rfl rfl rfl)
    · exact .append (setEq_fits rfl rfl rfl) (setEq_fits rfl rfl rfl)
    · exact wrapped_br
    · exact hload
    · exact hstore
    · exact .append setVar_fits (setEq_fits rfl rfl rfl)
    · exact wrapped_of_honest misc_passes (ha _ (by simp [untouched]))
    · exact hselJ
    · exact hselZ
  refine exists_sat_of_fits h (zeros word J : Draft p).witness ?_
  rw [stepBody_eq]
  exact (hhead.append (htype.append htail)).fits

end Passes

end Wrapped

end NexusVm.Circuit
