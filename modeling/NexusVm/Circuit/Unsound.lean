import NexusVm.Circuit.Free

/-!
# What the rows do not tie down

The immediate, the comparison flags, the selectors of a load, the fetched word
and the directions of the memory proofs, and the output root are not determined
by the rows of the step circuit.
-/

namespace NexusVm.Circuit

open NexusVm.Builder

section Words

variable {p : ℕ} [Fact p.Prime]

/-- Words are told apart in the field. -/
theorem word_inj (hp : 2 ^ 32 < p) {a b : U32} (h : (a.toNat : ZMod p) = (b.toNat : ZMod p)) :
    a = b := by
  have ha := a.isLt
  have hb := b.isLt
  exact BitVec.eq_of_toNat_eq (CharP.natCast_injOn_Iio (ZMod p) p (Set.mem_Iio.mpr (by omega))
    (Set.mem_Iio.mpr (by omega)) h)

theorem flag_not_ne (b : Bool) : (flag (!b) : ZMod p) ≠ flag b := by
  cases b <;> simp

/-- Every accepted assignment with instruction `word` has the immediate of `word`. -/
def ImmediateSound (cs : R1CS Var (ZMod p)) (word : U32) : Prop :=
  ∀ z, z 0 = 1 → cs.Sat z → z (cs.var .inst) = (word.toNat : ZMod p) →
    ∀ ty, typeOf (opcode word).toNat = some ty → ty ≠ .R →
      z (cs.var .I) = ((immOf word ty).toNat : ZMod p)

variable {P : Type} [MemoryProof P p] {w : Witness P} {cs : R1CS Var (ZMod p)}

/-- Any immediate is accepted with any instruction. -/
theorem immediate_free (hp : 2 ^ 32 < p) (h : step w false = some cs) {word : U32} {i : RV32}
    (hparse : parseU32 word = some i) (v : U32) :
    ∃ z, z 0 = 1 ∧ cs.Sat z ∧ z (cs.var .inst) = (word.toNat : ZMod p) ∧
      z (cs.var .I) = (v.toNat : ZMod p) := by
  have hd : (plain ⟨0, fun _ => 0⟩ word i.indexJ v : Draft p).Sound :=
    plain_sound hp (opcode_mem_of_parse hparse) (decodes_of_parse hparse)
  obtain ⟨z, hz, hsat, hval⟩ := exists_accepted hp h hd
  exact ⟨z, hz, hsat, hval .inst (by decide), hval .I (by decide)⟩

/-- **Immediates are not tied to the instruction**: for no instruction with an
immediate. -/
theorem immediate_unsound (hp : 2 ^ 32 < p) (h : step w false = some cs) {word : U32} {i : RV32}
    (hparse : parseU32 word = some i) {ty : Ty} (hty : typeOf (opcode word).toNat = some ty)
    (hR : ty ≠ .R) : ¬ ImmediateSound cs word := by
  intro hsound
  obtain ⟨z, hz, hsat, hinst, hI⟩ := immediate_free hp h hparse (immOf word ty + 1)
  have himm := hsound z hz hsat hinst ty hty hR
  rw [hI] at himm
  have hne : immOf word ty + 1 = immOf word ty := word_inj hp himm
  simp at hne

/-- The circuit of `addi x0, x0, 0`, and that instruction. -/
theorem immediate_unsound_idle :
    ∃ cs : R1CS Var (ZMod prime521), step (idle : Draft prime521).witness false = some cs ∧
      ¬ ImmediateSound cs 0x13 := by
  obtain ⟨cs, hcs⟩ := idle_built word_lt_prime521
  have hparse : parseU32 0x13 = some (.alui .add 0 0 0) := by decide
  have hty : typeOf (opcode 0x13#32).toNat = some .A := by decide
  exact ⟨cs, hcs, immediate_unsound word_lt_prime521 hcs hparse hty (by decide)⟩

/-- `addi x0, x0, 0` is accepted with immediate `1`. -/
theorem immediate_forged :
    ∃ cs : R1CS Var (ZMod prime521), step (idle : Draft prime521).witness false = some cs ∧
      ∃ z, z 0 = 1 ∧ cs.Sat z ∧ z (cs.var .inst) = ((0x13 : ℕ) : ZMod prime521) ∧
        z (cs.var .I) = 1 ∧ immOf 0x13 .A = 0 := by
  obtain ⟨cs, hcs⟩ := idle_built word_lt_prime521
  have hparse : parseU32 0x13 = some (.alui .add 0 0 0) := by decide
  obtain ⟨z, hz, hsat, hinst, hI⟩ := immediate_free word_lt_prime521 hcs hparse 1
  exact ⟨cs, hcs, z, hz, hsat, hinst, by simpa using hI, by decide⟩

end Words

/-! ## Comparisons -/

section Comparisons

variable {p : ℕ} [Fact p.Prime]

/-- The flags of a comparison are those of the words. -/
structure FlagsRight (σ : Var → ZMod p) (y : Var) (a b : U32) : Prop where
  lt : σ (.lt .X y) = flag (a.ult b)
  ge : σ (.ge .X y) = flag !a.ult b
  eq : σ (.eq .X y) = flag (a == b)
  ne : σ (.ne .X y) = flag !(a == b)
  slt : σ (.slt .X y) = flag (a.slt b)
  sge : σ (.sge .X y) = flag !a.slt b

/-- The flags for `X` and `y` are right in every accepted assignment with these operands. -/
def FlagsSound (cs : R1CS Var (ZMod p)) (y : Var) (a b : U32) : Prop :=
  ∀ z, z 0 = 1 → cs.Sat z → z (cs.var .X) = (a.toNat : ZMod p) →
    z (cs.var y) = (b.toNat : ZMod p) → FlagsRight (fun n => z (cs.var n)) y a b

/-- A branch on these operands goes where the evaluator goes. -/
def BranchSound (cs : R1CS Var (ZMod p)) (a b : U32) : Prop :=
  ∀ z, z 0 = 1 → cs.Sat z → z (cs.var .X) = (a.toNat : ZMod p) →
    z (cs.var .Y) = (b.toNat : ZMod p) → ∀ (bop : BOP) (pc i : U32),
      z (cs.var (.is .J (RV32.br bop 0 0 0).indexJ)) = 1 → z (cs.var .pc) = (pc.toNat : ZMod p) →
      z (cs.var .I) = (i.toNat : ZMod p) →
      z (cs.var .PC) = ((if brOp bop a b then pc + i else pc + 4 : U32).toNat : ZMod p)

/-- `slt` and `sltu` give the result of the evaluator. -/
def SetSound (cs : R1CS Var (ZMod p)) (a b : U32) : Prop :=
  ∀ z, z 0 = 1 → cs.Sat z → z (cs.var .X) = (a.toNat : ZMod p) →
    z (cs.var .Y) = (b.toNat : ZMod p) → ∀ aop ∈ [AOP.slt, .sltu],
      z (cs.var (.is .J (RV32.alu aop 0 0 0).indexJ)) = 1 →
      z (cs.var .Z) = ((aluOp aop a b).toNat : ZMod p)

/-- `slti` and `sltiu` give the result of the evaluator. -/
def SetiSound (cs : R1CS Var (ZMod p)) (a b : U32) : Prop :=
  ∀ z, z 0 = 1 → cs.Sat z → z (cs.var .X) = (a.toNat : ZMod p) →
    z (cs.var .I) = (b.toNat : ZMod p) → ∀ aop ∈ [AOP.slt, .sltu],
      z (cs.var (.is .J (RV32.alui aop 0 0 0).indexJ)) = 1 →
      z (cs.var .Z) = ((aluOp aop a b).toNat : ZMod p)

/-- Registers `x1` and `x2` hold two words. -/
def twoRegs (a b : U32) : Regs := ⟨0, fun i => if i = 1 then a else if i = 2 then b else 0⟩

/-- A draft on two words whose unsigned flags are both wrong. -/
def flipped (a b : U32) (word : U32) (J : ℕ) (I : U32) : Draft p :=
  let d : Draft p := plain (twoRegs a b) word J I
  { d with f := { d.f with ltXY := !a.ult b, ltXI := !a.ult I } }

variable {a b word I : U32}

theorem flipped_sound (hp : 2 ^ 32 < p) {i : RV32} (hparse : parseU32 word = some i)
    (h20 : i.indexJ ≠ 20) (h30 : i.indexJ ≠ 30) :
    (flipped a b word i.indexJ I : Draft p).Sound := by
  have hd : (plain (twoRegs a b) word i.indexJ I : Draft p).Sound :=
    plain_sound hp (opcode_mem_of_parse hparse) (decodes_of_parse hparse)
  exact ⟨hd.opcode, hd.decodes, fun hJ => absurd hJ h30, fun hJ => absurd hJ h20,
    (fun he => by cases he), (fun he => by cases he), hd.units, hd.readLo, hd.readHi, hd.writeLo,
    hd.writeHi, hd.sb, hd.sh, hd.sw⟩

variable {P : Type} [MemoryProof P p] {w : Witness P} {cs : R1CS Var (ZMod p)}

/-- `bltu x1, x2, 0`. -/
def bltuWord : U32 := 0x0020e063

/-- `sltu x3, x1, x2`. -/
def sltuWord : U32 := 0x0020b1b3

/-- `sltiu x3, x1, 0`. -/
def sltiuWord : U32 := 0x0000b193

/-- The operands of an instruction with source registers `x1` and `x2`. -/
theorem flipped_X {J : ℕ}
    (hx : Fin.ofNat 32 (if (opcode word).toNat ∈ [opcLui, opcAuipc, opcJal, opcEcall] then 0 else rs1 word).toNat = 1) :
    (flipped a b word J I : Draft p).X = a := by
  show (twoRegs a b).x (Fin.ofNat 32 (if (opcode word).toNat ∈ [opcLui, opcAuipc, opcJal, opcEcall]
    then 0 else rs1 word).toNat) = a
  rw [hx]
  rfl

theorem flipped_Y {J : ℕ}
    (hy : Fin.ofNat 32 (if (opcode word).toNat ∈ [opcBr, opcStore, opcAlu] then rs2 word else 0).toNat = 2) :
    (flipped a b word J I : Draft p).Y = b := by
  show (twoRegs a b).x (Fin.ofNat 32 (if (opcode word).toNat ∈ [opcBr, opcStore, opcAlu]
    then rs2 word else 0).toNat) = b
  rw [hy]
  rfl

/-- What an assignment with flipped flags says. -/
theorem exists_flipped (hp : 2 ^ 32 < p) (h : step w false = some cs) {i : RV32}
    (hparse : parseU32 word = some i) (h20 : i.indexJ ≠ 20) (h30 : i.indexJ ≠ 30)
    (hx : Fin.ofNat 32 (if (opcode word).toNat ∈ [opcLui, opcAuipc, opcJal, opcEcall] then 0 else rs1 word).toNat = 1) :
    ∃ z, z 0 = 1 ∧ cs.Sat z ∧ z (cs.var .X) = (a.toNat : ZMod p) ∧
      z (cs.var .Y) = ((flipped a b word i.indexJ I : Draft p).Y.toNat : ZMod p) ∧
      z (cs.var .I) = (I.toNat : ZMod p) ∧ z (cs.var .pc) = ((0 : U32).toNat : ZMod p) ∧
      (∀ n ∈ mainNames, z (cs.var n) = val (flipped a b word i.indexJ I : Draft p).witness
        (flipped a b word i.indexJ I : Draft p).f n) := by
  have hd := flipped_sound (p := p) (a := a) (b := b) (I := I) hp hparse h20 h30
  obtain ⟨z, hz, hsat, hval⟩ := exists_accepted hp h hd
  refine ⟨z, hz, hsat, ?_, hval .Y (by decide), hval .I (by decide), hval .pc (by decide), hval⟩
  rw [hval .X (by decide)]
  exact congrArg (fun x : U32 => (x.toNat : ZMod p)) (flipped_X hx)

theorem flipped_PC :
    (flipped a b word 9 I : Draft p).witness.PC = if !a.ult b then 0 + I else 0 + 4 := by
  show pcVal (flipped a b word 9 I : Draft p).pre (flipped a b word 9 I : Draft p).f 9 = _
  have htaken : taken (flipped a b word 9 I : Draft p).pre (flipped a b word 9 I : Draft p).f 9 =
      !a.ult b := rfl
  have hpc : (flipped a b word 9 I : Draft p).pre.regs.pc = 0 := rfl
  have hI : (flipped a b word 9 I : Draft p).pre.I = I := rfl
  simp [pcVal, htaken, hpc, hI]

/-- **Comparison flags are free**: for no two words are the flags, the branches and
the results of the comparisons determined. -/
theorem comparison_unsound (hp : 2 ^ 32 < p) (h : step w false = some cs) (a b : U32) :
    ¬ FlagsSound cs .Y a b ∧ ¬ FlagsSound cs .I a b ∧ ¬ BranchSound cs a b ∧ ¬ SetSound cs a b ∧
      ¬ SetiSound cs a b := by
  have hbltu : parseU32 bltuWord = some (.br .bltu 1 2 0) := by decide
  have hsltu : parseU32 sltuWord = some (.alu .sltu 3 1 2) := by decide
  have hsltiu : parseU32 sltiuWord = some (.alui .sltu 3 1 0) := by decide
  have hword : ∀ {x y : U32}, x = y → (x.toNat : ZMod p) = (y.toNat : ZMod p) := fun h => by rw [h]
  have hbranch : ∀ t : Bool, (if !t then 0 + 8 else 0 + 4 : U32) ≠ if t then 0 + 8 else 0 + 4 := by
    decide
  have hset : ∀ t : Bool, (if !t then 1 else 0 : U32) ≠ (BitVec.ofBool t).setWidth 32 := by decide
  refine ⟨fun hs => ?_, fun hs => ?_, fun hs => ?_, fun hs => ?_, fun hs => ?_⟩
  · obtain ⟨z, hz, hsat, hX, hY, -, -, hval⟩ :=
      exists_flipped (a := a) (b := b) (I := b) hp h hbltu (by decide) (by decide) (by decide)
    have hlt := (hs z hz hsat hX (hY.trans (hword (flipped_Y (by decide))))).lt
    rw [hval _ (by decide)] at hlt
    exact flag_not_ne _ hlt
  · obtain ⟨z, hz, hsat, hX, -, hI, -, hval⟩ :=
      exists_flipped (a := a) (b := b) (I := b) hp h hbltu (by decide) (by decide) (by decide)
    have hlt := (hs z hz hsat hX hI).lt
    rw [hval _ (by decide)] at hlt
    exact flag_not_ne _ hlt
  · obtain ⟨z, hz, hsat, hX, hY, hI, hpc, hval⟩ :=
      exists_flipped (a := a) (b := b) (I := 8) hp h hbltu (by decide) (by decide) (by decide)
    have hJ : z (cs.var (.is .J (RV32.br .bltu 0 0 0).indexJ)) = 1 := by
      rw [hval _ (by decide)]
      rfl
    have hPC := hs z hz hsat hX (hY.trans (hword (flipped_Y (by decide)))) .bltu 0 8 hJ hpc hI
    rw [hval .PC (by decide)] at hPC
    exact hbranch _ (flipped_PC.symm.trans (word_inj hp hPC))
  · obtain ⟨z, hz, hsat, hX, hY, hI, hpc, hval⟩ :=
      exists_flipped (a := a) (b := b) (I := 8) hp h hsltu (by decide) (by decide) (by decide)
    have hJ : z (cs.var (.is .J (RV32.alu .sltu 0 0 0).indexJ)) = 1 := by
      rw [hval _ (by decide)]
      rfl
    have hZ := hs z hz hsat hX (hY.trans (hword (flipped_Y (by decide)))) .sltu (by decide) hJ
    rw [hval .Z (by decide)] at hZ
    exact hset _ (word_inj hp hZ)
  · obtain ⟨z, hz, hsat, hX, hY, hI, hpc, hval⟩ :=
      exists_flipped (a := a) (b := b) (I := b) hp h hsltiu (by decide) (by decide) (by decide)
    have hJ : z (cs.var (.is .J (RV32.alui .sltu 0 0 0).indexJ)) = 1 := by
      rw [hval _ (by decide)]
      rfl
    have hZ := hs z hz hsat hX hI .sltu (by decide) hJ
    rw [hval .Z (by decide)] at hZ
    exact hset _ (word_inj hp hZ)

/-- The circuit of the idle step, on equal words. -/
theorem comparison_unsound_idle :
    ∃ cs : R1CS Var (ZMod prime521), step (idle : Draft prime521).witness false = some cs ∧
      ¬ BranchSound cs 0 0 := by
  obtain ⟨cs, hcs⟩ := idle_built word_lt_prime521
  exact ⟨cs, hcs, (comparison_unsound word_lt_prime521 hcs 0 0).2.2.1⟩

/-- `bltu x1, x2` on two zeros is accepted as if the first were smaller. -/
theorem comparison_forged :
    ∃ cs : R1CS Var (ZMod prime521), step (idle : Draft prime521).witness false = some cs ∧
      ∃ z, z 0 = 1 ∧ cs.Sat z ∧ z (cs.var .X) = 0 ∧ z (cs.var .Y) = 0 ∧
        z (cs.var (.is .J 9)) = 1 ∧ z (cs.var (.lt .X .Y)) = 1 := by
  obtain ⟨cs, hcs⟩ := idle_built word_lt_prime521
  have hbltu : parseU32 bltuWord = some (.br .bltu 1 2 0) := by decide
  obtain ⟨z, hz, hsat, hX, hY, -, -, hval⟩ :=
    exists_flipped (a := 0) (b := 0) (I := 0) word_lt_prime521 hcs hbltu (by decide) (by decide)
      (by decide)
  refine ⟨cs, hcs, z, hz, hsat, by simpa using hX, ?_, ?_, ?_⟩
  · rw [hY, flipped_Y (by decide)]
    simp
  · rw [hval _ (by decide)]
    rfl
  · rw [hval _ (by decide)]
    rfl

end Comparisons

/-!
## Registers

What the register selectors of the step circuit enforce.  The operands are the
selected input registers, and each output register but `x'0` is determined.
-/

section Registers

variable {p : ℕ} [Fact p.Prime]

/-- **The registers of an assignment are right** for the output register `i`: `X`
and `Y` are the input registers that `rs1` and `rs2` name, and `x'i` is `Z` if `rd`
names it, and is not `0`, and else the input register. -/
structure RegistersRight (σ : Var → ZMod p) (i : ℕ) : Prop where
  X : ∃ k : ℕ, k < 32 ∧ σ .rs1 = (k : ZMod p) ∧ σ .X = σ (.x k)
  Y : ∃ k : ℕ, k < 32 ∧ σ .rs2 = (k : ZMod p) ∧ σ .Y = σ (.x k)
  x' : ∃ k : ℕ, k < 32 ∧ σ .rd = (k : ZMod p) ∧
    σ (.x' i) = if i = k ∧ k ≠ 0 then σ .Z else σ (.x i)

def RegistersSound (cs : R1CS Var (ZMod p)) (i : ℕ) : Prop :=
  ∀ z, z 0 = 1 → cs.Sat z → RegistersRight (fun n => z (cs.var n)) i

variable {P : Type} [MemoryProof P p] {w : Witness P} {cs : R1CS Var (ZMod p)}

omit [MemoryProof P p] in
/-- The rows of the register selectors. -/
theorem registersRight_of_fits (hp : 2 ^ 32 < p) {σ : Var → ZMod p}
    (hfit : Fits Op.Sat σ (stepBody w false)) {i : ℕ} (hi : i < 32) (hpos : i ≠ 0) :
    RegistersRight σ i := by
  have hc : Constants (ZMod p) (List.range 32) := constants_range hp (by omega) (by omega)
  have hload : Fits Op.Sat σ (selectXY false w.rs1 w.rs2) := hfit.of_mem (by simp [stepGadgets])
  have hstore : Fits Op.Sat σ (selectZ false w.rd) := hfit.of_mem (by simp [stepGadgets])
  unfold selectXY loadReg at hload
  obtain ⟨k₁, hrs1, hX⟩ := Fits.loadArray hc (fun _ => rfl) rfl rfl hload.left
  obtain ⟨k₂, hrs2, hY⟩ := Fits.loadArray hc (fun _ => rfl) rfl rfl hload.right
  obtain ⟨k, hrd, hout⟩ := Fits.storeReg hc rfl rfl hstore.right
  refine ⟨⟨k₁, hrs1.1, hrs1.2.1, hX⟩, ⟨k₂, hrs2.1, hrs2.2.1, hY⟩, k, hrd.1, hrd.2.1, ?_⟩
  rw [hout i (Nat.one_le_iff_ne_zero.mpr hpos) hi]
  by_cases hik : i = k
  · rw [if_pos hik, if_pos ⟨hik, hik ▸ hpos⟩]
  · rw [if_neg hik, if_neg fun h => hik h.1]

/-- The idle draft with a choice of `x'0`. -/
def withX0 (v : U32) : Draft p := { (idle : Draft p) with f := { (idle : Draft p).f with x0 := v } }

theorem withX0_sound (v : U32) : (withX0 v : Draft p).Sound := by
  have hd : (idle : Draft p).Sound := idle_sound
  exact ⟨hd.opcode, hd.decodes, hd.sub, hd.subi, hd.eqXY, hd.eqXI, hd.units, hd.readLo, hd.readHi,
    hd.writeLo, hd.writeHi, hd.sb, hd.sh, hd.sw⟩

/-- Any value of `x'0` is accepted, with `x0` zero. -/
theorem x0_free (hp : 2 ^ 32 < p) (h : step w false = some cs) (v : U32) :
    ∃ z, z 0 = 1 ∧ cs.Sat z ∧ z (cs.var (.x 0)) = 0 ∧ z (cs.var (.x' 0)) = (v.toNat : ZMod p) := by
  obtain ⟨z, hz, hsat, hval⟩ := exists_accepted hp h (withX0_sound v)
  refine ⟨z, hz, hsat, ?_, hval (.x' 0) (by decide)⟩
  rw [hval (.x 0) (by decide)]
  exact Nat.cast_zero

/-- **The register file is sound** for every output register but `x'0`. -/
theorem registers_sound_iff (hp : 2 ^ 32 < p) (h : step w false = some cs) {i : ℕ} (hi : i < 32) :
    RegistersSound cs i ↔ i ≠ 0 := by
  constructor
  · rintro hsound rfl
    obtain ⟨z, hz, hsat, hx, hx'⟩ := x0_free hp h 1
    obtain ⟨k, -, -, hout⟩ := (hsound z hz hsat).x'
    rw [if_neg fun hk => hk.2 hk.1.symm, hx', hx] at hout
    have hone : (1 : U32) = 0 := word_inj hp (hout.trans Nat.cast_zero.symm)
    exact absurd hone (by decide)
  · intro hpos z hz hsat
    exact registersRight_of_fits hp (step_sound h hz hsat) hi hpos

/-- The circuit of `addi x0, x0, 0`, and the output register `x'1`. -/
theorem registers_sound_iff_idle :
    ∃ cs : R1CS Var (ZMod prime521), step (idle : Draft prime521).witness false = some cs ∧
      RegistersSound cs 1 := by
  obtain ⟨cs, hcs⟩ := idle_built word_lt_prime521
  exact ⟨cs, hcs, (registers_sound_iff word_lt_prime521 hcs (by decide)).mpr (by decide)⟩

/-- **`x'0` is free**: accepted with `x'0 = 1`, where `x0` is `0`. -/
theorem x0_forged :
    ∃ cs : R1CS Var (ZMod prime521), step (idle : Draft prime521).witness false = some cs ∧
      ∃ z, z 0 = 1 ∧ cs.Sat z ∧ z (cs.var (.x 0)) = 0 ∧ z (cs.var (.x' 0)) = 1 := by
  obtain ⟨cs, hcs⟩ := idle_built word_lt_prime521
  obtain ⟨z, hz, hsat, hx, hx'⟩ := x0_free word_lt_prime521 hcs 1
  refine ⟨cs, hcs, z, hz, hsat, hx, ?_⟩
  rw [hx']
  exact Nat.cast_one

end Registers

end NexusVm.Circuit
