import NexusVm.Circuit.Uniform
import NexusVm.Circuit.Values
import NexusVm.Circuit.Decode

/-!
# When the values fit

`Fitting` lists what the rows of the step circuit ask of a witness and of the
forged choices; `Genuine` what the builder itself computes.  With `Fitting`
alone the values satisfy the rows, with both they are the builder's own.
-/

namespace NexusVm.Circuit

open NexusVm.Builder

section Fitting

variable {p : ℕ} [Fact p.Prime] {P : Type} [MemoryProof P p]

/-- The opcode of the instruction of a step. -/
def opcOf (w : Witness P) : ℕ := (opcode w.inst).toNat

/-- What all rows ask for but those that tie the register operands to the word
and `PC` to the selected target. -/
structure Loose (w : Witness P) (f : Forge) : Prop where
  opcode : opcOf w ∈ opcodes
  lt : w.rd.toNat < 32 ∧ w.rs1.toNat < 32 ∧ w.rs2.toNat < 32 ∧ w.shamt.toNat < 32
  X : w.X = w.regs.x (Fin.ofNat 32 w.rs1.toNat)
  Y : w.Y = w.regs.x (Fin.ofNat 32 w.rs2.toNat)
  shamt : w.shamt.toNat =
    if opcOf w = 19 then (NexusVm.shamt w.inst).toNat
    else if opcOf w = 51 then w.Y.toNat % 2 ^ 5 else 0
  decodes : decodes (keyOf w.inst) w.J = true
  Z : (w.Z.toNat : ZMod p) = zVal w f w.J
  eqXY : f.eqXY = true → (diff w.X w.Y f.ltXY : ZMod p) = 0
  eqXI : f.eqXI = true → (diff w.X w.I f.ltXI : ZMod p) = 0
  units : ∀ width ∈ [8, 16, 32], f.unit width < 128 / width
  readHalf : (lineHalf w w.readProof : ZMod p).val < 2 ^ 128
  writeHalf : (lineHalf w w.writeProof : ZMod p).val < 2 ^ 128
  sb : w.J = 16 → w.Y.toNat % 2 ^ 8 = chosen w f w.writeProof 8
  sh : w.J = 17 → w.Y.toNat % 2 ^ 16 = chosen w f w.writeProof 16
  sw : w.J = 18 → w.Y.toNat = chosen w f w.writeProof 32

/-- The register operands are those of the word. -/
structure Operands (w : Witness P) : Prop where
  rd : w.rd.toNat = if opcOf w ∈ [opcBr, opcStore] then 0 else (NexusVm.rd w.inst).toNat
  rs1 : w.rs1.toNat =
    if opcOf w ∈ [opcLui, opcAuipc, opcJal, opcEcall] then 0 else (NexusVm.rs1 w.inst).toNat
  rs2 : w.rs2.toNat =
    if opcOf w ∈ [opcBr, opcStore, opcAlu] then (NexusVm.rs2 w.inst).toNat else 0

/-- What the rows ask for. -/
structure Fitting (w : Witness P) (f : Forge) : Prop extends Loose w f, Operands w where
  PC : w.PC = pcVal w f w.J

/-- The immediate of a format. -/
def immOf (word : U32) : Ty → U32
  | .R => 0
  | .I => immI word
  | .S => immS word
  | .B => immB word
  | .U => immU word
  | .J => immJ word
  | .A => immA word

/-- What the builder computes for the values that the rows leave open. -/
structure Genuine (w : Witness P) (f : Forge) : Prop where
  imm : ∀ ty, typeOf (opcOf w) = some ty → w.I = immOf w.inst ty
  x0 : f.x0 = w.regs.x 0
  ltXY : f.ltXY = w.X.ult w.Y
  eqXY : f.eqXY = (w.X == w.Y)
  ltXI : f.ltXI = w.X.ult w.I
  eqXI : f.eqXI = (w.X == w.I)
  unit : f.unit 8 = ((w.X + w.I) &&& 0xf).toNat ∧ f.unit 16 = ((w.X + w.I) &&& 0xf).toNat / 2 ∧
    f.unit 32 = ((w.X + w.I) &&& 0xf).toNat / 2 / 2

end Fitting

section Single

variable {p : ℕ} [Fact p.Prime] {ρ : Var → ZMod p} {redo : Var → Bool}

theorem setVar_passes {n : Var} {v : U32} (hl : isLocal n = false)
    (h : ρ n = (v.toNat : ZMod p)) : Passes (Op.Honest redo) ρ (setVar n v) := by
  refine passes_of_holds rfl fun l => setVar_holds ?_
  rw [glue_global hl, h]

theorem setEq_passes {n v : Var} (hl : isLocal n = false) (hlv : isLocal v = false)
    (h : ρ n = ρ v) : Passes (Op.Honest redo) ρ (setEq n v) := by
  refine passes_of_holds rfl fun l => setEq_holds ?_
  rw [glue_global hl, glue_global hlv, h]

theorem toBits_passes {n : Var} {x : U32} (hl : isLocal n = false) (h : IsWord ρ n x) :
    Passes (Op.Honest redo) ρ (toBits n x) := by
  refine passes_of_holds ?_ fun l => toBits_holds (h.glue hl)
  simp [toBits, setVar, setFieldVar, setBit, setBitFrom]

variable {P : Type} [MemoryProof P p] {w : Witness P} {f : Forge} {wo : Bool}

theorem constants_range (hp : 2 ^ 32 < p) {n : ℕ} (h2 : 2 ≤ n) (hn : n ≤ 2 ^ 32) :
    Constants (ZMod p) (List.range n) := by
  refine ⟨by simpa using h2, List.nodup_range, fun x hx y hy hxy => ?_⟩
  rw [List.mem_range] at hx hy
  exact CharP.natCast_injOn_Iio (ZMod p) p (Set.mem_Iio.mpr (by omega))
    (Set.mem_Iio.mpr (by omega)) hxy

theorem constants_opcodes (hp : 2 ^ 32 < p) : Constants (ZMod p) opcodes := by
  refine ⟨by decide, by decide, fun x hx y hy hxy => ?_⟩
  have hlt : ∀ x ∈ opcodes, x < 128 := by decide
  have hx' := hlt x hx
  have hy' := hlt y hy
  exact CharP.natCast_injOn_Iio (ZMod p) p (Set.mem_Iio.mpr (by omega))
    (Set.mem_Iio.mpr (by omega)) hxy

/-- Names whose bits are those of their word. -/
def hasWord : Var → Bool
  | .pc | .PC | .X | .Y | .I | .Z | .inst | .plus .X .I | .conj .X .Y | .conj .X .I => true
  | .ZJ 24 | .ZJ 27 | .ZJ 34 | .ZJ 37 => true
  | _ => false

theorem isWord_val {v : Var} (h : hasWord v = true) : IsWord (val w f) v (wordOf w f v) := by
  unfold hasWord at h
  split at h <;> first | cases h; done | exact ⟨rfl, fun i _ => by rw [BitVec.testBit_toNat]; rfl⟩

theorem val_is (v : Var) (k : ℕ) : val w f (.is v k) = if k = indexOf w f v then 1 else 0 := rfl

theorem selects_val {v : Var} {n k : ℕ} (hk : indexOf w f v = k) (hn : k < n)
    (hv : val w f v = (k : ZMod p)) : Selects (val w f) v n k :=
  ⟨hn, hv, fun i _ => by rw [val_is, hk]⟩

theorem selectXY_passes (hp : 2 ^ 32 < p) (h : Loose w f) :
    Passes (Op.Honest redo) (val w f) (selectXY wo w.rs1 w.rs2) := by
  have hc := constants_range hp (n := 32) (by omega) (by omega)
  refine Passes.append ?_ ?_
  · refine loadArray_passes hc (by decide) (fun _ => rfl) rfl rfl (selects_val rfl h.lt.2.1 rfl)
      ?_ h.lt.2.1 (Or.inl rfl)
    exact congrArg (fun x : U32 => (x.toNat : ZMod p)) h.X
  · refine loadArray_passes hc (by decide) (fun _ => rfl) rfl rfl (selects_val rfl h.lt.2.2.1 rfl)
      ?_ h.lt.2.2.1 (Or.inl rfl)
    exact congrArg (fun x : U32 => (x.toNat : ZMod p)) h.Y

theorem stepHead_passes (hp : 2 ^ 32 < p) (h : Loose w f) :
    Passes (Op.Honest redo) (val w f) (stepHead w wo) := by
  have hbits : ∀ {v : Var} {x : U32}, isLocal v = false → hasWord v = true → wordOf w f v = x →
      Passes (Op.Honest redo) (val w f) (toBits v x) :=
    fun hl hv hx => hx ▸ toBits_passes hl (isWord_val hv)
  exact (((((((((((selectXY_passes hp h).append (hbits rfl rfl rfl)).append
    (hbits rfl rfl rfl)).append (hbits rfl rfl rfl)).append (hbits rfl rfl rfl)).append
    (hbits rfl rfl rfl)).append (hbits rfl rfl rfl)).append (setVar_passes rfl rfl)).append
    (setVar_passes rfl rfl)).append (setVar_passes rfl rfl)).append
    (setVar_passes rfl rfl)).append (hbits rfl rfl rfl)

/-- The cases of an opcode. -/
theorem opcodes_cases {k : ℕ} (h : k ∈ opcodes) :
    k = 55 ∨ k = 23 ∨ k = 111 ∨ k = 103 ∨ k = 99 ∨ k = 3 ∨ k = 35 ∨ k = 19 ∨ k = 51 ∨ k = 15 ∨
      k = 115 := by
  simpa [opcodes, opcLui, opcAuipc, opcJal, opcJalr, opcBr, opcLoad, opcStore, opcAlui, opcAlu,
    opcFence, opcEcall] using h

/-- The fields that are read off the bits of a word. -/
theorem sum_bits {v : Var} (hv : hasWord v = true) (l : Var → ZMod p) {start count : ℕ}
    (h : start + count ≤ 32) :
    bitSum ((bitNames v start count).map (glue (val w f) l)) =
      (((wordOf w f v).toNat / 2 ^ start % 2 ^ count : ℕ) : ZMod p) := by
  have hbits : HasBits (glue (val w f) l) v (wordOf w f v).toNat 32 := (isWord_val hv).bits
  exact hbits.sum_names h

/-- The rows of the opcode, when the operands are those of the word. -/
theorem parseOpcRows_sat {l : Var → ZMod p} (ho : opcOf w ∈ opcodes) (h : Operands w) :
    Holds Op.Sat (glue (val w f) l) parseOpcRows := by
  generalize hσ : glue (val w f) l = σ
  have hopc : ∀ k, σ (.is .opcode k) = if k = opcOf w then 1 else 0 := fun k => by
    rw [← hσ]; rfl
  have hty : ∀ ty, σ (.type ty) = if typeOf (opcOf w) = some ty then 1 else 0 := fun ty => by
    rw [← hσ]; rfl
  have hsum : ∀ start count, start + count ≤ 32 → bitSum ((bitNames .inst start count).map σ) =
      ((w.inst.toNat / 2 ^ start % 2 ^ count : ℕ) : ZMod p) := fun _ _ hc => by
    rw [← hσ]; exact sum_bits rfl _ hc
  have hopcode : σ .opcode = ((w.inst.toNat % 2 ^ 7 : ℕ) : ZMod p) := by
    rw [← opcode_toNat, ← hσ]; rfl
  have hrd : σ .rd = (w.rd.toNat : ZMod p) := by rw [← hσ]; rfl
  have hrs1 : σ .rs1 = (w.rs1.toNat : ZMod p) := by rw [← hσ]; rfl
  have hrs2 : σ .rs2 = (w.rs2.toNat : ZMod p) := by rw [← hσ]; rfl
  simp only [parseOpcRows, holds_cons, holds_nil, and_true, add,
    sumRow, Op.Sat, lc_cons, lc_nil, lc_powRow, Term.eval_put, Term.eval_const,
    List.map_cons, List.map_nil, hopc, hty, hopcode, hrd, hrs1,
    hrs2, hsum 0 7 (by omega), hsum 7 5 (by omega), hsum 15 5 (by omega), hsum 20 5 (by omega)]
  rw [h.rd, h.rs1, h.rs2, rd_toNat, rs1_toNat, rs2_toNat]
  rcases opcodes_cases ho with h | h | h | h | h | h | h | h | h | h | h <;> rw [h] <;>
    simp [typeOf, opcLui, opcAuipc, opcJal, opcJalr, opcBr, opcLoad, opcStore, opcAlu,
      opcFence, opcEcall]

/-- The formats that have one opcode each. -/
theorem parseOpcTypes_holds {l : Var → ZMod p} (ho : opcOf w ∈ opcodes) :
    Holds (Op.Honest redo) (glue (val w f) l)
      (setEq (.type .J) (.is .opcode opcJal) ++ setEq (.type .B) (.is .opcode opcBr) ++
        setEq (.type .S) (.is .opcode opcStore) ++ setEq (.type .A) (.is .opcode opcAlui)) := by
  have hcases := opcodes_cases ho
  have heq : ∀ ty k, (typeOf (opcOf w) = some ty ↔ k = opcOf w) →
      glue (val w f) l (.type ty) = glue (val w f) l (.is .opcode k) := by
    intro ty k hk
    show (if typeOf (opcOf w) = some ty then (1 : ZMod p) else 0) = if k = opcOf w then 1 else 0
    exact if_congr hk rfl rfl
  simp only [holds_append]
  refine ⟨⟨⟨setEq_holds (heq _ _ ?_), setEq_holds (heq _ _ ?_)⟩, setEq_holds (heq _ _ ?_)⟩,
    setEq_holds (heq _ _ ?_)⟩
  · rcases hcases with h | h | h | h | h | h | h | h | h | h | h <;> rw [h] <;> decide
  · rcases hcases with h | h | h | h | h | h | h | h | h | h | h <;> rw [h] <;> decide
  · rcases hcases with h | h | h | h | h | h | h | h | h | h | h <;> rw [h] <;> decide
  · rcases hcases with h | h | h | h | h | h | h | h | h | h | h <;> rw [h] <;> decide

variable {rows : Prop}

theorem parseOpcBody_passes (ho : opcOf w ∈ opcodes) (h : rows → Operands w) :
    Passes (Op.Tracked rows redo) (val w f) (parseOpcBody wo ++ [Op.sealLocals]) := by
  refine passes_sealed ?_ 0 ?_
  · cases wo <;> simp [parseOpcBody, parseOpcRows, setEq, add, sumRow]
  rw [parseOpcBody, holds_append]
  refine ⟨(parseOpcTypes_holds ho).mono fun op hop => hop.tracked rows, ?_⟩
  cases wo with
  | true => simp
  | false =>
      refine holds_tracked ?_ fun hrows => parseOpcRows_sat ho (h hrows)
      simp [parseOpcRows, add, sumRow, Op.Computes]

/-! ## Immediates and shift amount -/

omit [Fact p.Prime] in
theorem bitNames_length (v : Var) (start count : ℕ) (σ : Var → ZMod p) :
    ((bitNames v start count).map σ).length = count := by
  simp [bitNames]

omit [MemoryProof P p] in
/-- The row of an immediate, when the sum of its names is known. -/
theorem immRow_holds {σ : Var → ZMod p} {ty : Ty} {pow sign : ZMod p} {names : List Var}
    {n m : ℕ} (hsum : pow * bitSum (names.map σ) = (n : ZMod p)) (hsign : sign = (m : ℕ))
    (hbit : σ (.bit .inst 31) = flag (w.inst.getLsbD 31))
    (himm : σ (.imm ty) = ((n + signPart w.inst m : ℕ) : ZMod p)) :
    Op.Honest redo σ (immRow ty pow names sign) := by
  simp only [immRow, Op.Honest, lc_append, lc_powRow, lc_cons, lc_nil, Term.eval_put,
    Term.eval_const, hsum, hbit, himm, hsign, signPart]
  cases w.inst.getLsbD 31 <;> simp

/-- The formats that have an immediate. -/
def immTys : List Ty := [.I, .S, .B, .U, .J, .A]

/-- The local values of `parse_imm`; `t` are the selected immediates. -/
def immLocals (w : Witness P) (t : Ty → ZMod p) : Var → ZMod p
  | .ti ty => t ty
  | .isShift => if (funct3 w.inst).toNat = 1 ∨ (funct3 w.inst).toNat = 5 then 1 else 0
  | .a1 => if (funct3 w.inst).toNat = 1 ∨ (funct3 w.inst).toNat = 5 then
      ((NexusVm.shamt w.inst).toNat : ZMod p) else 0
  | .a2 => if (funct3 w.inst).toNat = 1 ∨ (funct3 w.inst).toNat = 5 then 0
      else ((immI w.inst).toNat : ZMod p)
  | _ => 0

theorem isShift_eq (n : ℕ) :
    (if 1 = n then (1 : ZMod p) else 0) + (if 5 = n then 1 else 0) =
      if n = 1 ∨ n = 5 then 1 else 0 := by
  by_cases h1 : n = 1
  · simp [h1]
  · by_cases h5 : n = 5
    · simp [h5]
    · simp [h1, h5, Ne.symm h1, Ne.symm h5]

theorem parseImmRows_holds {t : Ty → ZMod p} (hsum : (immTys.map t).sum = (w.I.toNat : ZMod p)) :
    Holds (Op.Honest redo) (glue (val w f) (immLocals w t)) parseImmRows := by
  generalize hσ : glue (val w f) (immLocals w t) = σ
  have hbits : ∀ start count, start + count ≤ 32 → bitSum ((bitNames .inst start count).map σ) =
      ((w.inst.toNat / 2 ^ start % 2 ^ count : ℕ) : ZMod p) := fun _ _ hc => by
    rw [← hσ]; exact sum_bits rfl _ hc
  have hbit : ∀ i, σ (.bit .inst i) = flag (w.inst.getLsbD i) := fun i => by rw [← hσ]; rfl
  have hone : ∀ i, i < 32 → σ (.bit .inst i) = ((w.inst.toNat / 2 ^ i % 2 : ℕ) : ZMod p) := by
    intro i hi
    have h1 := hbits i 1 (by omega)
    simpa [bitNames] using h1
  have hf3 : ∀ k, σ (.is .f3 k) = if k = (funct3 w.inst).toNat then 1 else 0 := fun k => by
    rw [← hσ]; rfl
  have hword : ∀ ty, σ (.imm ty) = ((immOf w.inst ty).toNat : ZMod p) := fun ty => by
    rw [← hσ]; cases ty <;> rfl
  have hti : ∀ ty, σ (.ti ty) = t ty := fun ty => by rw [← hσ]; rfl
  have hshift : σ .isShift =
      if (funct3 w.inst).toNat = 1 ∨ (funct3 w.inst).toNat = 5 then 1 else 0 := by
    rw [← hσ]; rfl
  have ha1 : σ .a1 = if (funct3 w.inst).toNat = 1 ∨ (funct3 w.inst).toNat = 5 then
      ((NexusVm.shamt w.inst).toNat : ZMod p) else 0 := by
    rw [← hσ]; rfl
  have ha2 : σ .a2 = if (funct3 w.inst).toNat = 1 ∨ (funct3 w.inst).toNat = 5 then 0
      else ((immI w.inst).toNat : ZMod p) := by
    rw [← hσ]; rfl
  have hlowA : σ .lowA = ((w.inst.toNat / 2 ^ 20 % 2 ^ 5 : ℕ) : ZMod p) := by
    rw [← shamt_toNat, ← hσ]; rfl
  have hf3v : σ .f3 = ((w.inst.toNat / 2 ^ 12 % 2 ^ 3 : ℕ) : ZMod p) := by
    rw [← funct3_toNat, ← hσ]; rfl
  have hf7v : σ .f7 = ((w.inst.toNat / 2 ^ 25 % 2 ^ 7 : ℕ) : ZMod p) := by
    rw [← funct7_toNat, ← hσ]; rfl
  have hf7s : σ .f7sub32 = σ .f7 - 32 := by rw [← hσ]; rfl
  have hI : σ .I = (w.I.toNat : ZMod p) := by rw [← hσ]; rfl
  simp only [parseImmRows, holds_cons, holds_nil, and_true]
  refine ⟨?_, ?_, ?_, ?_, ?_, ?_, ?_, ?_, ?_, ?_, ?_, ?_, ?_, ?_⟩
  · simp only [add, Op.Honest, lc_cons, lc_nil, Term.eval_put, Term.eval_const, hf3, hshift,
      ← isShift_eq]
    ring
  · simp only [mul, Op.Honest, lc_cons, lc_nil, Term.eval_put, hshift, hlowA, ha1, shamt_toNat]
    split_ifs <;> simp
  · simp only [Op.Honest, lc_cons, lc_nil, Term.eval_put, Term.eval_const, hshift, hword, ha2,
      immOf]
    split_ifs <;> simp
  · simp only [add, Op.Honest, lc_cons, lc_nil, Term.eval_put, Term.eval_const, hword, ha1, ha2,
      immOf, immA_eq]
    split_ifs <;> simp
  · rw [sumRow_honest, hI, ← hsum, List.map_map]
    exact congrArg List.sum (List.map_congr_left fun ty _ => (hti ty).symm)
  · simp only [Op.Honest, lc_cons, lc_nil, lc_powRow, Term.eval_put, Term.eval_const,
      hbits 20 5 (by omega), hlowA]
    ring
  · simp only [Op.Honest, lc_cons, lc_nil, lc_powRow, Term.eval_put, Term.eval_const,
      hbits 12 3 (by omega), hf3v]
    ring
  · simp only [Op.Honest, lc_cons, lc_nil, lc_powRow, Term.eval_put, Term.eval_const,
      hbits 25 7 (by omega), hf7v]
    ring
  · simp only [addi, Op.Honest, lc_cons, lc_nil, Term.eval_put, Term.eval_const, hf7s]
    ring
  · refine immRow_holds (n := w.inst.toNat / 2 ^ 20 % 2 ^ 11) (m := 0xfffff800) ?_ ?_
      (hbit 31) ?_
    · rw [hbits 20 11 (by omega), one_mul]
    · norm_num
    · rw [hword, immOf, immI_toNat]
  · refine immRow_holds (n := w.inst.toNat / 2 ^ 7 % 2 ^ 5 +
      2 ^ 5 * (w.inst.toNat / 2 ^ 25 % 2 ^ 6))
      (m := 0xfffff800) ?_ ?_ (hbit 31) ?_
    · rw [List.map_append, bitSum_append, bitNames_length, hbits 7 5 (by omega),
        hbits 25 6 (by omega), one_mul]
      push_cast
      ring
    · norm_num
    · rw [hword, immOf, immS_toNat]
  · refine immRow_holds (n := 2 * (w.inst.toNat / 2 ^ 8 % 2 ^ 4) +
      2 ^ 5 * (w.inst.toNat / 2 ^ 25 % 2 ^ 6) + 2 ^ 11 * (w.inst.toNat / 2 ^ 7 % 2))
      (m := 0xfffff000) ?_ ?_ (hbit 31) ?_
    · rw [List.map_append, List.map_append, bitSum_append, bitSum_append, List.length_append,
        bitNames_length, bitNames_length, hbits 8 4 (by omega), hbits 25 6 (by omega),
        List.map_cons, List.map_nil, hone 7 (by omega)]
      simp only [bitSum_cons, bitSum_nil]
      push_cast
      ring
    · norm_num
    · rw [hword, immOf, immB_toNat]
  · simp only [Op.Honest, lc_cons, lc_nil, lc_powRow, Term.eval_put, Term.eval_const,
      hbits 12 20 (by omega), hword, immOf, immU_toNat]
    push_cast
    ring
  · refine immRow_holds (n := 2 * (w.inst.toNat / 2 ^ 21 % 2 ^ 10) +
      2 ^ 11 * (w.inst.toNat / 2 ^ 20 % 2) + 2 ^ 12 * (w.inst.toNat / 2 ^ 12 % 2 ^ 8))
      (m := 0xfff00000) ?_ ?_ (hbit 31) ?_
    · rw [List.map_append, List.map_append, bitSum_append, bitSum_append, List.length_append,
        bitNames_length, hbits 21 10 (by omega), hbits 12 8 (by omega),
        List.map_cons, List.map_nil, hone 20 (by omega)]
      simp only [bitSum_cons, bitSum_nil, List.length_cons, List.length_nil]
      push_cast
      ring
    · norm_num
    · rw [hword, immOf, immJ_toNat]

/-- The selected immediates that give `I`: those of the format, or any value
that is assigned to one of them. -/
theorem exists_immediates (h : Loose w f) (hr : Genuine w f ∨ ∀ n, redo n = true) :
    ∃ t : Ty → ZMod p, (immTys.map t).sum = (w.I.toNat : ZMod p) ∧
      ((∀ ty ∈ immTys, t ty = val w f (.type ty) * val w f (.imm ty)) ∨ ∀ n, redo n = true) := by
  rcases hr with hg | hr
  · refine ⟨fun ty => val w f (.type ty) * val w f (.imm ty), ?_, Or.inl fun _ _ => rfl⟩
    have hty : ∀ ty, val w f (.type ty) = if typeOf (opcOf w) = some ty then 1 else 0 :=
      fun _ => rfl
    have himm : ∀ ty, val w f (.imm ty) = ((immOf w.inst ty).toNat : ZMod p) := by
      intro ty
      cases ty <;> rfl
    have hI := hg.imm
    rcases opcodes_cases h.opcode with h | h | h | h | h | h | h | h | h | h | h <;>
      rw [h] at hI hty <;> rw [hI _ rfl] <;> simp [immTys, hty, himm, typeOf, immOf]
  · refine ⟨fun ty => if ty = .I then (w.I.toNat : ZMod p) else 0, ?_, Or.inr hr⟩
    simp [immTys]

theorem parseImm_passes (hp : 2 ^ 32 < p) (h : Loose w f)
    (hr : Genuine w f ∨ ∀ n, redo n = true) :
    Passes (Op.Honest redo) (val w f) (parseImm wo w.inst) := by
  obtain ⟨t, hsum, ht⟩ := exists_immediates h hr
  have hf3 := (field_lt w.inst).2.1
  unfold parseImm
  rw [List.append_assoc]
  refine ((((((((((setVar_passes rfl rfl).append (setVar_passes rfl rfl)).append
    (setVar_passes rfl rfl)).append (setVar_passes rfl rfl)).append
    (setVar_passes rfl rfl)).append (setVar_passes rfl rfl)).append
    (setVar_passes rfl rfl)).append (setVar_passes rfl rfl)).append ?_).append
    (selector_passes (constants_range hp (by omega) (by omega)) (by decide) rfl
      (selects_val rfl hf3 rfl) hf3 (Or.inl rfl))).append
    (passes_sealed ?_ (immLocals w t) ?_)
  · refine passes_of_holds rfl fun l => ?_
    simp only [holds_cons, holds_nil, and_true, Op.Honest, true_and,
      view_mem (List.mem_singleton_self _)]
    exact Or.inr rfl
  · cases wo <;>
      simp [parseImmBody, parseImmRows, setLocalVar, add, mul, sumRow, addi, immRow]
  · simp only [parseImmBody, holds_append, holds_flatMap, setLocalVar_honest]
    refine ⟨⟨⟨⟨fun ty hty => ?_, Or.inr ?_⟩, Or.inr ?_⟩, Or.inr ?_⟩, ?_⟩
    · rcases ht with ht | ht
      · refine Or.inr ?_
        rw [view_mem (by simp), view_mem (by simp)]
        exact (ht ty hty).symm
      · exact Or.inl (ht _)
    · rw [view_mem (by simp), view_mem (by simp)]
      exact isShift_eq _
    · rw [view_mem (by simp), view_mem (by simp)]
      show (if (funct3 w.inst).toNat = 1 ∨ (funct3 w.inst).toNat = 5 then (1 : ZMod p) else 0) *
        ((NexusVm.shamt w.inst).toNat : ZMod p) =
          if (funct3 w.inst).toNat = 1 ∨ (funct3 w.inst).toNat = 5 then _ else 0
      split_ifs <;> simp
    · rw [view_mem (by simp), view_mem (by simp)]
      show (1 - if (funct3 w.inst).toNat = 1 ∨ (funct3 w.inst).toNat = 5 then (1 : ZMod p) else 0) *
        ((immI w.inst).toNat : ZMod p) =
          if (funct3 w.inst).toNat = 1 ∨ (funct3 w.inst).toNat = 5 then 0 else _
      split_ifs <;> simp
    · cases wo with
      | true => simp
      | false => exact parseImmRows_holds hsum

/-- The local values of `parse_shamt`. -/
def shamtLocals (w : Witness P) : Var → ZMod p
  | .shamtI => if 19 = opcOf w then ((NexusVm.shamt w.inst).toNat : ZMod p) else 0
  | .shamtR => if 51 = opcOf w then ((w.Y &&& 0x1f).toNat : ZMod p) else 0
  | _ => 0

theorem lowY_toNat (y : U32) : (y &&& 0x1f).toNat = y.toNat % 2 ^ 5 := by
  rw [BitVec.toNat_and]
  exact Nat.and_two_pow_sub_one_eq_mod y.toNat 5

theorem parseShamt_passes (h : Loose w f) :
    Passes (Op.Honest redo) (val w f) (parseShamt wo w.Y) := by
  refine passes_sealed ?_ (shamtLocals w) ?_
  · cases wo <;> simp [parseShamtBody, setVar, setFieldVar, setLocalVar, add, mul]
  generalize hσ : glue (val w f) (shamtLocals w) = σ
  have hopc : ∀ k, σ (.is .opcode k) = if k = opcOf w then 1 else 0 := fun k => by
    rw [← hσ]; rfl
  have hlowA : σ .lowA = ((NexusVm.shamt w.inst).toNat : ZMod p) := by rw [← hσ]; rfl
  have hlowY : σ .lowY = ((w.Y &&& 0x1f).toNat : ZMod p) := by rw [← hσ]; rfl
  have hI : σ .shamtI = if 19 = opcOf w then ((NexusVm.shamt w.inst).toNat : ZMod p) else 0 := by
    rw [← hσ]; rfl
  have hR : σ .shamtR = if 51 = opcOf w then ((w.Y &&& 0x1f).toNat : ZMod p) else 0 := by
    rw [← hσ]; rfl
  have hsh : σ .shamt = (w.shamt.toNat : ZMod p) := by rw [← hσ]; rfl
  have hbits : bitSum ((bitNames .Y 0 5).map σ) = ((w.Y &&& 0x1f).toNat : ZMod p) := by
    rw [← hσ, sum_bits rfl _ (by omega), lowY_toNat, pow_zero, Nat.div_one]
    rfl
  simp only [parseShamtBody, holds_append, setLocalVar_honest]
  refine ⟨⟨⟨setVar_holds hlowY, Or.inr ?_⟩, Or.inr ?_⟩, ?_⟩
  · rw [view_mem (by simp), view_mem (by simp), hopc, hlowA, hI]
    split_ifs <;> simp
  · rw [view_mem (by simp), view_mem (by simp), hopc, hlowY, hR]
    split_ifs <;> simp
  cases wo with
  | true => simp
  | false =>
      simp only [Bool.false_eq_true, if_false, holds_cons, holds_nil, and_true, add, mul,
        Op.Honest, lc_cons, lc_nil, lc_powRow, Term.eval_put, Term.eval_const, hbits, hopc, hlowA,
        hlowY, hI, hR, hsh]
      refine ⟨by ring, by split_ifs <;> simp, by split_ifs <;> simp, ?_⟩
      rw [h.shamt, ← lowY_toNat]
      by_cases h19 : opcOf w = 19
      · simp [h19]
      · by_cases h51 : opcOf w = 51
        · simp [h51]
        · simp [h19, h51, Ne.symm h19, Ne.symm h51]

/-! ## Selectors and arithmetic -/

/-- The local values of `parse_J`. -/
def flagLocals (w : Witness P) : Var → ZMod p
  | .f30a => flag ((keyOf w.inst).f3 == 0 && !(keyOf w.inst).b30)
  | .f30b => flag ((keyOf w.inst).f3 == 0 && (keyOf w.inst).b30)
  | .f35a => flag ((keyOf w.inst).f3 == 5 && !(keyOf w.inst).b30)
  | .f35b => flag ((keyOf w.inst).f3 == 5 && (keyOf w.inst).b30)
  | .ecall => flag (!(keyOf w.inst).b12 && !(keyOf w.inst).b20)
  | _ => 0

/-- The values that the rows of `parse_J` speak about, in terms of the key. -/
structure KeyValues (σ : Var → ZMod p) (k : Key) (J : ℕ) : Prop where
  J : ∀ j, σ (.is .J j) = flag (j == J)
  opc : ∀ n, σ (.is .opcode n) = flag (k.opc == n)
  f3 : ∀ n, σ (.is .f3 n) = flag (k.f3 == n)
  f3v : σ .f3 = (k.f3 : ZMod p)
  f7v : σ .f7 = (k.f7 : ZMod p)
  f7sub : σ .f7sub32 = (k.f7 : ZMod p) - 32
  b12 : σ (.bit .inst 12) = flag k.b12
  b20 : σ (.bit .inst 20) = flag k.b20
  b30 : σ (.bit .inst 30) = flag k.b30
  f30a : σ .f30a = flag (k.f3 == 0 && !k.b30)
  f30b : σ .f30b = flag (k.f3 == 0 && k.b30)
  f35a : σ .f35a = flag (k.f3 == 5 && !k.b30)
  f35b : σ .f35b = flag (k.f3 == 5 && k.b30)
  ecall : σ .ecall = flag (!k.b12 && !k.b20)

omit [MemoryProof P p] in
theorem ite_eq_flag (m n : ℕ) : (if m = n then (1 : ZMod p) else 0) = flag (n == m) := by
  by_cases h : m = n
  · simp [h]
  · rw [if_neg h, beq_false_of_ne (Ne.symm h), flag_false]

theorem keyValues : KeyValues (glue (val w f) (flagLocals w)) (keyOf w.inst) w.J where
  J j := by
    rw [← ite_eq_flag]
    show (if j = w.J then (1 : ZMod p) else 0) = _
    exact if_congr eq_comm rfl rfl
  opc n := by
    rw [← ite_eq_flag]
    rfl
  f3 n := by
    rw [← ite_eq_flag]
    rfl
  f3v := rfl
  f7v := rfl
  f7sub := rfl
  b12 := rfl
  b20 := rfl
  b30 := rfl
  f30a := rfl
  f30b := rfl
  f35a := rfl
  f35b := rfl
  ecall := rfl

section Rows

omit [MemoryProof P p]

variable {σ : Var → ZMod p} {k : Key} {J : ℕ}

theorem flag_mul (a b : Bool) : (flag a : ZMod p) * flag b = flag (a && b) := by
  cases a <;> cases b <;> simp

theorem one_sub_flag (a : Bool) : 1 - (flag a : ZMod p) = flag !a := by
  cases a <;> simp

/-- The row for a selector whose product is that of `selects`. -/
theorem mulJ_holds (h : KeyValues σ k J) (hd : decodes k J = true) {j opc : ℕ} {v : Var} {b : Bool}
    (hj : (1 ≤ j ∧ j ≤ RV32.maxJ) ∧ j ≠ 20) (hs : selects k j = (k.opc == opc && b))
    (hv : σ v = flag b) : Op.Honest redo σ (mulJ j opc v) := by
  have hsel := selects_of_decodes hd hj.1.1 hj.1.2 hj.2
  simp only [mulJ, mul, Op.Honest, lc_cons, lc_nil, Term.eval_put, one_mul, add_zero, h.opc, h.J,
    hv, flag_mul]
  rw [← hs, hsel]

theorem setEqJ_holds (h : KeyValues σ k J) (hd : decodes k J = true) {j opc : ℕ}
    (hj : (1 ≤ j ∧ j ≤ RV32.maxJ) ∧ j ≠ 20) (hs : selects k j = (k.opc == opc)) :
    Holds (Op.Honest redo) σ (setEqJ j opc) := by
  have hsel := selects_of_decodes hd hj.1.1 hj.1.2 hj.2
  refine setEq_holds ?_
  rw [h.J, h.opc, ← hs, hsel]

/-- The check that goes with a selector. -/
theorem nandJ_holds (h : KeyValues σ k J) {j : ℕ} {v : Var} (hv : j = J → σ v = 0) :
    Op.Honest redo σ (nandJ j v) := by
  simp only [nandJ, nand, Op.Honest, lc_cons, lc_nil, Term.eval_put, one_mul, add_zero, h.J]
  by_cases hj : j = J
  · rw [hv hj, mul_zero]
  · rw [beq_false_of_ne hj, flag_false, zero_mul]

theorem f7_eq_zero (h : KeyValues σ k J) (hd : decodes k J = true) {j : ℕ}
    (hc : checks k j = (k.f7 == 0)) (hj : j = J) : σ .f7 = 0 := by
  have h0 := checks_of_decodes hd
  rw [← hj, hc, beq_iff_eq] at h0
  rw [h.f7v, h0, Nat.cast_zero]

theorem f7sub_eq_zero (h : KeyValues σ k J) (hd : decodes k J = true) {j : ℕ}
    (hc : checks k j = (k.f7 == 32)) (hj : j = J) : σ .f7sub32 = 0 := by
  have h0 := checks_of_decodes hd
  rw [← hj, hc, beq_iff_eq] at h0
  rw [h.f7sub, h0]
  norm_num

theorem parseJFlags_holds (h : KeyValues σ k J) : Holds (Op.Honest redo) σ parseJFlags := by
  simp only [parseJFlags, holds_cons, holds_nil, and_true, Op.Honest, true_and, mul, lc_cons,
    lc_nil, Term.eval_put, Term.eval_const, one_mul, add_zero, h.f30a, h.f30b, h.f35a, h.f35b, h.f3,
    h.b30, neg_one_mul, ← sub_eq_add_neg, one_sub_flag, flag_mul]
  have hv : ∀ n, view [Var.is .f3 n, .bit .inst 30] σ (.is .f3 n) = flag (k.f3 == n) ∧
      view [Var.is .f3 n, .bit .inst 30] σ (.bit .inst 30) = flag k.b30 := fun n => by
    rw [view_mem (by simp), view_mem (by simp), h.f3, h.b30]
    exact ⟨rfl, rfl⟩
  simp only [hv, one_sub_flag, flag_mul, or_true, true_and]
  exact ⟨by rw [Bool.and_comm], by rw [Bool.and_comm]⟩

theorem parseJJumps_holds (h : KeyValues σ k J) (hd : decodes k J = true) :
    Holds (Op.Honest redo) σ parseJJumps := by
  have hbr : ∀ {j n : ℕ}, (1 ≤ j ∧ j ≤ RV32.maxJ) ∧ j ≠ 20 →
      selects k j = (k.opc == 99 && k.f3 == n) → Op.Honest redo σ (mulJ j 99 (.is .f3 n)) :=
    fun hj hs => mulJ_holds h hd hj hs (h.f3 _)
  have hjalr : Op.Honest redo σ (nand .f3 (.is .opcode 103)) := by
    have hsel := selects_of_decodes hd (j := 4) (by decide) (by decide) (by decide)
    have hchk := checks_of_decodes hd
    simp only [nand, Op.Honest, lc_cons, lc_nil, Term.eval_put, one_mul, add_zero, h.opc, h.f3v]
    by_cases h4 : 4 = J
    · subst h4
      rw [checks, beq_iff_eq] at hchk
      rw [hchk, Nat.cast_zero, zero_mul]
    · rw [beq_false_of_ne h4, selects] at hsel
      rw [hsel, flag_false, mul_zero]
  simp only [parseJJumps, holds_append, holds_cons, holds_nil, and_true]
  exact ⟨⟨⟨⟨setEqJ_holds h hd (by decide) rfl, setEqJ_holds h hd (by decide) rfl⟩,
    setEqJ_holds h hd (by decide) rfl⟩, setEqJ_holds h hd (by decide) rfl⟩, hjalr,
    hbr (by decide) rfl, hbr (by decide) rfl, hbr (by decide) rfl, hbr (by decide) rfl,
    hbr (by decide) rfl, hbr (by decide) rfl⟩

theorem parseJMemory_holds (h : KeyValues σ k J) (hd : decodes k J = true) :
    Holds (Op.Honest redo) σ parseJMemory := by
  have hm : ∀ {j n opc : ℕ}, (1 ≤ j ∧ j ≤ RV32.maxJ) ∧ j ≠ 20 →
      selects k j = (k.opc == opc && k.f3 == n) → Op.Honest redo σ (mulJ j opc (.is .f3 n)) :=
    fun hj hs => mulJ_holds h hd hj hs (h.f3 _)
  simp only [parseJMemory, holds_cons, holds_nil, and_true]
  exact ⟨hm (by decide) rfl, hm (by decide) rfl, hm (by decide) rfl, hm (by decide) rfl,
    hm (by decide) rfl, hm (by decide) rfl, hm (by decide) rfl, hm (by decide) rfl⟩

theorem parseJAlui_holds (h : KeyValues σ k J) (hd : decodes k J = true)
    (hr : J ≠ 20 ∨ ∀ n, redo n = true) : Holds (Op.Honest redo) σ parseJAlui := by
  have hm : ∀ {j n opc : ℕ}, (1 ≤ j ∧ j ≤ RV32.maxJ) ∧ j ≠ 20 →
      selects k j = (k.opc == opc && k.f3 == n) → Op.Honest redo σ (mulJ j opc (.is .f3 n)) :=
    fun hj hs => mulJ_holds h hd hj hs (h.f3 _)
  have hz : ∀ {j : ℕ}, checks k j = (k.f7 == 0) → Op.Honest redo σ (nandJ j .f7) :=
    fun hc => nandJ_holds h (f7_eq_zero h hd hc)
  have hsubi : Holds (Op.Honest redo) σ (setVar (.is .J 20) 0) := by
    refine setFieldVar_honest.mpr ?_
    rcases hr with hr | hr
    · refine Or.inr ?_
      rw [h.J, beq_false_of_ne (Ne.symm hr)]
      simp
    · exact Or.inl (hr _)
  simp only [parseJAlui, holds_append, holds_cons, holds_nil, and_true]
  exact ⟨⟨hm (by decide) rfl, hsubi⟩, hm (by decide) rfl, hz rfl, hm (by decide) rfl,
    hm (by decide) rfl, hm (by decide) rfl, mulJ_holds h hd (by decide) rfl h.f35a, hz rfl,
    mulJ_holds h hd (by decide) rfl h.f35b, nandJ_holds h (f7sub_eq_zero h hd rfl),
    hm (by decide) rfl, hm (by decide) rfl⟩

theorem parseJAlu_holds (h : KeyValues σ k J) (hd : decodes k J = true) :
    Holds (Op.Honest redo) σ parseJAlu := by
  have hm : ∀ {j n opc : ℕ}, (1 ≤ j ∧ j ≤ RV32.maxJ) ∧ j ≠ 20 →
      selects k j = (k.opc == opc && k.f3 == n) → Op.Honest redo σ (mulJ j opc (.is .f3 n)) :=
    fun hj hs => mulJ_holds h hd hj hs (h.f3 _)
  have hz : ∀ {j : ℕ}, checks k j = (k.f7 == 0) → Op.Honest redo σ (nandJ j .f7) :=
    fun hc => nandJ_holds h (f7_eq_zero h hd hc)
  have hs : ∀ {j : ℕ}, checks k j = (k.f7 == 32) → Op.Honest redo σ (nandJ j .f7sub32) :=
    fun hc => nandJ_holds h (f7sub_eq_zero h hd hc)
  simp only [parseJAlu, holds_cons, holds_nil, and_true]
  exact ⟨mulJ_holds h hd (by decide) rfl h.f30a, hz rfl,
    mulJ_holds h hd (by decide) rfl h.f30b, hs rfl,
    hm (by decide) rfl, hz rfl, hm (by decide) rfl, hz rfl, hm (by decide) rfl, hz rfl,
    hm (by decide) rfl, hz rfl, mulJ_holds h hd (by decide) rfl h.f35a, hz rfl,
    mulJ_holds h hd (by decide) rfl h.f35b, hs rfl, hm (by decide) rfl, hz rfl,
    hm (by decide) rfl, hz rfl⟩

theorem parseJMisc_holds (h : KeyValues σ k J) (hd : decodes k J = true) :
    Holds (Op.Honest redo) σ parseJMisc := by
  have hone : Op.Honest redo σ
      (.constraint ((List.range' 1 RV32.maxJ).map fun j => .put (.is .J j) 1) [.const 1]
        [.const 1]) := by
    have hJ := range_of_decodes hd
    have hsum : lc σ ((List.range' 1 RV32.maxJ).map fun j => .put (.is .J j) 1) = 1 := by
      have hterms := lc_sum (σ := σ) ((List.range' 1 RV32.maxJ).map (Var.is .J))
      rw [List.map_map, List.map_map] at hterms
      refine hterms.trans ?_
      rw [sum_map_single (k := J) List.nodup_range' (List.mem_range'_1.mpr ⟨hJ.1, by omega⟩)]
      · simp [h.J]
      · intro j _ hj
        rw [Function.comp_apply, h.J, beq_false_of_ne hj, flag_false]
    simp only [Op.Honest, hsum, lc_cons, lc_nil, Term.eval_const]
    ring
  simp only [parseJMisc, holds_append, holds_cons, holds_nil, and_true, setLocalVar_honest]
  refine ⟨⟨setEqJ_holds h hd (by decide) rfl, Or.inr ?_⟩, ?_,
    mulJ_holds h hd (by decide) rfl h.ecall, mulJ_holds h hd (by decide) rfl h.b20,
    mulJ_holds h hd (by decide) rfl h.b12, hone⟩
  · rw [view_mem (by simp), view_mem (by simp), h.b12, h.b20, one_sub_flag, one_sub_flag, flag_mul,
      h.ecall]
  · simp only [Op.Honest, lc_cons, lc_nil, Term.eval_put, Term.eval_const, h.b12, h.b20, h.ecall,
      neg_one_mul, add_zero, one_mul, ← sub_eq_add_neg, one_sub_flag, flag_mul]

end Rows

theorem parseJ_passes (h : Loose w f) (hr : w.J ≠ 20 ∨ ∀ n, redo n = true) :
    Passes (Op.Honest redo) (val w f) (parseJ w.J) := by
  refine passes_sealed ?_ (flagLocals w) ?_
  · simp [parseJBody, parseJFlags, parseJJumps, parseJMemory, parseJAlui, parseJAlu, parseJMisc,
      setFieldVar, setVar, setLocalVar, setBit, setBitFrom, setEqJ, mulJ, nandJ, setEq, mul, nand]
  have hk := keyValues (w := w) (f := f)
  have hd := h.decodes
  simp only [parseJBody, holds_append, setFieldVar_honest, holds_flatMap]
  exact ⟨⟨⟨⟨⟨⟨⟨Or.inr rfl, fun j _ => setBit_holds (hk.J j) (Or.inl rfl)⟩,
    parseJFlags_holds hk⟩, parseJJumps_holds hk hd⟩, parseJMemory_holds hk hd⟩,
    parseJAlui_holds hk hd hr⟩, parseJAlu_holds hk hd⟩, parseJMisc_holds hk hd⟩

theorem subXY_passes (h : Loose w f) (hr : Genuine w f ∨ ∀ n, redo n = true) :
    Passes (Op.Honest redo) (val w f) (subCir (.minus .X .Y) .X .Y w.X w.Y) := by
  have hv : SubValues (val w f : Var → ZMod p) (.minus .X .Y) .X .Y w.X w.Y f.ltXY f.eqXY :=
    ⟨rfl, rfl, by rw [BitVec.msb_eq_getLsbD_last]; rfl, by rw [BitVec.msb_eq_getLsbD_last]; rfl,
      rfl, h.eqXY, rfl, rfl, rfl, rfl, rfl, rfl⟩
  exact subCir_passes rfl rfl rfl hv (hr.imp (fun hg => ⟨hg.ltXY, hg.eqXY⟩) id)

theorem subXI_passes (h : Loose w f) (hr : Genuine w f ∨ ∀ n, redo n = true) :
    Passes (Op.Honest redo) (val w f) (subCir (.minus .X .I) .X .I w.X w.I) := by
  have hv : SubValues (val w f : Var → ZMod p) (.minus .X .I) .X .I w.X w.I f.ltXI f.eqXI :=
    ⟨rfl, rfl, by rw [BitVec.msb_eq_getLsbD_last]; rfl, by rw [BitVec.msb_eq_getLsbD_last]; rfl,
      rfl, h.eqXI, rfl, rfl, rfl, rfl, rfl, rfl⟩
  exact subCir_passes rfl rfl rfl hv (hr.imp (fun hg => ⟨hg.ltXI, hg.eqXI⟩) id)

theorem sltCs_passes : Passes (Op.Honest redo) (val w f) sltCs :=
  .append (.append (.append (setEq_passes rfl rfl rfl) (setEq_passes rfl rfl rfl))
    (setEq_passes rfl rfl rfl)) (setEq_passes rfl rfl rfl)

/-- The shifts pass with the selected outputs. -/
theorem shift_passes_of (hp : 2 ^ 32 < p) {ρ : Var → ZMod p}
    (hs : Selects ρ .shamt 32 w.shamt.toNat) (hX : IsWord ρ .X w.X)
    (hZ : ∀ j ∈ [21, 25, 26, 31, 35, 36], ρ (.ZJ j) = zVal w f j) :
    Passes (Op.Honest redo) ρ (shift wo w) := by
  have hc : Constants (ZMod p) (List.range 32) := constants_range hp (by omega) (by omega)
  unfold shift
  refine .append (.append (.append (.append (.append (.append ?_ ?_) ?_) ?_) ?_) ?_) ?_
  · exact selector_passes hc (by decide) rfl hs hs.1 (Or.inl rfl)
  · exact shiftLeft_passes rfl hs hX (hZ 21 (by decide))
  · exact shiftRight_passes rfl hs hX (hZ 25 (by decide))
  · exact shiftRight_passes rfl hs hX (hZ 26 (by decide))
  · exact shiftLeft_passes rfl hs hX (hZ 31 (by decide))
  · exact shiftRight_passes rfl hs hX (hZ 35 (by decide))
  · exact shiftRight_passes rfl hs hX (hZ 36 (by decide))

theorem shift_passes (hp : 2 ^ 32 < p) (h : Loose w f) :
    Passes (Op.Honest redo) (val w f) (shift wo w) :=
  shift_passes_of hp (selects_val rfl h.lt.2.2.2 rfl) (isWord_val rfl) fun _ _ => rfl

theorem bitop_passes {output y : Var} {z : U32} {adj : ZMod p} (hl : isLocal output = false)
    (hz : IsWord (val w f) output z)
    (hrow : ∀ i < 32, val w f (.bit .X i) + val w f (.bit y i) +
      adj * val w f (.bit (.conj .X y) i) =
      flag (z.getLsbD i)) :
    Passes (Op.Honest redo) (val w f) (bitop output y z adj) := by
  refine passes_of_holds ?_ fun l => bitop_holds (hz.glue hl) hrow
  simp [bitop, toBits, setVar, setFieldVar, setBit, setBitFrom]

theorem conj_passes : Passes (Op.Honest redo) (val w f)
    ((List.range 32).flatMap fun i =>
      setBit (.bit (.conj .X .Y) i) ((w.X &&& w.Y).getLsbD i) ++
        [mul (.bit (.conj .X .Y) i) (.bit .X i) (.bit .Y i)] ++
        setBit (.bit (.conj .X .I) i) ((w.X &&& w.I).getLsbD i) ++
        [mul (.bit (.conj .X .I) i) (.bit .X i) (.bit .I i)]) := by
  refine passes_of_holds ?_ fun l => ?_
  · simp [setBit, setBitFrom, mul]
  simp only [holds_flatMap, holds_append, holds_cons, holds_nil, and_true, mul, Op.Honest, lc_cons,
    lc_nil, Term.eval_put, one_mul, add_zero]
  intro i _
  refine ⟨⟨⟨setBit_holds rfl (Or.inl rfl), ?_⟩, setBit_holds rfl (Or.inl rfl)⟩, ?_⟩
  · exact (flag_mul _ _).trans (congrArg flag BitVec.getLsbD_and.symm)
  · exact (flag_mul _ _).trans (congrArg flag BitVec.getLsbD_and.symm)

theorem bitops_passes : Passes (Op.Honest redo) (val w f) (bitops w) := by
  have hor : ∀ a b : U32, ∀ i < 32, (flag (a.getLsbD i) : ZMod p) + flag (b.getLsbD i) +
      -1 * flag ((a &&& b).getLsbD i) = flag ((a ||| b).getLsbD i) := by
    intro a b i _
    rw [BitVec.getLsbD_and, BitVec.getLsbD_or, (flag_or_xor _ _).1]
  have hxor : ∀ a b : U32, ∀ i < 32, (flag (a.getLsbD i) : ZMod p) + flag (b.getLsbD i) +
      -2 * flag ((a &&& b).getLsbD i) = flag ((a ^^^ b).getLsbD i) := by
    intro a b i _
    rw [BitVec.getLsbD_and, BitVec.getLsbD_xor, (flag_or_xor _ _).2]
  unfold bitops
  refine .append (.append (.append (.append (.append (.append (.append (.append
    ?_ ?_) ?_) ?_) ?_) ?_) ?_) ?_) ?_
  · exact toBits_passes rfl (isWord_val rfl)
  · exact toBits_passes rfl (isWord_val rfl)
  · exact conj_passes
  · exact setEq_passes rfl rfl rfl
  · exact setEq_passes rfl rfl rfl
  · exact bitop_passes rfl (isWord_val rfl) (hor w.X w.I)
  · exact bitop_passes rfl (isWord_val rfl) (hor w.X w.Y)
  · exact bitop_passes rfl (isWord_val rfl) (hxor w.X w.I)
  · exact bitop_passes rfl (isWord_val rfl) (hxor w.X w.Y)

/-- Instructions that go to the next instruction. -/
theorem pcVal_next {j : ℕ} (h : 11 ≤ j) (h42 : j ≠ 42) : pcVal w f j = w.regs.pc + 4 := by
  have ht : taken w f j = false := by
    unfold taken
    split <;> first | rfl | omega
  simp [pcVal, ht, show j ≠ 3 by omega, show j ≠ 4 by omega, h42]

theorem alu_passes (hp : 2 ^ 32 < p) (h : Loose w f) (hr : Genuine w f ∨ ∀ n, redo n = true) :
    Passes (Op.Honest redo) (val w f) (alu wo w) := by
  unfold alu
  refine .append (.append (.append (.append (.append (.append (.append ?_ ?_) ?_) ?_) ?_) ?_) ?_) ?_
  · exact .append (addCir_passes rfl rfl rfl rfl rfl rfl) (setEq_passes rfl rfl rfl)
  · exact .append (addCir_passes rfl rfl rfl rfl rfl rfl) (setEq_passes rfl rfl rfl)
  · exact .append (subXY_passes h hr) (setEq_passes rfl rfl rfl)
  · exact .append (subXI_passes h hr) (setEq_passes rfl rfl rfl)
  · exact sltCs_passes
  · exact shift_passes hp h
  · exact bitops_passes
  · refine passes_flatMap fun j hj => setEq_passes rfl rfl ?_
    have hj' : 19 ≤ j ∧ j < 19 + 20 := List.mem_range'_1.mp hj
    exact congrArg (fun x : U32 => (x.toNat : ZMod p)) (pcVal_next (by omega) (by omega))

/-! ## Jumps and branches, loads and stores and selection of the result -/

theorem jumps_passes :
    Passes (Op.Honest redo) (val w f) (luiCs w) ∧ Passes (Op.Honest redo) (val w f) auipcCs ∧
      Passes (Op.Honest redo) (val w f) jalCs ∧ Passes (Op.Honest redo) (val w f) jalrCs :=
  ⟨.append (setVar_passes rfl rfl) (setEq_passes rfl rfl rfl),
    .append (setEq_passes rfl rfl rfl) (setEq_passes rfl rfl rfl),
    .append (setEq_passes rfl rfl rfl) (setEq_passes rfl rfl rfl),
    .append (setEq_passes rfl rfl rfl) (setEq_passes rfl rfl rfl)⟩

theorem val_branch {j : ℕ} (h : 5 ≤ j) (hj : j ≤ 10) :
    val w f (.PCJ j) = if taken w f j then val w f (.plus .pc .I) else val w f .pc4 := by
  have hpc : pcVal w f j = if taken w f j then w.regs.pc + w.I else w.regs.pc + 4 := by
    simp [pcVal, show j ≠ 3 by omega, show j ≠ 4 by omega, show j ≠ 42 by omega]
  have hval : val w f (.PCJ j) = ((pcVal w f j).toNat : ZMod p) := rfl
  rw [hval, hpc]
  split_ifs <;> rfl

theorem br_passes : Passes (Op.Honest redo) (val w f) br := by
  unfold br
  refine .append (.append (.append (.append (.append
    ?_ ?_) ?_) ?_) ?_) ?_
  · exact branch_passes rfl rfl rfl rfl (val_branch (j := 5) (by omega) (by omega)) rfl
  · exact branch_passes rfl rfl rfl (by rw [Bool.not_not]; rfl)
      (val_branch (j := 6) (by omega) (by omega)) rfl
  · exact branch_passes rfl rfl rfl rfl (val_branch (j := 7) (by omega) (by omega)) rfl
  · exact branch_passes rfl rfl rfl (by rw [Bool.not_not]; rfl)
      (val_branch (j := 8) (by omega) (by omega)) rfl
  · exact branch_passes rfl rfl rfl rfl (val_branch (j := 9) (by omega) (by omega)) rfl
  · exact branch_passes rfl rfl rfl (by rw [Bool.not_not]; rfl)
      (val_branch (j := 10) (by omega) (by omega)) rfl

omit [Fact p.Prime] in
theorem chosen_lt (proof : P) (width : ℕ) : chosen w f proof width < 2 ^ width :=
  Nat.mod_lt _ (Nat.two_pow_pos width)

theorem opened_read (h : Loose w f) :
    Opened (val w f) (.plus .X .I) .readMem ((w.X + w.I).getLsbD 4) f.unit where
  dir := rfl
  value := rfl
  small := h.readHalf
  bits _ _ := rfl
  units _ _ := rfl
  sel width hw := selects_val rfl (h.units width hw) rfl
  out _ _ := rfl

theorem opened_write (h : Loose w f) :
    Opened (val w f) (.plus .X .I) .writeMem ((w.X + w.I).getLsbD 4) f.unit where
  dir := rfl
  value := rfl
  small := h.writeHalf
  bits _ _ := rfl
  units _ _ := rfl
  sel width hw := selects_val rfl (h.units width hw) rfl
  out _ _ := rfl

theorem sx_passes (hp : 2 ^ 32 < p) {n width : ℕ} {output : Var} (hl : isLocal output = false)
    (hw : width = n + 1) (hn : n < 32)
    (hout : val w f output = (signExtend n (chosen w f w.readProof width) : ℕ)) :
    Passes (Op.Honest redo) (val w f) (sx wo n output (.cat .readMem width)) := by
  subst hw
  have hlt := chosen_lt (w := w) (f := f) w.readProof (n + 1)
  have hpow : 2 ^ (n + 1) ≤ 2 ^ 32 := Nat.pow_le_pow_right (by omega) (by omega)
  refine passes_of_holds ?_ fun l => sx_holds hn hlt (by omega) rfl rfl rfl ?_
  · cases wo <;> simp [sx, setBitFrom]
  · rw [glue_global hl, hout]

theorem load_passes (hp : 2 ^ 32 < p) (h : Loose w f) (hr : Genuine w f ∨ ∀ n, redo n = true) :
    Passes (Op.Honest redo) (val w f) (load wo w) := by
  unfold load
  refine .append (.append (.append (.append (.append (.append (.append (.append (.append (.append
    (.append ?_ ?_) ?_) ?_) ?_) ?_) ?_) ?_) ?_) ?_) ?_) ?_
  · exact toBits_passes rfl (isWord_val rfl)
  · exact loadSelect_passes (by omega) rfl (opened_read h) (hr.imp Genuine.unit id)
  · exact setEq_passes rfl rfl rfl
  · exact setEq_passes rfl rfl rfl
  · exact setEq_passes rfl rfl rfl
  · exact setEq_passes rfl rfl rfl
  · exact setEq_passes rfl rfl rfl
  · exact setEq_passes rfl rfl rfl
  · exact sx_passes hp rfl rfl (by omega) rfl
  · exact setEq_passes rfl rfl rfl
  · exact sx_passes hp rfl rfl (by omega) rfl
  · exact setEq_passes rfl rfl rfl

theorem storeUnit_passes {J width : ℕ} {a b : List (Term Var (ZMod p))}
    (hZ : val w f (.ZJ J) = 0) (hPC : val w f (.PCJ J) = val w f .pc4)
    (htie : ∀ l, lc (glue (val w f) l) a * lc (glue (val w f) l) b =
      if J = w.J then (chosen w f w.writeProof width : ZMod p) else 0) :
    Passes (Op.Honest redo) (val w f) (storeUnit wo J width a b) := by
  refine passes_of_holds ?_ fun l => storeUnit_holds hZ hPC ?_ (htie l)
  · cases wo <;> simp [storeUnit, setVar, setFieldVar, setEq, mul]
  · show (if J = w.J then (chosen w f w.writeProof width : ZMod p) else 0) =
      (if J = w.J then (1 : ZMod p) else 0) * (chosen w f w.writeProof width : ZMod p)
    split_ifs <;> simp

/-- The rows that relate `Y` and the stored unit. -/
theorem storeUnits_passes (redo : Var → Bool) (wo : Bool) (h : Loose w f) :
    Passes (Op.Honest redo) (val w f) (storeWord wo) ∧
      Passes (Op.Honest redo) (val w f) (storeHalf wo) ∧
        Passes (Op.Honest redo) (val w f) (storeByte wo) := by
  have his : ∀ (l : Var → ZMod p) j, glue (val w f) l (.is .J j) = if j = w.J then 1 else 0 :=
    fun _ _ => rfl
  have hY : ∀ l : Var → ZMod p, glue (val w f) l .Y = (w.Y.toNat : ZMod p) := fun _ => rfl
  refine ⟨?_, ?_, ?_⟩
  · refine storeUnit_passes rfl rfl fun l => ?_
    simp only [lc_cons, lc_nil, Term.eval_put, his, hY, one_mul, add_zero]
    split_ifs with hj
    · rw [one_mul, h.sw hj.symm]
    · rw [zero_mul]
  · refine storeUnit_passes rfl rfl fun l => ?_
    simp only [lc_cons, lc_nil, lc_powRow, Term.eval_put, his, one_mul, add_zero]
    rw [sum_bits rfl l (by omega), pow_zero, Nat.div_one]
    split_ifs with hj
    · rw [mul_one, ← h.sh hj.symm]
      rfl
    · rw [mul_zero]
  · refine storeUnit_passes rfl rfl fun l => ?_
    simp only [lc_cons, lc_nil, lc_powRow, Term.eval_put, his, one_mul, add_zero]
    rw [sum_bits rfl l (by omega), pow_zero, Nat.div_one]
    split_ifs with hj
    · rw [mul_one, ← h.sb hj.symm]
      rfl
    · rw [mul_zero]

theorem store_passes (hp : 2 ^ 32 < p) (h : Loose w f) (hr : Genuine w f ∨ ∀ n, redo n = true) :
    Passes (Op.Honest redo) (val w f) (store wo w) := by
  obtain ⟨hword, hhalf, hbyte⟩ := storeUnits_passes redo wo h
  unfold store
  refine .append (.append (.append ?_ hword) hhalf) hbyte
  exact loadSelect_passes (by omega) rfl (opened_write h) (hr.imp Genuine.unit id)

theorem nop_passes {j : ℕ} (hZ : zVal w f j = (0 : ZMod p)) (hPC : pcVal w f j = w.regs.pc + 4) :
    Passes (Op.Honest redo) (val w f) (nop j) := by
  refine .append (setVar_passes rfl ?_) (setEq_passes rfl rfl ?_)
  · exact hZ.trans Nat.cast_zero.symm
  · exact congrArg (fun x : U32 => (x.toNat : ZMod p)) hPC

theorem ecall_passes : Passes (Op.Honest redo) (val w f) (ecall w) :=
  .append (setVar_passes rfl rfl) (setEq_passes rfl rfl rfl)

theorem misc_passes : Passes (Op.Honest redo) (val w f) misc := by
  unfold misc
  refine .append (.append (.append
    ?_ ?_) ?_) ?_
  · exact nop_passes rfl rfl
  · exact nop_passes rfl rfl
  · exact setVar_passes rfl Nat.cast_zero.symm
  · exact setEq_passes rfl rfl rfl

theorem selectJ_passes (h : Loose w f) (hPC : rows → w.PC = pcVal w f w.J) :
    Passes (Op.Tracked rows redo) (val w f) (selectJ w) := by
  have hJ := range_of_decodes h.decodes
  have hmem : w.J ∈ List.range' 1 RV32.maxJ := List.mem_range'_1.mpr ⟨hJ.1, by omega⟩
  have hcast : ∀ (j : ℕ) (v : U32), ((if j = w.J then v else 0 : U32).toNat : ZMod p) =
      if j = w.J then (v.toNat : ZMod p) else 0 := by
    intro j v
    split_ifs
    · rfl
    · exact Nat.cast_zero
  have hpick : ∀ (g : Var → ZMod p) (v : ℕ → Var) (x : ZMod p),
      (∀ j, g (v j) = if j = w.J then x else 0) →
      (((List.range' 1 RV32.maxJ).map v).map g).sum = x := by
    intro g v x hg
    rw [List.map_map, sum_map_single (k := w.J) List.nodup_range' hmem]
    · simp [hg]
    · intro j _ hj
      simp [hg, hj]
  refine passes_of_holds ?_ fun l => holds_tracked ?_ fun hrows => ?_
  · simp [selectJ, setVar, setFieldVar, mul, sumRow]
  · simp only [selectJ, setVar, setFieldVar, mul, sumRow, holds_append, holds_flatMap, holds_cons,
      holds_nil, and_true, true_and, Op.Computes]
    exact fun j _ => ⟨Or.inr (hcast j w.Z), Or.inr (hcast j w.PC)⟩
  simp only [selectJ, setVar, setFieldVar, holds_append, holds_flatMap, holds_cons, holds_nil,
    and_true, true_and, Op.Sat]
  refine ⟨fun j _ => ⟨?_, ?_⟩, ?_, ?_⟩
  · simp only [mul, lc_cons, lc_nil, Term.eval_put, one_mul, add_zero]
    show (if j = w.J then (1 : ZMod p) else 0) * zVal w f j =
      if j = w.J then (w.Z.toNat : ZMod p) else 0
    split_ifs with hj
    · rw [hj, one_mul, h.Z]
    · rw [zero_mul]
  · simp only [mul, lc_cons, lc_nil, Term.eval_put, one_mul, add_zero]
    show (if j = w.J then (1 : ZMod p) else 0) * ((pcVal w f j).toNat : ZMod p) =
      if j = w.J then (w.PC.toNat : ZMod p) else 0
    split_ifs with hj
    · rw [hj, one_mul, hPC hrows]
    · rw [zero_mul]
  · exact sumRow_sat.mpr (hpick _ _ _ fun j => rfl).symm
  · exact sumRow_sat.mpr (hpick _ _ _ fun j => rfl).symm

theorem selectZ_passes (hp : 2 ^ 32 < p) (h : Loose w f) :
    Passes (Op.Honest redo) (val w f) (selectZ wo w.rd) := by
  refine .append (passes_of_holds rfl fun l => ?_) ?_
  · simp [Op.Honest]
  · refine storeReg_passes (constants_range hp (by omega) (by omega)) rfl rfl
      (selects_val rfl h.lt.1 rfl) (fun i h1 hi => ?_) h.lt.1 (Or.inl rfl)
    show (((if i = 0 then f.x0 else if i = w.rd.toNat then w.Z
      else w.regs.x (Fin.ofNat 32 i) : U32).toNat : ZMod p)) =
        if i = w.rd.toNat then (w.Z.toNat : ZMod p)
          else ((w.regs.x (Fin.ofNat 32 i)).toNat : ZMod p)
    rw [if_neg (by omega)]
    split_ifs <;> rfl

/-- The tail: its rows ask for `Fitting`, its values only for `Loose`. -/
theorem stepTail_passes (hp : 2 ^ 32 < p) (h : Loose w f)
    (hr : (Genuine w f ∧ w.J ≠ 20) ∨ ∀ n, redo n = true) (hfit : rows → Fitting w f) :
    Passes (Op.Tracked rows redo) (val w f) (stepTail w wo) := by
  have hg := hr.imp And.left id
  have hmono : ∀ g, Passes (Op.Honest redo) (val w f) g →
      Passes (Op.Tracked rows redo) (val w f) g :=
    fun g hpass => hpass.mono fun σ op ho => ho.tracked rows
  have hopc : Passes (Op.Honest redo) (val w f)
      (member wo .opcode (opcode w.inst).toNat opcodes) :=
    member_passes (constants_opcodes hp) rfl h.opcode rfl
      (fun s _ => rfl) h.opcode (Or.inl rfl)
  unfold stepTail
  refine .append (.append (.append (.append (.append (.append (.append (.append (.append (.append
    (.append (.append (.append (.append (.append (.append (.append (.append (.append
    ?_ ?_) ?_) ?_) ?_) ?_) ?_) ?_) ?_) ?_) ?_) ?_) ?_) ?_) ?_) ?_) ?_) ?_) ?_) ?_
  · exact hmono _ hopc
  · exact parseOpcBody_passes h.opcode fun hrows => (hfit hrows).toOperands
  · exact hmono _ (parseImm_passes hp h hg)
  · exact hmono _ (parseShamt_passes h)
  · exact hmono _ (parseJ_passes h (hr.imp And.right id))
  · exact hmono _ (setVar_passes rfl rfl)
  · exact hmono _ (addCir_passes rfl rfl rfl rfl rfl rfl)
  · exact hmono _ (addCir_passes rfl rfl rfl rfl rfl rfl)
  · exact hmono _ (alu_passes hp h hg)
  · exact hmono _ jumps_passes.1
  · exact hmono _ jumps_passes.2.1
  · exact hmono _ jumps_passes.2.2.1
  · exact hmono _ jumps_passes.2.2.2
  · exact hmono _ br_passes
  · exact hmono _ (load_passes hp h hg)
  · exact hmono _ (store_passes hp h hg)
  · exact hmono _ ecall_passes
  · exact hmono _ misc_passes
  · exact selectJ_passes h fun hrows => (hfit hrows).PC
  · exact hmono _ (selectZ_passes hp h)

end Single

end NexusVm.Circuit
