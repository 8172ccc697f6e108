import NexusVm.Circuit.Unsound

/-!
# Soundness of decoding

What the rows of `parse_opc`, `parse_imm` and `parse_J` enforce.  An accepted
assignment selects an instruction that the word decodes to in the sense of
`decodes`.  For most words this is the instruction of the parser; the others,
`Stray`, do not parse and are accepted all the same.
-/

namespace NexusVm.Circuit

open NexusVm.Builder

/-- **The keys that decode without being instructions**: undefined values of
`funct3` of the branches, loads and stores, which selector 20 takes, and system
words that only agree with an instruction in bits 12 and 20. -/
inductive Stray (k : Key) (upper : ℕ) : Prop where
  | br (hopc : k.opc = 99) (hf3 : k.f3 = 2 ∨ k.f3 = 3)
  | load (hopc : k.opc = 3) (hf3 : k.f3 = 3 ∨ k.f3 = 6 ∨ k.f3 = 7)
  | store (hopc : k.opc = 35) (hf3 : 3 ≤ k.f3)
  | system (hopc : k.opc = 115) (hupper : upper ∉ [0x00000, 0x00100, 0xc0001])
      (hbits : ¬ (k.b12 = true ∧ k.b20 = true))

variable {k : Key}

/-- A key has at most one index that is not 20. -/
theorem decodes_unique {i j : ℕ} (hi : decodes k i = true) (hj : decodes k j = true) (h20 : i ≠ 20) :
    i = j := by
  obtain ⟨h1, h42⟩ := range_of_decodes hi
  have hsel := selects_of_decodes hi h1 h42 h20
  rw [beq_self_eq_true, selects_of_decodes hj h1 h42 h20] at hsel
  exact beq_iff_eq.mp hsel

/-- A selector whose check fails is never selected. -/
theorem not_decodes_of_checks {j : ℕ} (hj : (1 ≤ j ∧ j ≤ RV32.maxJ) ∧ j ≠ 20)
    (hs : selects k j = true) (hc : checks k j = false) (J : ℕ) : decodes k J ≠ true := by
  intro hd
  have hsel := selects_of_decodes hd hj.1.1 hj.1.2 hj.2
  rw [hs] at hsel
  obtain rfl : j = J := beq_iff_eq.mp hsel.symm
  rw [checks_of_decodes hd] at hc
  cases hc

theorem indexOfKey_ne {upper j : ℕ} (h : indexOfKey k upper = some j) : j ≠ 20 := by
  rintro rfl
  unfold indexOfKey at h
  split at h
  · cases h
  · cases h
  · cases h
  · split_ifs at h
    cases h
  · split at h <;> cases h
  · split at h <;> cases h
  · split at h <;> cases h
  · split at h <;> cases h
  · split at h <;> cases h
  · cases h
  · split at h <;> cases h
  · cases h

variable {upper J : ℕ}

/-- The system words: bits 12 and 20 cannot both be set. -/
theorem stray_system (hopc : k.opc = 115) (hnone : indexOfKey k upper = none)
    (hd : decodes k J = true) : Stray k upper := by
  refine .system hopc (fun hupper => ?_) fun hbits => ?_
  · obtain ⟨opc, f3, f7, b12, b20, b30⟩ := k
    obtain rfl : opc = 115 := hopc
    rcases List.mem_cons.mp hupper with rfl | hupper
    · cases hnone
    · rcases List.mem_cons.mp hupper with rfl | hupper
      · cases hnone
      · obtain rfl := List.mem_singleton.mp hupper
        cases hnone
  · have h41 : selects k 41 = true := by simp [selects, hopc, hbits.2]
    have h42 : selects k 42 = true := by simp [selects, hopc, hbits.1]
    rw [selects_of_decodes hd (by decide) (by decide) (by decide), beq_iff_eq] at h41 h42
    omega

/-- The check of the selector that fits, when it is about `funct7`. -/
theorem f7_of_decodes {j n J : ℕ} (hd : decodes k J = true) (hj : (1 ≤ j ∧ j ≤ RV32.maxJ) ∧ j ≠ 20)
    (hs : selects k j = true) (hc : checks k j = (k.f7 == n)) : k.f7 = n := by
  by_contra hf7
  refine not_decodes_of_checks hj hs ?_ J hd
  rw [hc, beq_false_of_ne hf7]

/-- Immediate operations that decode parse: the shifts check `funct7`. -/
theorem parses_alui (hopc : k.opc = 19) (hf3 : k.f3 < 8) (hd : decodes k J = true) :
    indexOfKey k upper ≠ none := by
  have hf7 := @f7_of_decodes k
  obtain ⟨opc, f3, f7, b12, b20, b30⟩ := k
  obtain rfl : opc = 19 := hopc
  intro hnone
  dsimp only at hf3
  interval_cases f3
  · cases hnone
  · obtain rfl : f7 = 0 := hf7 (j := 21) hd (by decide) rfl rfl
    cases hnone
  · cases hnone
  · cases hnone
  · cases hnone
  · cases b30 with
    | false =>
        obtain rfl : f7 = 0 := hf7 (j := 25) hd (by decide) rfl rfl
        cases hnone
    | true =>
        obtain rfl : f7 = 32 := hf7 (j := 26) hd (by decide) rfl rfl
        cases hnone
  · cases hnone
  · cases hnone

/-- Register operations that decode parse: all of them check `funct7`. -/
theorem parses_alu (hopc : k.opc = 51) (hf3 : k.f3 < 8) (hd : decodes k J = true) :
    indexOfKey k upper ≠ none := by
  have hf7 := @f7_of_decodes k
  obtain ⟨opc, f3, f7, b12, b20, b30⟩ := k
  obtain rfl : opc = 51 := hopc
  intro hnone
  dsimp only at hf3
  interval_cases f3
  · cases b30 with
    | false =>
        obtain rfl : f7 = 0 := hf7 (j := 29) hd (by decide) rfl rfl
        cases hnone
    | true =>
        obtain rfl : f7 = 32 := hf7 (j := 30) hd (by decide) rfl rfl
        cases hnone
  · obtain rfl : f7 = 0 := hf7 (j := 31) hd (by decide) rfl rfl
    cases hnone
  · obtain rfl : f7 = 0 := hf7 (j := 32) hd (by decide) rfl rfl
    cases hnone
  · obtain rfl : f7 = 0 := hf7 (j := 33) hd (by decide) rfl rfl
    cases hnone
  · obtain rfl : f7 = 0 := hf7 (j := 34) hd (by decide) rfl rfl
    cases hnone
  · cases b30 with
    | false =>
        obtain rfl : f7 = 0 := hf7 (j := 35) hd (by decide) rfl rfl
        cases hnone
    | true =>
        obtain rfl : f7 = 32 := hf7 (j := 36) hd (by decide) rfl rfl
        cases hnone
  · obtain rfl : f7 = 0 := hf7 (j := 37) hd (by decide) rfl rfl
    cases hnone
  · obtain rfl : f7 = 0 := hf7 (j := 38) hd (by decide) rfl rfl
    cases hnone

/-- A key that decodes but does not parse is stray. -/
theorem stray_of_decodes (hf3 : k.f3 < 8) (hopc : k.opc ∈ opcodes) (hd : decodes k J = true)
    (hnone : indexOfKey k upper = none) : Stray k upper := by
  have hjalr := @not_decodes_of_checks k 4 (by decide)
  have halui := @parses_alui k upper J
  have halu := @parses_alu k upper J
  obtain ⟨opc, f3, f7, b12, b20, b30⟩ := k
  dsimp only at hf3 hopc
  rcases opcodes_cases hopc with rfl | rfl | rfl | rfl | rfl | rfl | rfl | rfl | rfl | rfl | rfl
  · cases hnone
  · cases hnone
  · cases hnone
  · have h0 : f3 = 0 := by
      by_contra hf
      exact hjalr rfl (beq_false_of_ne hf) J hd
    subst h0
    cases hnone
  · refine .br rfl ?_
    dsimp only
    interval_cases f3 <;> first | cases hnone; done | omega
  · refine .load rfl ?_
    dsimp only
    interval_cases f3 <;> first | cases hnone; done | omega
  · refine .store rfl ?_
    dsimp only
    interval_cases f3 <;> first | cases hnone; done | omega
  · exact absurd hnone (halui rfl hf3 hd)
  · exact absurd hnone (halu rfl hf3 hd)
  · cases hnone
  · exact stray_system rfl hnone hd

/-- **A key that decodes parses, unless it is stray.** -/
theorem indexOfKey_of_decodes (hk : k.Of upper) (hf3 : k.f3 < 8) (hopc : k.opc ∈ opcodes)
    (hd : decodes k J = true) (hstray : ¬ Stray k upper) :
    indexOfKey k upper = some J := by
  cases hi : indexOfKey k upper with
  | none => exact absurd (stray_of_decodes hf3 hopc hd hi) hstray
  | some i =>
      exact congrArg some (decodes_unique (decodes_of_indexOfKey hk hi) hd (indexOfKey_ne hi))

theorem Stray.opcode {upper : ℕ} (h : Stray k upper) : k.opc ∈ opcodes := by
  cases h with
  | br hopc =>
      rw [hopc]
      decide
  | load hopc =>
      rw [hopc]
      decide
  | store hopc =>
      rw [hopc]
      decide
  | system hopc =>
      rw [hopc]
      decide

/-- **Stray keys decode**, and do not parse. -/
theorem Stray.decodes {upper : ℕ} (h : Stray k upper) (hf3 : k.f3 < 8) :
    indexOfKey k upper = none ∧ ∃ J, decodes k J = true := by
  obtain ⟨opc, f3, f7, b12, b20, b30⟩ := k
  cases h with
  | br hopc hbr =>
      obtain rfl : opc = 99 := hopc
      rcases hbr with hbr | hbr
      · obtain rfl : f3 = 2 := hbr
        exact ⟨rfl, 20, rfl⟩
      · obtain rfl : f3 = 3 := hbr
        exact ⟨rfl, 20, rfl⟩
  | load hopc hload =>
      obtain rfl : opc = 3 := hopc
      rcases hload with hload | hload | hload
      · obtain rfl : f3 = 3 := hload
        exact ⟨rfl, 20, rfl⟩
      · obtain rfl : f3 = 6 := hload
        exact ⟨rfl, 20, rfl⟩
      · obtain rfl : f3 = 7 := hload
        exact ⟨rfl, 20, rfl⟩
  | store hopc hstore =>
      obtain rfl : opc = 35 := hopc
      dsimp only at hf3 hstore
      interval_cases f3
      all_goals exact ⟨rfl, 20, rfl⟩
  | system hopc hupper hbits =>
      obtain rfl : opc = 115 := hopc
      have hnone : indexOfKey ⟨115, f3, f7, b12, b20, b30⟩ upper = none := by
        simp only [List.mem_cons, List.not_mem_nil, or_false, not_or] at hupper
        simp [indexOfKey, hupper]
      refine ⟨hnone, ?_⟩
      cases b12 with
      | false =>
          cases b20 with
          | false => exact ⟨40, rfl⟩
          | true => exact ⟨41, rfl⟩
      | true =>
          cases b20 with
          | false => exact ⟨42, rfl⟩
          | true => exact absurd ⟨rfl, rfl⟩ hbits

/-! ## What the rows say -/

section Rows

variable {p : ℕ} [Fact p.Prime] {σ : Var → ZMod p} {k : Key} {j opc : ℕ} {v : Var} {b : Bool}

/-- The values that `parse_J` reads, in terms of a key. -/
structure ReadsKey (σ : Var → ZMod p) (k : Key) : Prop where
  f7lt : k.f7 < 128
  opc : ∀ n ∈ opcodes, σ (.is .opcode n) = flag (k.opc == n)
  f3 : ∀ n < 8, σ (.is .f3 n) = flag (k.f3 == n)
  f3v : σ .f3 = (k.f3 : ZMod p)
  f7v : σ .f7 = (k.f7 : ZMod p)
  f7sub : σ .f7sub32 = (k.f7 : ZMod p) - 32
  b12 : σ (.bit .inst 12) = flag k.b12
  b20 : σ (.bit .inst 20) = flag k.b20
  b30 : σ (.bit .inst 30) = flag k.b30

/-- **Selector `j` is tied down**: it has the value of its product, and its check
holds when it is set. -/
structure Tied (σ : Var → ZMod p) (k : Key) (j : ℕ) : Prop where
  value : σ (.is .J j) = flag (selects k j)
  check : selects k j = true → checks k j = true

theorem mulJ_sound (h : ReadsKey σ k) (hrow : Op.Sat σ (mulJ j opc v)) (hopc : opc ∈ opcodes)
    (hv : σ v = flag b) (hs : selects k j = (k.opc == opc && b)) :
    σ (.is .J j) = flag (selects k j) := by
  simp only [mulJ, mul, Op.Sat, lc_cons, lc_nil, Term.eval_put, one_mul, add_zero, h.opc _ hopc,
    hv, flag_mul] at hrow
  rw [hs, hrow]

theorem setEqJ_sound (h : ReadsKey σ k) (hrow : Holds Op.Sat σ (setEqJ j opc))
    (hopc : opc ∈ opcodes) (hs : selects k j = (k.opc == opc)) :
    σ (.is .J j) = flag (selects k j) := by
  rw [hs, ← h.opc _ hopc]
  exact setEq_sat.mp hrow

/-- The row of a check: the field is zero when the selector is set. -/
theorem nandJ_sound (hrow : Op.Sat σ (nandJ j v)) (hJ : σ (.is .J j) = flag (selects k j))
    (hs : selects k j = true) : σ v = 0 := by
  simp only [nandJ, nand, Op.Sat, lc_cons, lc_nil, Term.eval_put, one_mul, add_zero, hJ, hs,
    flag_true] at hrow
  exact hrow

theorem cast_eq_iff (hp : 2 ^ 32 < p) {m n : ℕ} (hm : m < 2 ^ 32) (hn : n < 2 ^ 32) :
    (m : ZMod p) = (n : ZMod p) ↔ m = n := by
  refine ⟨fun h => ?_, fun h => by rw [h]⟩
  exact CharP.natCast_injOn_Iio (ZMod p) p (Set.mem_Iio.mpr (by omega))
    (Set.mem_Iio.mpr (by omega)) h

/-- A selector with a check of `funct7` against zero. -/
theorem tied_f7 (hp : 2 ^ 32 < p) (h : ReadsKey σ k) (hrow : Op.Sat σ (nandJ j .f7))
    (hJ : σ (.is .J j) = flag (selects k j)) (hc : checks k j = (k.f7 == 0)) : Tied σ k j where
  value := hJ
  check := fun hs => by
    have h0 : ((k.f7 : ℕ) : ZMod p) = ((0 : ℕ) : ZMod p) := by
      rw [← h.f7v, nandJ_sound hrow hJ hs, Nat.cast_zero]
    have hf7 := h.f7lt
    rw [hc, (cast_eq_iff hp (by omega) (by omega)).mp h0]
    rfl

/-- A selector with a check of `funct7` against 32. -/
theorem tied_f7sub32 (hp : 2 ^ 32 < p) (h : ReadsKey σ k) (hrow : Op.Sat σ (nandJ j .f7sub32))
    (hJ : σ (.is .J j) = flag (selects k j)) (hc : checks k j = (k.f7 == 32)) : Tied σ k j where
  value := hJ
  check := fun hs => by
    have h0 := nandJ_sound hrow hJ hs
    rw [h.f7sub, sub_eq_zero] at h0
    have h32 : ((k.f7 : ℕ) : ZMod p) = ((32 : ℕ) : ZMod p) := by
      rw [h0]
      norm_num
    have hf7 := h.f7lt
    rw [hc, (cast_eq_iff hp (by omega) (by omega)).mp h32]
    rfl

/-- `jalr` checks `funct3`. -/
theorem tied_jalr (hp : 2 ^ 32 < p) (h : ReadsKey σ k) (hf3 : k.f3 < 8)
    (hrow : Op.Sat σ (nand .f3 (.is .opcode 103))) (hJ : σ (.is .J 4) = flag (selects k 4)) :
    Tied σ k 4 where
  value := hJ
  check := fun hs => by
    have hopc : (k.opc == 103) = true := hs
    simp only [nand, Op.Sat, lc_cons, lc_nil, Term.eval_put, one_mul, add_zero, h.f3v,
      h.opc 103 (by decide), hopc, flag_true, mul_one] at hrow
    have h0 : ((k.f3 : ℕ) : ZMod p) = ((0 : ℕ) : ZMod p) := by rw [hrow, Nat.cast_zero]
    rw [checks, (cast_eq_iff hp (by omega) (by omega)).mp h0]
    rfl

theorem parseJJumps_sound (hp : 2 ^ 32 < p) (h : ReadsKey σ k) (hf3 : k.f3 < 8)
    (hrows : Holds Op.Sat σ parseJJumps) : ∀ j ∈ List.range' 1 10, Tied σ k j := by
  simp only [parseJJumps, holds_append, holds_cons, holds_nil, and_true] at hrows
  obtain ⟨⟨⟨⟨h1, h2⟩, h3⟩, h4⟩, hjalr, h5, h6, h7, h8, h9, h10⟩ := hrows
  intro j hj
  fin_cases hj
  · exact ⟨setEqJ_sound h h1 (by decide) rfl, fun _ => rfl⟩
  · exact ⟨setEqJ_sound h h2 (by decide) rfl, fun _ => rfl⟩
  · exact ⟨setEqJ_sound h h3 (by decide) rfl, fun _ => rfl⟩
  · exact tied_jalr hp h hf3 hjalr (setEqJ_sound h h4 (by decide) rfl)
  · exact ⟨mulJ_sound h h5 (by decide) (h.f3 _ (by decide)) rfl, fun _ => rfl⟩
  · exact ⟨mulJ_sound h h6 (by decide) (h.f3 _ (by decide)) rfl, fun _ => rfl⟩
  · exact ⟨mulJ_sound h h7 (by decide) (h.f3 _ (by decide)) rfl, fun _ => rfl⟩
  · exact ⟨mulJ_sound h h8 (by decide) (h.f3 _ (by decide)) rfl, fun _ => rfl⟩
  · exact ⟨mulJ_sound h h9 (by decide) (h.f3 _ (by decide)) rfl, fun _ => rfl⟩
  · exact ⟨mulJ_sound h h10 (by decide) (h.f3 _ (by decide)) rfl, fun _ => rfl⟩

theorem parseJMemory_sound (h : ReadsKey σ k) (hrows : Holds Op.Sat σ parseJMemory) :
    ∀ j ∈ List.range' 11 8, Tied σ k j := by
  simp only [parseJMemory, holds_cons, holds_nil, and_true] at hrows
  obtain ⟨h11, h12, h13, h14, h15, h16, h17, h18⟩ := hrows
  intro j hj
  fin_cases hj
  · exact ⟨mulJ_sound h h11 (by decide) (h.f3 _ (by decide)) rfl, fun _ => rfl⟩
  · exact ⟨mulJ_sound h h12 (by decide) (h.f3 _ (by decide)) rfl, fun _ => rfl⟩
  · exact ⟨mulJ_sound h h13 (by decide) (h.f3 _ (by decide)) rfl, fun _ => rfl⟩
  · exact ⟨mulJ_sound h h14 (by decide) (h.f3 _ (by decide)) rfl, fun _ => rfl⟩
  · exact ⟨mulJ_sound h h15 (by decide) (h.f3 _ (by decide)) rfl, fun _ => rfl⟩
  · exact ⟨mulJ_sound h h16 (by decide) (h.f3 _ (by decide)) rfl, fun _ => rfl⟩
  · exact ⟨mulJ_sound h h17 (by decide) (h.f3 _ (by decide)) rfl, fun _ => rfl⟩
  · exact ⟨mulJ_sound h h18 (by decide) (h.f3 _ (by decide)) rfl, fun _ => rfl⟩

/-- The values of the local flags, from their rows. -/
structure ReadsFlags (σ : Var → ZMod p) (k : Key) : Prop where
  f30a : σ .f30a = flag (k.f3 == 0 && !k.b30)
  f30b : σ .f30b = flag (k.f3 == 0 && k.b30)
  f35a : σ .f35a = flag (k.f3 == 5 && !k.b30)
  f35b : σ .f35b = flag (k.f3 == 5 && k.b30)

theorem parseJFlags_sound (h : ReadsKey σ k) (hrows : Holds Op.Sat σ parseJFlags) :
    ReadsFlags σ k := by
  simp only [parseJFlags, holds_cons, holds_nil, and_true, Op.Sat, true_and, mul, lc_cons,
    lc_nil, Term.eval_put, Term.eval_const, one_mul, add_zero, h.f3 0 (by decide),
    h.f3 5 (by decide), h.b30, neg_one_mul, ← sub_eq_add_neg, one_sub_flag, flag_mul] at hrows
  obtain ⟨h0a, h0b, h5a, h5b⟩ := hrows
  exact ⟨by rw [← h0a, Bool.and_comm], h0b.symm, by rw [← h5a, Bool.and_comm], h5b.symm⟩

theorem parseJAlui_sound (hp : 2 ^ 32 < p) (h : ReadsKey σ k) (hf : ReadsFlags σ k)
    (hrows : Holds Op.Sat σ parseJAlui) : ∀ j ∈ 19 :: List.range' 21 8, Tied σ k j := by
  simp only [parseJAlui, holds_append, holds_cons, holds_nil, and_true] at hrows
  obtain ⟨⟨h19, -⟩, h21, n21, h22, h23, h24, h25, n25, h26, n26, h27, h28⟩ := hrows
  intro j hj
  fin_cases hj
  · exact ⟨mulJ_sound h h19 (by decide) (h.f3 _ (by decide)) rfl, fun _ => rfl⟩
  · exact tied_f7 hp h n21 (mulJ_sound h h21 (by decide) (h.f3 _ (by decide)) rfl) rfl
  · exact ⟨mulJ_sound h h22 (by decide) (h.f3 _ (by decide)) rfl, fun _ => rfl⟩
  · exact ⟨mulJ_sound h h23 (by decide) (h.f3 _ (by decide)) rfl, fun _ => rfl⟩
  · exact ⟨mulJ_sound h h24 (by decide) (h.f3 _ (by decide)) rfl, fun _ => rfl⟩
  · exact tied_f7 hp h n25 (mulJ_sound h h25 (by decide) hf.f35a rfl) rfl
  · exact tied_f7sub32 hp h n26 (mulJ_sound h h26 (by decide) hf.f35b rfl) rfl
  · exact ⟨mulJ_sound h h27 (by decide) (h.f3 _ (by decide)) rfl, fun _ => rfl⟩
  · exact ⟨mulJ_sound h h28 (by decide) (h.f3 _ (by decide)) rfl, fun _ => rfl⟩

theorem parseJAlu_sound (hp : 2 ^ 32 < p) (h : ReadsKey σ k) (hf : ReadsFlags σ k)
    (hrows : Holds Op.Sat σ parseJAlu) : ∀ j ∈ List.range' 29 10, Tied σ k j := by
  simp only [parseJAlu, holds_cons, holds_nil, and_true] at hrows
  obtain ⟨h29, n29, h30, n30, h31, n31, h32, n32, h33, n33, h34, n34, h35, n35, h36, n36, h37, n37,
    h38, n38⟩ := hrows
  intro j hj
  fin_cases hj
  · exact tied_f7 hp h n29 (mulJ_sound h h29 (by decide) hf.f30a rfl) rfl
  · exact tied_f7sub32 hp h n30 (mulJ_sound h h30 (by decide) hf.f30b rfl) rfl
  · exact tied_f7 hp h n31 (mulJ_sound h h31 (by decide) (h.f3 _ (by decide)) rfl) rfl
  · exact tied_f7 hp h n32 (mulJ_sound h h32 (by decide) (h.f3 _ (by decide)) rfl) rfl
  · exact tied_f7 hp h n33 (mulJ_sound h h33 (by decide) (h.f3 _ (by decide)) rfl) rfl
  · exact tied_f7 hp h n34 (mulJ_sound h h34 (by decide) (h.f3 _ (by decide)) rfl) rfl
  · exact tied_f7 hp h n35 (mulJ_sound h h35 (by decide) hf.f35a rfl) rfl
  · exact tied_f7sub32 hp h n36 (mulJ_sound h h36 (by decide) hf.f35b rfl) rfl
  · exact tied_f7 hp h n37 (mulJ_sound h h37 (by decide) (h.f3 _ (by decide)) rfl) rfl
  · exact tied_f7 hp h n38 (mulJ_sound h h38 (by decide) (h.f3 _ (by decide)) rfl) rfl

/-- The rows of the remaining selectors, and that the selectors add up to one. -/
theorem parseJMisc_sound (h : ReadsKey σ k) (hrows : Holds Op.Sat σ parseJMisc) :
    (∀ j ∈ List.range' 39 4, Tied σ k j) ∧
      ((List.range' 1 RV32.maxJ).map fun j => σ (.is .J j)).sum = 1 := by
  simp only [parseJMisc, holds_append, holds_cons, holds_nil, and_true] at hrows
  obtain ⟨⟨h39, -⟩, hecall, h40, h41, h42, hsum⟩ := hrows
  simp only [Op.Sat, lc_cons, lc_nil, Term.eval_put, Term.eval_const, one_mul, add_zero, h.b12,
    h.b20, neg_one_mul, ← sub_eq_add_neg, one_sub_flag, flag_mul] at hecall
  constructor
  · intro j hj
    fin_cases hj
    · exact ⟨setEqJ_sound h h39 (by decide) rfl, fun _ => rfl⟩
    · exact ⟨mulJ_sound h h40 (by decide) hecall.symm rfl, fun _ => rfl⟩
    · exact ⟨mulJ_sound h h41 (by decide) h.b20 rfl, fun _ => rfl⟩
    · exact ⟨mulJ_sound h h42 (by decide) h.b12 rfl, fun _ => rfl⟩
  · simp only [Op.Sat, lc_cons, lc_nil, Term.eval_const, mul_one, add_zero] at hsum
    have hlc : lc σ (((List.range' 1 RV32.maxJ).map (Var.is .J)).map fun n => .put n 1) = _ :=
      lc_sum _
    rw [List.map_map, List.map_map] at hlc
    exact hlc.symm.trans hsum

/-- Flags that add up to one: exactly one of them is set. -/
theorem exists_flag (hp : 2 ^ 32 < p) {xs : List ℕ} (hlen : xs.length < 2 ^ 32)
    {b : ℕ → Bool} (h : (xs.map fun j => (flag (b j) : ZMod p)).sum = 1) :
    ∃ J ∈ xs, ∀ j ∈ xs, b j = (j == J) := by
  have hcount : ∀ ys : List ℕ, (ys.map fun j => (flag (b j) : ZMod p)).sum =
      ((ys.countP b : ℕ) : ZMod p) := by
    intro ys
    induction ys with
    | nil => simp
    | cons j ys ih =>
        rw [List.map_cons, List.sum_cons, ih, List.countP_cons]
        cases b j <;> simp [add_comm]
  rw [hcount, ← Nat.cast_one] at h
  have hone : xs.countP b = 1 :=
    (cast_eq_iff hp (lt_of_le_of_lt List.countP_le_length hlen) (by omega)).mp h
  rw [List.countP_eq_length_filter, List.length_eq_one_iff] at hone
  obtain ⟨J, hJ⟩ := hone
  have hmem : ∀ j, j ∈ xs ∧ b j = true ↔ j = J := fun j => by
    rw [← List.mem_filter, hJ, List.mem_singleton]
  refine ⟨J, ((hmem J).mpr rfl).1, fun j hj => ?_⟩
  by_cases hjJ : j = J
  · rw [hjJ, beq_self_eq_true]
    exact ((hmem J).mpr rfl).2
  · rw [beq_false_of_ne hjJ]
    exact Bool.not_eq_true _ ▸ fun hb => hjJ ((hmem j).mp ⟨hj, hb⟩)

/-- **The rows of `parse_J` select one instruction that the key decodes to.** -/
theorem parseJBody_sound (hp : 2 ^ 32 < p) {J₀ : ℕ} (h : ReadsKey σ k) (hf3 : k.f3 < 8)
    (hrows : Holds Op.Sat σ (parseJBody J₀)) :
    ∃ J, decodes k J = true ∧ ∀ j ∈ List.range' 1 RV32.maxJ, σ (.is .J j) = flag (j == J) := by
  simp only [parseJBody, holds_append, holds_flatMap] at hrows
  obtain ⟨⟨⟨⟨⟨⟨⟨-, hbits⟩, hflags⟩, hjumps⟩, hmemory⟩, halui⟩, halu⟩, hmisc⟩ := hrows
  have hf := parseJFlags_sound h hflags
  obtain ⟨hmisc, hsum⟩ := parseJMisc_sound h hmisc
  have htied : ∀ j ∈ List.range' 1 RV32.maxJ, j ≠ 20 → Tied σ k j := by
    intro j hj h20
    rw [List.mem_range'_1] at hj
    simp only [RV32.maxJ] at hj
    rcases lt_or_ge j 11 with h11 | h11
    · exact parseJJumps_sound hp h hf3 hjumps j (List.mem_range'_1.mpr ⟨hj.1, h11⟩)
    · rcases lt_or_ge j 19 with h19 | h19
      · exact parseJMemory_sound h hmemory j (List.mem_range'_1.mpr ⟨h11, h19⟩)
      · rcases lt_or_ge j 29 with h29 | h29
        · refine parseJAlui_sound hp h hf halui j ?_
          rw [List.mem_cons, List.mem_range'_1]
          omega
        · rcases lt_or_ge j 39 with h39 | h39
          · exact parseJAlu_sound hp h hf halu j (List.mem_range'_1.mpr ⟨h29, h39⟩)
          · exact hmisc j (List.mem_range'_1.mpr ⟨h39, by omega⟩)
  -- selector 20 has no row of its own, but it is a bit
  have hJ20 : σ (.is .J 20) = 0 ∨ σ (.is .J 20) = 1 := setBit_sound (hbits 20 (by decide))
  obtain ⟨b20, hb20⟩ : ∃ b : Bool, σ (.is .J 20) = flag b := by
    rcases hJ20 with h0 | h1
    · exact ⟨false, h0⟩
    · exact ⟨true, h1⟩
  have hval : ∀ j ∈ List.range' 1 RV32.maxJ,
      σ (.is .J j) = flag (if j = 20 then b20 else selects k j) := by
    intro j hj
    by_cases h20 : j = 20
    · rw [if_pos h20, h20, hb20]
    · rw [if_neg h20, (htied j hj h20).value]
  rw [List.map_congr_left hval] at hsum
  obtain ⟨J, hJ, hone⟩ := exists_flag hp (by decide) hsum
  refine ⟨J, ?_, fun j hj => by rw [hval j hj, hone j hj]⟩
  have hsel : ∀ j ∈ List.range' 1 RV32.maxJ, j ≠ 20 → selects k j = (j == J) := fun j hj h20 => by
    rw [← hone j hj, if_neg h20]
  simp only [decodes, Bool.and_eq_true, List.all_eq_true, Bool.or_eq_true, beq_iff_eq,
    List.contains_eq_mem, decide_eq_true_eq]
  refine ⟨⟨fun j hj => ?_, hJ⟩, ?_⟩
  · rw [or_iff_not_imp_left]
    exact hsel j hj
  · by_cases h20 : J = 20
    · subst h20
      rfl
    · refine (htied J hJ h20).check ?_
      rw [hsel J hJ h20, beq_self_eq_true]

/-! ## The circuit -/

variable {P : Type} {w : Witness P}

/-- What the rows before `parse_J` say: the instruction is a word, and the fields
that `parse_J` reads are its fields. -/
theorem exists_readsKey (hp : 2 ^ 32 < p) {σ : Var → ZMod p}
    (hfit : Fits Op.Sat σ (stepBody w false)) :
    ∃ word : U32, σ .inst = (word.toNat : ZMod p) ∧ (keyOf word).opc ∈ opcodes ∧
      ReadsKey σ (keyOf word) := by
  have hopc : Fits Op.Sat σ (parseOpc false w.inst) := hfit.of_mem (by simp [stepGadgets])
  have himm : Fits Op.Sat σ (parseImm false w.inst) := hfit.of_mem (by simp [stepGadgets])
  unfold parseOpc at hopc
  unfold parseImm at himm
  -- the word
  obtain ⟨l₁, hbits⟩ := hopc.left.left.left.left.holds
    (by simp [toBits, setVar, setFieldVar, setBit, setBitFrom])
  obtain ⟨word, hword⟩ := toBits_sound hbits
  have hbit : ∀ {i : ℕ}, i < 32 → σ (.bit .inst i) = flag (word.getLsbD i) := fun hi => hword.bit hi
  have hsum : ∀ (l : Var → ZMod p) {start count : ℕ}, start + count ≤ 32 →
      bitSum ((bitNames .inst start count).map (glue σ l)) =
        ((word.toNat / 2 ^ start % 2 ^ count : ℕ) : ZMod p) := fun l {_ _} hc =>
    (show HasBits (glue σ l) .inst word.toNat 32 from hword.bits).sum_names hc
  -- its opcode
  obtain ⟨opc, hmem, hopcv, his⟩ := Fits.member (constants_opcodes hp) rfl hopc.left.left.right
  rw [List.append_assoc] at hopc
  obtain ⟨l₂, hbody⟩ := hopc.right.holds
    (by simp [parseOpcBody, parseOpcRows, setEq, add, sumRow])
  have hrow := hbody (.constraint (powRow 1 (bitNames .inst 0 7)) [.const 1] [.put .opcode 1])
    (by simp [parseOpcBody, parseOpcRows])
  have hopceq : (opcode word).toNat = opc := by
    simp only [Op.Sat, lc_powRow, lc_cons, lc_nil, Term.eval_const, Term.eval_put,
      hsum l₂ (show 0 + 7 ≤ 32 by omega), pow_zero, Nat.div_one, ← opcode_toNat, one_mul, mul_one,
      add_zero] at hrow
    have hlt := (field_lt word).1
    have hopc128 : ∀ n ∈ opcodes, n < 2 ^ 32 := by decide
    refine (cast_eq_iff hp (by omega) (hopc128 opc hmem)).mp (hrow.trans ?_)
    exact hopcv
  -- funct3 and funct7
  obtain ⟨f3, hf3lt, hf3v, hf3is⟩ :=
    Fits.selector (constants_range hp (by omega) (by omega)) rfl himm.left.left.right
  rw [List.append_assoc] at himm
  obtain ⟨l₃, hbody⟩ := himm.right.holds
    (by simp [parseImmBody, parseImmRows, setLocalVar, add, mul, sumRow, addi, immRow])
  have h3 := hbody (.constraint (powRow 1 (bitNames .inst 12 3)) [.const 1] [.put .f3 1])
    (by simp [parseImmBody, parseImmRows])
  have h7 := hbody (.constraint (powRow 1 (bitNames .inst 25 7)) [.const 1] [.put .f7 1])
    (by simp [parseImmBody, parseImmRows])
  have h7sub := hbody (addi .f7 .f7sub32 32) (by simp [parseImmBody, parseImmRows])
  simp only [Op.Sat, lc_powRow, lc_cons, lc_nil, Term.eval_const, Term.eval_put, one_mul, mul_one,
    add_zero, hsum l₃ (show 12 + 3 ≤ 32 by omega), ← funct3_toNat] at h3
  simp only [Op.Sat, lc_powRow, lc_cons, lc_nil, Term.eval_const, Term.eval_put, one_mul, mul_one,
    add_zero, hsum l₃ (show 25 + 7 ≤ 32 by omega), ← funct7_toNat] at h7
  simp only [addi, Op.Sat, lc_cons, lc_nil, Term.eval_const, Term.eval_put, one_mul, mul_one,
    add_zero] at h7sub
  have hf3eq : (funct3 word).toNat = f3 :=
    (cast_eq_iff hp (by have := (field_lt word).2.1; omega) (by omega)).mp (h3.trans hf3v)
  have hmem' : (opcode word).toNat ∈ opcodes := by rwa [hopceq]
  refine ⟨word, hword.value, hmem', (field_lt word).2.2.1, fun n hn => ?_, fun n hn => ?_,
    h3.symm, h7.symm, ?_, hbit (by omega), hbit (by omega), hbit (by omega)⟩
  · rw [his n hn, ite_eq_flag, ← hopceq]
    rfl
  · rw [hf3is n hn, ite_eq_flag, ← hf3eq]
    rfl
  · show σ .f7sub32 = ((funct7 word).toNat : ZMod p) - 32
    rw [h7]
    exact eq_sub_of_add_eq ((add_comm _ _).trans h7sub)

/-- **Decoding is sound for a word**: in every accepted assignment with this
instruction exactly its selector is set; there is none if it does not parse. -/
def DecodeSound (cs : R1CS Var (ZMod p)) (word : U32) : Prop :=
  ∀ z, z 0 = 1 → cs.Sat z → z (cs.var .inst) = (word.toNat : ZMod p) →
    ∃ i, parseU32 word = some i ∧
      ∀ j ∈ List.range' 1 RV32.maxJ, z (cs.var (.is .J j)) = flag (j == i.indexJ)

/-- A word that is accepted without being an instruction. -/
def StrayWord (word : U32) : Prop := Stray (keyOf word) (word >>> 12).toNat

variable [MemoryProof P p] {cs : R1CS Var (ZMod p)}

/-- An accepted assignment selects an instruction that its word decodes to. -/
theorem exists_decodes (hp : 2 ^ 32 < p) (h : step w false = some cs) {z : ℕ → ZMod p}
    (hz : z 0 = 1) (hsat : cs.Sat z) :
    ∃ (word : U32) (J : ℕ), z (cs.var .inst) = (word.toNat : ZMod p) ∧
      (keyOf word).opc ∈ opcodes ∧ decodes (keyOf word) J = true ∧
        ∀ j ∈ List.range' 1 RV32.maxJ, z (cs.var (.is .J j)) = flag (j == J) := by
  have hfit := step_sound h hz hsat
  obtain ⟨word, hinst, hopc, hreads⟩ := exists_readsKey hp hfit
  have hJ : Fits Op.Sat (fun n => z (cs.var n)) (parseJ w.J) := hfit.of_mem (by simp [stepGadgets])
  obtain ⟨l, hrows⟩ := hJ.holds (by
    simp [parseJBody, parseJFlags, parseJJumps, parseJMemory, parseJAlui, parseJAlu, parseJMisc,
      setFieldVar, setBit, setBitFrom, setVar, setLocalVar, setEqJ, setEq, mul, mulJ, nand, nandJ])
  have hglue : ReadsKey (glue (fun n => z (cs.var n)) l) (keyOf word) :=
    ⟨hreads.f7lt, hreads.opc, hreads.f3, hreads.f3v, hreads.f7v, hreads.f7sub, hreads.b12,
      hreads.b20, hreads.b30⟩
  obtain ⟨J, hdec, hval⟩ := parseJBody_sound hp hglue (field_lt word).2.1 hrows
  exact ⟨word, J, hinst, hopc, hdec, hval⟩

/-- **Soundness of decoding**: every accepted assignment has an instruction word,
and decoding is sound exactly for the words that are not stray. -/
theorem decode_sound_iff (hp : 2 ^ 32 < p) (h : step w false = some cs) :
    (∀ z, z 0 = 1 → cs.Sat z → ∃ word : U32, z (cs.var .inst) = (word.toNat : ZMod p)) ∧
      ∀ word, DecodeSound cs word ↔ ¬ StrayWord word := by
  constructor
  · intro z hz hsat
    obtain ⟨word, -, hinst, -⟩ := exists_decodes hp h hz hsat
    exact ⟨word, hinst⟩
  · intro word
    have hf3 := (field_lt word).2.1
    constructor
    · intro hsound hstray
      obtain ⟨hnone, J, hJ⟩ := hstray.decodes hf3
      have hd : (plain ⟨0, fun _ => 0⟩ word J 0 : Draft p).Sound := plain_sound hp hstray.opcode hJ
      obtain ⟨z, hz, hsat, hval⟩ := exists_accepted hp h hd
      obtain ⟨i, hi, -⟩ := hsound z hz hsat (hval .inst (by decide))
      rw [← parseU32_indexJ, hi] at hnone
      cases hnone
    · intro hstray z hz hsat hinst
      obtain ⟨word', J, hinst', hopc, hJ, hval⟩ := exists_decodes hp h hz hsat
      obtain rfl : word' = word := word_inj hp (hinst'.symm.trans hinst)
      have hindex := indexOfKey_of_decodes (keyOf_of word') hf3 hopc hJ hstray
      rw [← parseU32_indexJ, Option.map_eq_some_iff] at hindex
      obtain ⟨i, hi, rfl⟩ := hindex
      exact ⟨i, hi, hval⟩

/-- The circuit of `addi x0, x0, 0`, and that instruction. -/
theorem decode_sound_iff_idle :
    ∃ cs : R1CS Var (ZMod prime521), step (idle : Draft prime521).witness false = some cs ∧
      DecodeSound cs 0x13 := by
  obtain ⟨cs, hcs⟩ := idle_built word_lt_prime521
  refine ⟨cs, hcs, ((decode_sound_iff word_lt_prime521 hcs).2 0x13).mpr fun hstray => ?_⟩
  have hopc : (keyOf 0x13).opc = 19 := by decide
  cases hstray with
  | br h _ => rw [hopc] at h; cases h
  | load h _ => rw [hopc] at h; cases h
  | store h _ => rw [hopc] at h; cases h
  | system h _ _ => rw [hopc] at h; cases h

/-- A branch with the undefined `funct3` 2 is accepted, as instruction 20. -/
theorem stray_branch_accepted :
    parseU32 0x2063 = none ∧
      ∃ cs : R1CS Var (ZMod prime521), step (idle : Draft prime521).witness false = some cs ∧
        ∃ z, z 0 = 1 ∧ cs.Sat z ∧ z (cs.var .inst) = ((0x2063 : ℕ) : ZMod prime521) ∧
          z (cs.var (.is .J 20)) = 1 := by
  refine ⟨by decide, ?_⟩
  obtain ⟨cs, hcs⟩ := idle_built word_lt_prime521
  have hd : (plain ⟨0, fun _ => 0⟩ 0x2063 20 0 : Draft prime521).Sound :=
    plain_sound word_lt_prime521 (by decide) (by decide)
  obtain ⟨z, hz, hsat, hval⟩ := exists_accepted word_lt_prime521 hcs hd
  exact ⟨cs, hcs, z, hz, hsat, hval .inst (by decide), hval (.is .J 20) (by decide)⟩

end Rows

end NexusVm.Circuit
