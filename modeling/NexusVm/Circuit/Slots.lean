import NexusVm.Circuit.Var

/-!
# Slots of variable names

The names that the step circuit uses, numbered in rows of 128: names without
an argument, and families with one row for each of their other arguments.
-/

namespace NexusVm.Circuit

open NexusVm.Builder

namespace Var

/-- Names without an argument. -/
def consts : List Var :=
  [.pc, .PC, .root, .ROOT, .readMem, .writeMem, .X, .Y, .I, .Z, .rd, .rs1, .rs2, .shamt, .inst,
    .opcode, .J, .four, .f3, .f7, .f7sub32, .lowA, .lowY, .pc4, .isShift, .a1, .a2, .shamtI,
    .shamtR, .f30a, .f30b, .f35a, .f35b, .ecall, .O, .ds, .XsYs, .sltl, .sltr, .left, .right]

def constIdx : Var → Option ℕ
  | .pc => some 0 | .PC => some 1 | .root => some 2 | .ROOT => some 3 | .readMem => some 4
  | .writeMem => some 5 | .X => some 6 | .Y => some 7 | .I => some 8 | .Z => some 9
  | .rd => some 10 | .rs1 => some 11 | .rs2 => some 12 | .shamt => some 13 | .inst => some 14
  | .opcode => some 15 | .J => some 16 | .four => some 17 | .f3 => some 18 | .f7 => some 19
  | .f7sub32 => some 20 | .lowA => some 21 | .lowY => some 22 | .pc4 => some 23
  | .isShift => some 24 | .a1 => some 25 | .a2 => some 26 | .shamtI => some 27
  | .shamtR => some 28 | .f30a => some 29 | .f30b => some 30 | .f35a => some 31 | .f35b => some 32
  | .ecall => some 33 | .O => some 34 | .ds => some 35 | .XsYs => some 36 | .sltl => some 37
  | .sltr => some 38 | .left => some 39 | .right => some 40
  | _ => none

/-- Names from which others are derived, in the order of their rows. -/
def parents : List Var :=
  [.pc, .PC, .X, .Y, .I, .Z, .inst, .plus .X .I, .conj .X .Y, .conj .X .I, .ZJ 24, .ZJ 27,
    .ZJ 34, .ZJ 37, .pcMem, .readMem, .writeMem, .rs1, .rs2, .rd, .opcode, .f3, .shamt, .J,
    .cat (.plus .X .I) 8, .cat (.plus .X .I) 16, .cat (.plus .X .I) 32, .cat .readMem 8,
    .cat .readMem 16]

def parent : Var → Option ℕ
  | .pc => some 0 | .PC => some 1 | .X => some 2 | .Y => some 3 | .I => some 4 | .Z => some 5
  | .inst => some 6 | .plus .X .I => some 7 | .conj .X .Y => some 8 | .conj .X .I => some 9
  | .ZJ 24 => some 10 | .ZJ 27 => some 11 | .ZJ 34 => some 12 | .ZJ 37 => some 13
  | .pcMem => some 14 | .readMem => some 15 | .writeMem => some 16 | .rs1 => some 17
  | .rs2 => some 18 | .rd => some 19 | .opcode => some 20 | .f3 => some 21 | .shamt => some 22
  | .J => some 23 | .cat (.plus .X .I) 8 => some 24 | .cat (.plus .X .I) 16 => some 25
  | .cat (.plus .X .I) 32 => some 26 | .cat .readMem 8 => some 27 | .cat .readMem 16 => some 28
  | _ => none

/-- Operands of the derived names with two. -/
def pairs : List (Var × Var) := [(.pc, .I), (.X, .Y), (.X, .I)]

def pairIdx : Var → Var → Option ℕ
  | .pc, .I => some 0
  | .X, .Y => some 1
  | .X, .I => some 2
  | _, _ => none

def tys : List Ty := [.R, .I, .S, .B, .U, .J, .A]

def tyIdx : Ty → ℕ
  | .R => 0 | .I => 1 | .S => 2 | .B => 3 | .U => 4 | .J => 5 | .A => 6

/-- Row and column of a name. -/
def place : Var → Option (ℕ × ℕ)
  | x i => some (1, i)
  | x' i => some (2, i)
  | ZJ i => some (3, i)
  | PCJ i => some (4, i)
  | JZ i => some (5, i)
  | JPC i => some (6, i)
  | xk i => some (7, i)
  | l i => some (8, i)
  | r i => some (9, i)
  | cx i => some (10, i)
  | rsx i => some (11, i)
  | z i => some (12, i)
  | out i => some (13, i)
  | SZ i => some (14, i)
  | lo v => (parent v).map fun k => (15, k)
  | hi v => (parent v).map fun k => (16, k)
  | sb v => (parent v).map fun k => (17, k)
  | sv v => (parent v).map fun k => (18, k)
  | chooseL v => (parent v).map fun k => (19, k)
  | chooseR v => (parent v).map fun k => (20, k)
  | plus u v => (pairIdx u v).map fun k => (21, k)
  | minus u v => (pairIdx u v).map fun k => (22, k)
  | conj u v => (pairIdx u v).map fun k => (23, k)
  | lt u v => (pairIdx u v).map fun k => (24, k)
  | eq u v => (pairIdx u v).map fun k => (25, k)
  | ge u v => (pairIdx u v).map fun k => (26, k)
  | ne u v => (pairIdx u v).map fun k => (27, k)
  | slt u v => (pairIdx u v).map fun k => (28, k)
  | sge u v => (pairIdx u v).map fun k => (29, k)
  | type ty => some (30, tyIdx ty)
  | imm ty => some (31, tyIdx ty)
  | ti ty => some (32, tyIdx ty)
  | cat v 8 => (parent v).map fun k => (33, k)
  | cat v 16 => (parent v).map fun k => (34, k)
  | cat v 32 => (parent v).map fun k => (35, k)
  | Jw j 8 => some (36, j)
  | Jw j 16 => some (37, j)
  | Jw j 32 => some (38, j)
  | bit v i => (parent v).map fun r => (64 + r, i)
  | is v i => (parent v).map fun r => (96 + r, i)
  | unit v 8 i => (parent v).map fun r => (128 + r, i)
  | unit v 16 i => (parent v).map fun r => (160 + r, i)
  | unit v 32 i => (parent v).map fun r => (192 + r, i)
  | v => (constIdx v).map fun k => (0, k)

/-- The name at a column of one of the rows that belong to no parent. -/
def nameAtLow (row col : ℕ) : Var :=
  match row with
  | 0 => consts.getD col pc
  | 1 => x col
  | 2 => x' col
  | 3 => ZJ col
  | 4 => PCJ col
  | 5 => JZ col
  | 6 => JPC col
  | 7 => xk col
  | 8 => l col
  | 9 => r col
  | 10 => cx col
  | 11 => rsx col
  | 12 => z col
  | 13 => out col
  | 14 => SZ col
  | 15 => lo (parents.getD col pc)
  | 16 => hi (parents.getD col pc)
  | 17 => sb (parents.getD col pc)
  | 18 => sv (parents.getD col pc)
  | 19 => chooseL (parents.getD col pc)
  | 20 => chooseR (parents.getD col pc)
  | 21 => plus (pairs.getD col (pc, pc)).1 (pairs.getD col (pc, pc)).2
  | 22 => minus (pairs.getD col (pc, pc)).1 (pairs.getD col (pc, pc)).2
  | 23 => conj (pairs.getD col (pc, pc)).1 (pairs.getD col (pc, pc)).2
  | 24 => lt (pairs.getD col (pc, pc)).1 (pairs.getD col (pc, pc)).2
  | 25 => eq (pairs.getD col (pc, pc)).1 (pairs.getD col (pc, pc)).2
  | 26 => ge (pairs.getD col (pc, pc)).1 (pairs.getD col (pc, pc)).2
  | 27 => ne (pairs.getD col (pc, pc)).1 (pairs.getD col (pc, pc)).2
  | 28 => slt (pairs.getD col (pc, pc)).1 (pairs.getD col (pc, pc)).2
  | 29 => sge (pairs.getD col (pc, pc)).1 (pairs.getD col (pc, pc)).2
  | 30 => type (tys.getD col .R)
  | 31 => imm (tys.getD col .R)
  | 32 => ti (tys.getD col .R)
  | 33 => cat (parents.getD col pc) 8
  | 34 => cat (parents.getD col pc) 16
  | 35 => cat (parents.getD col pc) 32
  | 36 => Jw col 8
  | 37 => Jw col 16
  | 38 => Jw col 32
  | _ => pc

/-- The name at a row and a column. -/
def nameAt (row col : ℕ) : Var :=
  let v := parents.getD (row % 32) pc
  if row < 64 then nameAtLow row col
  else if row < 96 then bit v col
  else if row < 128 then is v col
  else if row < 160 then unit v 8 col
  else if row < 192 then unit v 16 col
  else unit v 32 col

variable {v : Var}

theorem consts_constIdx {k : ℕ} (h : constIdx v = some k) : consts.getD k pc = v := by
  unfold constIdx at h
  split at h <;> first | (obtain rfl := Option.some.inj h; rfl) | simp at h

theorem parents_parent {r : ℕ} (h : parent v = some r) :
    r < 32 ∧ parents.getD r pc = v := by
  unfold parent at h
  split at h <;> first | (obtain rfl := Option.some.inj h; exact ⟨by decide, rfl⟩) | simp at h

theorem pairs_pairIdx {u v : Var} {k : ℕ} (h : pairIdx u v = some k) :
    pairs.getD k (pc, pc) = (u, v) := by
  unfold pairIdx at h
  split at h <;> first | (obtain rfl := Option.some.inj h; rfl) | simp at h

theorem tys_tyIdx (ty : Ty) : tys.getD (tyIdx ty) .R = ty := by cases ty <;> rfl

theorem nameAt_low {row : ℕ} (h : row < 64) (col : ℕ) : nameAt row col = nameAtLow row col :=
  if_pos h

/-- The rows that belong to a parent. -/
theorem nameAt_high {r : ℕ} (hr : r < 32) (i : ℕ) :
    nameAt (64 + r) i = bit (parents.getD r pc) i ∧
      nameAt (96 + r) i = is (parents.getD r pc) i ∧
      nameAt (128 + r) i = unit (parents.getD r pc) 8 i ∧
      nameAt (160 + r) i = unit (parents.getD r pc) 16 i ∧
      nameAt (192 + r) i = unit (parents.getD r pc) 32 i := by
  have hmod : ∀ k, k % 32 = 0 → (k + r) % 32 = r := by omega
  refine ⟨?_, ?_, ?_, ?_, ?_⟩
  · simp only [nameAt, hmod 64 rfl]
    rw [if_neg (by omega), if_pos (by omega)]
  · simp only [nameAt, hmod 96 rfl]
    rw [if_neg (by omega), if_neg (by omega), if_pos (by omega)]
  · simp only [nameAt, hmod 128 rfl]
    rw [if_neg (by omega), if_neg (by omega), if_neg (by omega), if_pos (by omega)]
  · simp only [nameAt, hmod 160 rfl]
    rw [if_neg (by omega), if_neg (by omega), if_neg (by omega), if_neg (by omega),
      if_pos (by omega)]
  · simp only [nameAt, hmod 192 rfl]
    rw [if_neg (by omega), if_neg (by omega), if_neg (by omega), if_neg (by omega),
      if_neg (by omega)]

/-- The numbering can be undone. -/
theorem nameAt_place {row col : ℕ} (h : place v = some (row, col)) :
    nameAt row col = v := by
  unfold place at h
  split at h
  all_goals first
    | -- an indexed family
      obtain ⟨rfl, rfl⟩ := Prod.mk.inj (Option.some.inj h)
      first | rfl | exact congrArg _ (tys_tyIdx _)
    | obtain ⟨k, hk, heq⟩ := Option.map_eq_some_iff.mp h
      obtain ⟨rfl, rfl⟩ := Prod.mk.inj heq
      first
        | -- a row for each parent
          obtain ⟨hlt, rfl⟩ := parents_parent hk
          first
            | exact (nameAt_high hlt _).1
            | exact (nameAt_high hlt _).2.1
            | exact (nameAt_high hlt _).2.2.1
            | exact (nameAt_high hlt _).2.2.2.1
            | exact (nameAt_high hlt _).2.2.2.2
        | rw [nameAt_low (by decide)]
          simp only [nameAtLow, (parents_parent hk).2]
        | rw [nameAt_low (by decide)]
          simp only [nameAtLow, pairs_pairIdx hk]
        | rw [nameAt_low (by decide)]
          exact consts_constIdx hk

theorem place_inj {u v : Var} {q : ℕ × ℕ} (hu : place u = some q) (hv : place v = some q) :
    u = v := by
  rw [← nameAt_place hu, ← nameAt_place hv]

/-- Slot of a name: its column within its row of 128. -/
def slotOf (v : Var) : Option ℕ :=
  match place v with
  | some (row, col) => if col < 128 then some (128 * row + col) else none
  | none => none

theorem place_of_slotOf {k : ℕ} (h : slotOf v = some k) :
    place v = some (k / 128, k % 128) := by
  unfold slotOf at h
  split at h
  case h_1 row col hp =>
    split_ifs at h with hcol
    obtain rfl := Option.some.inj h
    rw [hp, show (128 * row + col) / 128 = row by omega,
      show (128 * row + col) % 128 = col by omega]
  case h_2 => simp at h

instance : ScopedName Var where
  isLocal := isLocalVar
  slot := slotOf
  slot_inj hn hm := place_inj (place_of_slotOf hn) (place_of_slotOf hm)

end Var

end NexusVm.Circuit
