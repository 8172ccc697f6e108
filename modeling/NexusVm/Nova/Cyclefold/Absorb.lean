import NexusVm.Nova.Cyclefold.Curves

/-!
# What is absorbed determines the instance

The elements that a sponge absorbs for an instance have fixed lengths, and no two instances of one
length have the same elements.
-/

namespace NexusVm.Nova.Cyclefold

open R1cs

/-- Items of fixed lengths can be read back one after the other. -/
theorem flatMap_injective {α β : Type} {f : α → List β} {p : α → Prop}
    (hlength : ∀ a b, p a → p b → (f a).length = (f b).length)
    (hinj : ∀ a b, p a → p b → f a = f b → a = b) {xs ys : List α} (hxs : ∀ a ∈ xs, p a)
    (hys : ∀ a ∈ ys, p a) (hlen : xs.length = ys.length) (h : xs.flatMap f = ys.flatMap f) :
    xs = ys := by
  induction xs generalizing ys with
  | nil => exact (List.length_eq_zero_iff.mp hlen.symm).symm
  | cons x xs ih =>
      cases ys with
      | nil => cases hlen
      | cons y ys =>
          rw [List.forall_mem_cons] at hxs hys
          rw [List.flatMap_cons, List.flatMap_cons] at h
          obtain ⟨hhead, htail⟩ := List.append_inj h (hlength x y hxs.1 hys.1)
          rw [hinj x y hxs.1 hys.1 hhead, ih hxs.2 hys.2 (Nat.succ.inj hlen) htail]

/-- Two numbers with the same digits are equal, if they have no further digits. -/
theorem eq_of_digits {base count x y : ℕ} (hx : x < base ^ count) (hy : y < base ^ count)
    (h : ∀ k < count, x / base ^ k % base = y / base ^ k % base) : x = y := by
  induction count generalizing x y with
  | zero =>
      rw [pow_zero] at hx hy
      omega
  | succ count ih =>
      have hdiv : x / base = y / base := by
        apply ih
        · rw [pow_succ] at hx
          exact Nat.div_lt_of_lt_mul (by rwa [mul_comm])
        · rw [pow_succ] at hy
          exact Nat.div_lt_of_lt_mul (by rwa [mul_comm])
        · intro k hk
          rw [Nat.div_div_eq_div_mul, Nat.div_div_eq_div_mul, ← pow_succ']
          exact h (k + 1) (by omega)
      have hmod : x % base = y % base := by
        have hzero := h 0 count.succ_pos
        rwa [pow_zero, Nat.div_one, Nat.div_one] at hzero
      rw [← Nat.div_add_mod x base, hdiv, hmod, Nat.div_add_mod]

section Casts

variable {n b : ℕ} [NeZero n] [NeZero b]

theorem digitBase_le (n : ℕ) [NeZero n] : digitBase n ≤ n := by
  have hpos : 0 < n.size := Nat.size_pos.mpr (NeZero.pos n)
  calc digitBase n = 2 ^ (8 * ((n.size - 1) / 8)) := by
        rw [digitBase, pow_mul]
        norm_num
    _ ≤ 2 ^ (n.size - 1) := Nat.pow_le_pow_right two_pos (Nat.mul_div_le _ _)
    _ ≤ n := Nat.lt_size.mp (Nat.sub_lt hpos one_pos)

omit [NeZero n] [NeZero b] in
theorem length_castFieldElementUnique (x y : ZMod b) :
    (castFieldElementUnique x : List (ZMod n)).length =
      (castFieldElementUnique y : List (ZMod n)).length := by
  rw [castFieldElementUnique, castFieldElementUnique, List.length_map, List.length_map]

/-- The digits that are absorbed are all digits of the number. -/
theorem castFieldElementUnique_injective (hn : 256 ≤ n) :
    Function.Injective (castFieldElementUnique : ZMod b → List (ZMod n)) := by
  intro x y h
  have hsize : 9 ≤ n.size := Nat.lt_size.mpr (hn.trans' (by norm_num))
  set width := (n.size - 1) / 8 with hwidth
  have hpos : 0 < width := Nat.div_pos (by omega) (by norm_num)
  set count := (8 * ((b.size + 63) / 64) + width - 1) / width with hcount
  have hcover : b ≤ digitBase n ^ count := by
    have hwide : b.size ≤ 8 * (width * count) := by
      have hdiv := Nat.div_add_mod (8 * ((b.size + 63) / 64) + width - 1) width
      have hmod := Nat.mod_lt (8 * ((b.size + 63) / 64) + width - 1) hpos
      rw [← hcount] at hdiv
      omega
    calc b ≤ 2 ^ b.size := (Nat.lt_size_self b).le
      _ ≤ 2 ^ (8 * (width * count)) := Nat.pow_le_pow_right two_pos hwide
      _ = digitBase n ^ count := by
        rw [digitBase, ← hwidth, pow_mul, pow_mul]
        norm_num
  have hdigit : ∀ k < count, x.val / digitBase n ^ k % digitBase n =
      y.val / digitBase n ^ k % digitBase n := by
    intro k hk
    have hbase : 0 < digitBase n := pow_pos (by norm_num) _
    have hval := congrArg ZMod.val (List.map_inj_left.mp h k (List.mem_range.mpr hk))
    rwa [ZMod.val_cast_of_lt ((Nat.mod_lt _ hbase).trans_le (digitBase_le n)),
      ZMod.val_cast_of_lt ((Nat.mod_lt _ hbase).trans_le (digitBase_le n))] at hval
  exact ZMod.val_injective b (eq_of_digits ((ZMod.val_lt x).trans_le hcover)
    ((ZMod.val_lt y).trans_le hcover) hdigit)

/-- Lists of one length with the same digits are equal. -/
theorem flatMap_castFieldElementUnique_injective (hn : 256 ≤ n) {xs ys : List (ZMod b)}
    (hlen : xs.length = ys.length)
    (h : xs.flatMap (castFieldElementUnique : ZMod b → List (ZMod n)) =
      ys.flatMap castFieldElementUnique) : xs = ys :=
  flatMap_injective (p := fun _ => True) (fun x y _ _ => length_castFieldElementUnique x y)
    (fun _ _ _ _ heq => castFieldElementUnique_injective hn heq) (fun _ _ => trivial)
    (fun _ _ => trivial) hlen h

end Casts

/-! ## Points, instances and coordinates -/

section Points

variable {n b : ℕ} [Fact n.Prime]

theorem flag_injective {p q : Bool}
    (h : (if p then 1 else 0 : ZMod n) = if q then 1 else 0) : p = q := by
  cases p with
  | false =>
      cases q with
      | false => rfl
      | true => exact absurd h zero_ne_one
  | true =>
      cases q with
      | false => exact absurd h one_ne_zero
      | true => rfl

omit [Fact n.Prime] in
theorem length_pointElements (P Q : AffinePoint (ZMod b)) :
    (pointElements P : List (ZMod n)).length = (pointElements Q : List (ZMod n)).length := by
  simp only [pointElements, List.length_append, length_castFieldElementUnique P.x Q.x,
    length_castFieldElementUnique P.y Q.y, List.length_singleton]

theorem pointElements_injective [NeZero b] (hn : 256 ≤ n) :
    Function.Injective (pointElements : AffinePoint (ZMod b) → List (ZMod n)) := by
  intro P Q h
  rw [pointElements, pointElements] at h
  obtain ⟨hxy, hinfinity⟩ := List.append_inj' h rfl
  obtain ⟨hx, hy⟩ := List.append_inj hxy (length_castFieldElementUnique P.x Q.x)
  obtain ⟨x, y, infinity⟩ := P
  obtain ⟨x', y', infinity'⟩ := Q
  rw [AffinePoint.mk.injEq]
  exact ⟨castFieldElementUnique_injective hn hx, castFieldElementUnique_injective hn hy,
    flag_injective (List.singleton_inj.mp hinfinity)⟩

theorem nativePointElements_injective :
    Function.Injective (nativePointElements : AffinePoint (ZMod n) → List (ZMod n)) := by
  intro P Q h
  obtain ⟨x, y, infinity⟩ := P
  obtain ⟨x', y', infinity'⟩ := Q
  simp only [nativePointElements, List.cons.injEq, and_true] at h
  obtain ⟨hx, hy, hinfinity⟩ := h
  rw [AffinePoint.mk.injEq]
  exact ⟨hx, hy, flag_injective hinfinity⟩

variable [NeZero b] {U V : RelaxedR1CSInstance (ZMod n) (AffinePoint (ZMod b))}

/-- A relaxed instance of the primary curve. -/
theorem relaxedElements_injective (hn : 256 ≤ n) (h : relaxedElements U = relaxedElements V) :
    U = V := by
  rw [relaxedElements, relaxedElements, List.append_assoc, List.append_assoc] at h
  obtain ⟨hW, h⟩ := List.append_inj h (length_pointElements _ _)
  obtain ⟨hE, hX⟩ := List.append_inj h (length_pointElements _ _)
  obtain ⟨commitment_W, commitment_E, X⟩ := U
  obtain ⟨commitment_W', commitment_E', X'⟩ := V
  rw [RelaxedR1CSInstance.mk.injEq]
  exact ⟨pointElements_injective hn hW, pointElements_injective hn hE, hX⟩

omit [Fact n.Prime] [NeZero b] in
theorem length_relaxedElements (hlen : U.X.length = V.X.length) :
    (relaxedElements U).length = (relaxedElements V).length := by
  simp only [relaxedElements, List.length_append, hlen,
    length_pointElements U.commitment_W V.commitment_W,
    length_pointElements U.commitment_E V.commitment_E]

variable {u v : R1CSInstance (ZMod n) (AffinePoint (ZMod b))}

/-- A strict instance of the primary curve: the first entry of its input is not absorbed. -/
theorem strictElements_eq_iff (hn : 256 ≤ n) :
    strictElements u = strictElements v ↔
      u.commitment_W = v.commitment_W ∧ u.X.drop 1 = v.X.drop 1 := by
  constructor
  · intro h
    rw [strictElements, strictElements] at h
    obtain ⟨hW, hX⟩ := List.append_inj h (length_pointElements _ _)
    exact ⟨pointElements_injective hn hW, hX⟩
  · rintro ⟨hW, hX⟩
    rw [strictElements, strictElements, hW, hX]

omit [Fact n.Prime] [NeZero b] in
theorem length_strictElements (hlen : u.X.length = v.X.length) :
    (strictElements u).length = (strictElements v).length := by
  simp only [strictElements, List.length_append, List.length_drop, hlen,
    length_pointElements u.commitment_W v.commitment_W]

omit [Fact n.Prime] [NeZero b] in
theorem length_flatMap_castFieldElementUnique {xs ys : List (ZMod b)}
    (hlen : xs.length = ys.length) :
    (xs.flatMap (castFieldElementUnique : ZMod b → List (ZMod n))).length =
      (ys.flatMap (castFieldElementUnique : ZMod b → List (ZMod n))).length := by
  induction xs generalizing ys with
  | nil => rw [List.length_eq_zero_iff.mp hlen.symm]
  | cons x xs ih =>
      cases ys with
      | nil => cases hlen
      | cons y ys =>
          rw [List.flatMap_cons, List.flatMap_cons, List.length_append, List.length_append,
            length_castFieldElementUnique x y, ih (Nat.succ.inj hlen)]

variable {U V : RelaxedR1CSInstance (ZMod b) (AffinePoint (ZMod n))}

omit [Fact n.Prime] [NeZero b] in
theorem length_relaxedElementsSecondary (hlen : U.X.length = V.X.length) :
    (relaxedElementsSecondary U).length = (relaxedElementsSecondary V).length := by
  simp only [relaxedElementsSecondary, nativePointElements, List.length_append, List.length_cons,
    List.length_nil, length_flatMap_castFieldElementUnique hlen]

/-- A relaxed instance of the secondary curve. -/
theorem relaxedElementsSecondary_injective (hn : 256 ≤ n) (hlen : U.X.length = V.X.length)
    (h : relaxedElementsSecondary U = relaxedElementsSecondary V) : U = V := by
  rw [relaxedElementsSecondary, relaxedElementsSecondary, List.append_assoc,
    List.append_assoc] at h
  obtain ⟨hW, h⟩ := List.append_inj h rfl
  obtain ⟨hE, hX⟩ := List.append_inj h rfl
  obtain ⟨commitment_W, commitment_E, X⟩ := U
  obtain ⟨commitment_W', commitment_E', X'⟩ := V
  rw [RelaxedR1CSInstance.mk.injEq]
  exact ⟨nativePointElements_injective hW, nativePointElements_injective hE,
    flatMap_castFieldElementUnique_injective hn hlen hX⟩

omit [Fact n.Prime] [NeZero b] in
theorem relaxedMap_injective {F C D : Type} {f : C → D} (hf : Function.Injective f) :
    Function.Injective (relaxedMap f : RelaxedR1CSInstance F C → RelaxedR1CSInstance F D) := by
  intro U V h
  obtain ⟨commitment_W, commitment_E, X⟩ := U
  obtain ⟨commitment_W', commitment_E', X'⟩ := V
  simp only [relaxedMap, RelaxedR1CSInstance.mk.injEq] at h ⊢
  exact ⟨hf h.1, hf h.2.1, h.2.2⟩

end Points

end NexusVm.Nova.Cyclefold
