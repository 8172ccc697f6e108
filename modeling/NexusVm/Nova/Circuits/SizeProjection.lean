import NexusVm.Nova.Mle

/-!
# The projected size of an augmented circuit

`project_augmented_circuit_size_upper_bound_from_r1cs` of
`nova/src/circuits/hypernova/sequential/augmented.rs`.  The number of sumcheck rounds depends on
the size of the circuit, and the size on the number of rounds; a loop looks for a fixed point.
-/

namespace NexusVm.Nova.Circuits.Hypernova

section Checked

variable {E : Type}

/-- A `u32` that is the result of an addition or a multiplication, which panics on overflow. -/
def u32 (x : ℕ) : Run E ℕ := if x < 2 ^ 32 then .ok x else .error .panic

/-- `a - b` on `u32`, which panics on underflow. -/
def u32Sub (a b : ℕ) : Run E ℕ := if b ≤ a then .ok (a - b) else .error .panic

theorem u32_of_lt {x : ℕ} (h : x < 2 ^ 32) : (u32 x : Run E ℕ) = .ok x := if_pos h

theorem u32Sub_of_le {a b : ℕ} (h : b ≤ a) : (u32Sub a b : Run E ℕ) = .ok (a - b) := if_pos h

end Checked

/-- The variables of the loop. -/
structure Projection where
  max_constraints : ℕ
  low : ℕ
  high : ℕ
  eq : Bool
deriving DecidableEq

section Loop

variable {E : Type}

/-- One pass through the body of the loop. -/
def projectionRound (max_constraints_per_sumcheck_round : ℕ) (s : Projection) :
    Run E Projection := do
  let difference ← u32Sub s.high s.low
  let added ← u32 (difference * max_constraints_per_sumcheck_round)
  let max_constraints ← u32 (s.max_constraints + added)
  let low := s.high
  let high := safeLoglike max_constraints
  return ⟨max_constraints, low, high, decide (low = high)⟩

/-- `while !eq`, for a number of passes; `none` if they do not suffice. -/
def projectionLoop (max_constraints_per_sumcheck_round : ℕ) :
    ℕ → Projection → Option (Run E Projection)
  | 0, _ => none
  | fuel + 1, s =>
      if s.eq then some (.ok s)
      else
        match projectionRound max_constraints_per_sumcheck_round s with
        | .error e => some (.error e)
        | .ok s' => projectionLoop max_constraints_per_sumcheck_round fuel s'

/-- `project_augmented_circuit_size_upper_bound_from_r1cs`, for a step circuit of some arity whose
synthesis gives a number of constraints or fails. -/
def projectAugmentedCircuitSizeUpperBoundFromR1cs (fuel base_constraints
    max_constraints_per_step_circuit_input max_constraints_per_sumcheck_round arity : ℕ)
    (num_constraints : Except E ℕ) : Option (Run E (ℕ × ℕ)) :=
  let start : Run E Projection := do
    let num_constraints ← num_constraints.mapError .error
    -- `as u32`
    let step_circuit_constraints := num_constraints % 2 ^ 32
    let sum ← u32 (base_constraints + step_circuit_constraints)
    let inputs ← u32 ((arity % 2 ^ 32 - 1) * max_constraints_per_step_circuit_input)
    let max_constraints ← u32 (sum + inputs)
    return ⟨max_constraints, 0, safeLoglike max_constraints, false⟩
  match start with
  | .error e => some (.error e)
  | .ok s =>
      (projectionLoop max_constraints_per_sumcheck_round fuel s).map fun out =>
        out.map fun s => (s.high, s.max_constraints)

theorem safeLoglike_mono : Monotone safeLoglike := by
  intro x y h
  rw [safeLoglike, safeLoglike]
  split_ifs with hx hy
  · exact le_refl 0
  · exact Nat.zero_le _
  · omega
  · have hlog : Nat.log 2 (x - 1) ≤ Nat.log 2 (y - 1) :=
      Nat.log_mono_right (Nat.sub_le_sub_right h 1)
    rw [Nat.log2_eq_log_two, Nat.log2_eq_log_two]
    exact Nat.succ_le_succ hlog

/-- The logarithm of a `u32` is at most its width. -/
theorem safeLoglike_le {x : ℕ} (h : x < 2 ^ 32) : safeLoglike x ≤ 32 := by
  rw [safeLoglike]
  split_ifs with hx
  · exact Nat.zero_le _
  · have hlog : Nat.log 2 (x - 1) < 32 := Nat.log_lt_of_lt_pow' (by norm_num) (by omega)
    rw [Nat.log2_eq_log_two]
    exact hlog

/-! ## What the loop keeps -/

/-- The numbers of rounds that the size they lead to asks for. -/
def Fixed (c0 p : ℕ) : Set ℕ := {r | r = safeLoglike (c0 + r * p)}

/-- The size is that of `low` rounds and asks for `high`, which no fixed number is below. -/
structure Projection.Inv (c0 p : ℕ) (s : Projection) : Prop where
  size : s.max_constraints = c0 + s.low * p
  high : s.high = safeLoglike s.max_constraints
  le : s.low ≤ s.high
  bound : s.high ≤ 32
  least : s.high ∈ lowerBounds (Fixed c0 p)
  eq : s.eq = true → s.low = s.high

variable {c0 p : ℕ}

/-- No fixed number is below what the size of fewer rounds asks for. -/
theorem safeLoglike_mem_lowerBounds {low : ℕ} (h : low ∈ lowerBounds (Fixed c0 p)) :
    safeLoglike (c0 + low * p) ∈ lowerBounds (Fixed c0 p) := by
  intro r hr
  have hlow : low ≤ r := h hr
  have hsize : c0 + low * p ≤ c0 + r * p :=
    Nat.add_le_add_left (Nat.mul_le_mul_right p hlow) c0
  calc
    safeLoglike (c0 + low * p) ≤ safeLoglike (c0 + r * p) := safeLoglike_mono hsize
    _ = r := Eq.symm hr

/-- The sizes of at most 32 rounds fit. -/
theorem size_lt (hp : c0 + 32 * p < 2 ^ 32) {r : ℕ} (hr : r ≤ 32) : c0 + r * p < 2 ^ 32 := by
  have hmul : r * p ≤ 32 * p := Nat.mul_le_mul_right p hr
  omega

/-- A state of the loop before its first pass. -/
theorem inv_start (hp : c0 + 32 * p < 2 ^ 32) :
    Projection.Inv c0 p ⟨c0, 0, safeLoglike c0, false⟩ := by
  have hzero : 0 ∈ lowerBounds (Fixed c0 p) := fun r _ => Nat.zero_le r
  have hleast := safeLoglike_mem_lowerBounds hzero
  rw [Nat.zero_mul, Nat.add_zero] at hleast
  constructor
  · rw [Nat.zero_mul, Nat.add_zero]
  · rfl
  · exact Nat.zero_le _
  · exact safeLoglike_le (by omega)
  · exact hleast
  · intro h
    cases h

variable {s : Projection}

/-- **A pass keeps the invariant**, nothing overflows in it, and unless it is the last one the
number of rounds grows. -/
theorem exists_projectionRound (hp : c0 + 32 * p < 2 ^ 32) (h : s.Inv c0 p) :
    ∃ s', (projectionRound p s : Run E Projection) = .ok s' ∧ s'.Inv c0 p ∧
      (s'.eq = false → s.high < s'.high) := by
  have hsize : s.max_constraints + (s.high - s.low) * p = c0 + s.high * p := by
    have hsplit : s.high * p = s.low * p + (s.high - s.low) * p := by
      rw [← Nat.add_mul, Nat.add_sub_cancel' h.le]
    rw [h.size, hsplit, Nat.add_assoc]
  have hfits := size_lt hp h.bound
  have hmul : (s.high - s.low) * p < 2 ^ 32 := by omega
  have hmono : s.high ≤ safeLoglike (c0 + s.high * p) := by
    rw [← hsize]
    conv_lhs => rw [h.high]
    exact safeLoglike_mono (Nat.le_add_right _ _)
  refine ⟨⟨c0 + s.high * p, s.high, safeLoglike (c0 + s.high * p),
    decide (s.high = safeLoglike (c0 + s.high * p))⟩, ?_, ?_, ?_⟩
  · rw [projectionRound, u32Sub_of_le h.le]
    simp only [bind, Except.bind, u32_of_lt hmul, hsize, u32_of_lt hfits]
    rfl
  · constructor
    · rfl
    · rfl
    · exact hmono
    · exact safeLoglike_le hfits
    · exact safeLoglike_mem_lowerBounds h.least
    · intro heq
      exact of_decide_eq_true heq
  · intro hne
    exact lt_of_le_of_ne hmono (of_decide_eq_false hne)

/-- With more passes than there are larger numbers of rounds the loop ends at the least fixed
number. -/
theorem projectionLoop_inv (hp : c0 + 32 * p < 2 ^ 32) {fuel : ℕ} (h : s.Inv c0 p)
    (hfuel : 34 - s.high ≤ fuel) :
    ∃ s', (projectionLoop p fuel s : Option (Run E Projection)) = some (.ok s') ∧
      s'.Inv c0 p ∧ s'.low = s'.high := by
  have hbound := h.bound
  induction fuel generalizing s with
  | zero => omega
  | succ fuel ih =>
      rw [projectionLoop]
      cases heq : s.eq with
      | true =>
          rw [if_pos rfl]
          exact ⟨s, rfl, h, h.eq heq⟩
      | false =>
          obtain ⟨s', hround, hinv, hgrows⟩ := exists_projectionRound (E := E) hp h
          rw [if_neg Bool.false_ne_true, hround]
          cases heq' : s'.eq with
          | true =>
              obtain ⟨fuel, rfl⟩ : ∃ n, fuel = n + 1 := ⟨fuel - 1, by omega⟩
              refine ⟨s', ?_, hinv, hinv.eq heq'⟩
              show projectionLoop p (fuel + 1) s' = _
              rw [projectionLoop, heq', if_pos rfl]
          | false =>
              have hlt := hgrows heq'
              exact ih hinv (by omega) hinv.bound

/-- The fixed number that the loop ends at is the least one. -/
theorem Projection.Inv.isLeast (h : s.Inv c0 p) (heq : s.low = s.high) :
    IsLeast (Fixed c0 p) s.high ∧ s.max_constraints = c0 + s.high * p := by
  have hsize := h.size
  rw [heq] at hsize
  constructor
  · constructor
    · show s.high = safeLoglike (c0 + s.high * p)
      rw [← hsize]
      exact h.high
    · exact h.least
  · exact hsize

/-- From a first size the loop ends at the least fixed number, after at most 33 passes. -/
theorem projectionLoop_least (hp : c0 + 32 * p < 2 ^ 32) {fuel : ℕ} (hfuel : 34 ≤ fuel) :
    ∃ s, (projectionLoop p fuel ⟨c0, 0, safeLoglike c0, false⟩ : Option (Run E Projection)) =
      some (.ok s) ∧ IsLeast (Fixed c0 p) s.high ∧ s.max_constraints = c0 + s.high * p := by
  obtain ⟨s, hloop, hinv, heq⟩ :=
    projectionLoop_inv (E := E) hp (inv_start hp) ((Nat.sub_le _ _).trans hfuel)
  exact ⟨s, hloop, hinv.isLeast heq⟩

/-- **The projection ends at the least fixed point.**  If the first size and 32 times the cost of a
round are a `u32` together, then at most 33 passes are enough, nothing overflows, and the result is
the least number of rounds that is the logarithm of the size for as many rounds, with this size. -/
theorem project_least (base_constraints max_constraints_per_step_circuit_input p arity
    num_constraints c0 : ℕ)
    (hc0 : c0 = base_constraints + num_constraints % 2 ^ 32 +
      (arity % 2 ^ 32 - 1) * max_constraints_per_step_circuit_input)
    (hp : c0 + 32 * p < 2 ^ 32) :
    ∃ r, IsLeast {r | r = safeLoglike (c0 + r * p)} r ∧ ∀ fuel, 34 ≤ fuel →
      projectAugmentedCircuitSizeUpperBoundFromR1cs fuel base_constraints
        max_constraints_per_step_circuit_input p arity (.ok num_constraints : Except E ℕ) =
          some (.ok (r, c0 + r * p)) := by
  have hstart : ∀ fuel, projectAugmentedCircuitSizeUpperBoundFromR1cs fuel base_constraints
      max_constraints_per_step_circuit_input p arity (.ok num_constraints : Except E ℕ) =
      (projectionLoop p fuel ⟨c0, 0, safeLoglike c0, false⟩).map fun out =>
        out.map fun s => (s.high, s.max_constraints) := by
    intro fuel
    have hsum : base_constraints + num_constraints % 2 ^ 32 < 2 ^ 32 := by omega
    have hinputs : (arity % 2 ^ 32 - 1) * max_constraints_per_step_circuit_input < 2 ^ 32 := by
      omega
    have hfits : c0 < 2 ^ 32 := by omega
    simp only [projectAugmentedCircuitSizeUpperBoundFromR1cs, Except.mapError, bind, Except.bind,
      u32_of_lt hsum, u32_of_lt hinputs, ← hc0, u32_of_lt hfits, pure, Except.pure]
  obtain ⟨s, -, hleast, -⟩ := projectionLoop_least (E := E) hp (le_refl 34)
  refine ⟨s.high, hleast, ?_⟩
  intro fuel hfuel
  obtain ⟨s', hloop, hleast', hsize⟩ := projectionLoop_least (E := E) hp hfuel
  rw [hstart, hloop, ← hleast'.unique hleast, ← hsize]
  rfl

end Loop

/-- With 300 constraints and 100 for each round the size for 11 rounds asks for 11 rounds. -/
theorem project_least_small : ∃ r, IsLeast {r | r = safeLoglike (300 + r * 100)} r ∧
    ∀ fuel, 34 ≤ fuel → projectAugmentedCircuitSizeUpperBoundFromR1cs fuel 200 50 100 2
      (.ok 50 : Except Empty ℕ) = some (.ok (r, 300 + r * 100)) :=
  project_least 200 50 100 2 50 300 rfl (by norm_num)

end NexusVm.Nova.Circuits.Hypernova
