import NexusVm.Spartan.Instance

/-!
# Transcripts and dense polynomials

`spartan/src/transcript.rs` over transcripts of another crate, which are any deterministic state
machine, and the parts of `dense_mlpoly.rs` that the provers use.  The first variable belongs to
the most significant bit of an index.
-/

namespace NexusVm.Spartan

open Nova

/-- What a transcript absorbs: byte strings, numbers, serialized scalars and serialized points. -/
inductive Message (F C : Type)
  | bytes (s : String)
  | u64 (n : ℕ)
  | scalar (x : F)
  | point (c : C)
deriving DecidableEq

/-- `merlin::Transcript`; a challenge is reduced to a scalar. -/
structure Transcript (F C : Type) where
  State : Type
  appendMessage : State → String → Message F C → State
  challengeScalar : State → String → F × State

namespace Transcript

section Append

variable {F C : Type} (T : Transcript F C)

/-- `append_protocol_name`. -/
def appendProtocolName (st : T.State) (name : String) : T.State :=
  T.appendMessage st "protocol-name" (.bytes name)

/-- `append_u64`. -/
def appendU64 (st : T.State) (label : String) (n : ℕ) : T.State :=
  T.appendMessage st label (.u64 n)

/-- `append_scalar`. -/
def appendScalar (st : T.State) (label : String) (x : F) : T.State :=
  T.appendMessage st label (.scalar x)

/-- `append_scalars`. -/
def appendScalars (st : T.State) (label : String) (xs : List F) : T.State :=
  let st := T.appendMessage st label (.bytes "begin_append_vector")
  let st := xs.foldl (fun st x => T.appendScalar st label x) st
  T.appendMessage st label (.bytes "end_append_vector")

/-- `append_point`. -/
def appendPoint (st : T.State) (label : String) (c : C) : T.State :=
  T.appendMessage st label (.point c)

/-- `challenge_vector`. -/
def challengeVector (st : T.State) (label : String) : ℕ → List F × T.State
  | 0 => ([], st)
  | n + 1 =>
      let (x, st) := T.challengeScalar st label
      let (xs, st) := challengeVector st label n
      (x :: xs, st)

theorem length_challengeVector (st : T.State) (label : String) (n : ℕ) :
    (T.challengeVector st label n).1.length = n := by
  induction n generalizing st with
  | zero => rfl
  | succ n ih =>
      rw [challengeVector, List.length_cons]
      exact congrArg (· + 1) (ih _)

end Append

end Transcript

/-! ## Dense polynomials and values at a point -/

section Dense

variable {F : Type} [Field F]

/-- `DensePolynomial::new`; the number of variables is rounded up. -/
def denseNew {E : Type} (Z : List F) : Run E (DensePolynomial F) := do
  let numVars ← log2 Z.length
  .ok ⟨numVars, Z⟩

/-- The entries that `bound_poly_var_top` leaves. -/
def boundTop (Z : List F) (r : F) : List F :=
  let n := Z.length / 2
  (List.range n).map fun i => Z.getD i 0 + r * (Z.getD (i + n) 0 - Z.getD i 0)

/-- `DensePolynomial::bound_poly_var_top` on tables that are bound together. -/
def boundPolyVarTop {E : Type} {k : ℕ} (polys : Fin k → DensePolynomial F) (r : F) :
    Run E (Fin k → DensePolynomial F) := do
  Run.assert (∀ j, 0 < (polys j).numVars)
  .ok fun j => ⟨(polys j).numVars - 1, boundTop (polys j).Z r⟩

/-- The entries that `bound_poly_var_bot` leaves. -/
def boundBot (Z : List F) (r : F) : List F :=
  (List.range (Z.length / 2)).map fun i =>
    Z.getD (2 * i) 0 + r * (Z.getD (2 * i + 1) 0 - Z.getD (2 * i) 0)

/-- `DensePolynomial::bound_poly_var_bot`. -/
def boundPolyVarBot {E : Type} (poly : DensePolynomial F) (r : F) :
    Run E (DensePolynomial F) := do
  Run.assert (0 < poly.numVars)
  .ok ⟨poly.numVars - 1, boundBot poly.Z r⟩

theorem clog_two_pow (n : ℕ) : Nat.clog 2 (2 ^ n) = n := Nat.clog_pow 2 n (by decide)

variable {Z : List F}

variable {E : Type}

omit [Field F] in
theorem denseNew_eq {n : ℕ} (h : Z.length = 2 ^ n) :
    (denseNew Z : Run E _) = .ok ⟨n, Z⟩ := by
  have hpos := Nat.two_pow_pos n
  exact bind_eq_ok.mpr ⟨n, log2_eq_ok.mpr ⟨by omega, by rw [h, clog_two_pow]⟩, rfl⟩

theorem boundPolyVarTop_eq {k : ℕ} {polys : Fin k → DensePolynomial F}
    (h : ∀ j, 0 < (polys j).numVars) (r : F) : (boundPolyVarTop polys r : Run E _) =
      .ok fun j => ⟨(polys j).numVars - 1, boundTop (polys j).Z r⟩ :=
  bind_eq_ok.mpr ⟨(), assert_eq_ok.mpr h, rfl⟩

variable {poly : DensePolynomial F}

theorem boundPolyVarBot_eq (h : 0 < poly.numVars) (r : F) :
    (boundPolyVarBot poly r : Run E _) = .ok ⟨poly.numVars - 1, boundBot poly.Z r⟩ :=
  bind_eq_ok.mpr ⟨(), assert_eq_ok.mpr h, rfl⟩

theorem length_boundTop {n : ℕ} (h : Z.length = 2 ^ (n + 1)) (r : F) :
    (boundTop Z r).length = 2 ^ n := by
  rw [boundTop, List.length_map, List.length_range, h, pow_succ, Nat.mul_div_cancel _ two_pos]

theorem length_boundBot {n : ℕ} (h : Z.length = 2 ^ (n + 1)) (r : F) :
    (boundBot Z r).length = 2 ^ n := by
  rw [boundBot, List.length_map, List.length_range, h, pow_succ, Nat.mul_div_cancel _ two_pos]

variable {n i : ℕ}

theorem getD_map_range (f : ℕ → F) (hi : i < n) :
    ((List.range n).map f).getD i 0 = f i := by
  have hlen : i < ((List.range n).map f).length := by rwa [List.length_map, List.length_range]
  rw [List.getD_eq_getElem _ _ hlen, List.getElem_map, List.getElem_range]

theorem getD_boundTop (h : Z.length = 2 ^ (n + 1)) (hi : i < 2 ^ n) (r : F) :
    (boundTop Z r).getD i 0 =
      Z.getD i 0 + r * (Z.getD (2 ^ n + i) 0 - Z.getD i 0) := by
  have hhalf : Z.length / 2 = 2 ^ n := by rw [h, pow_succ, Nat.mul_div_cancel _ two_pos]
  rw [boundTop, hhalf, getD_map_range _ hi, add_comm i]

theorem getD_boundBot (h : Z.length = 2 ^ (n + 1)) (hi : i < 2 ^ n) (r : F) :
    (boundBot Z r).getD i 0 =
      Z.getD (2 * i) 0 + r * (Z.getD (2 * i + 1) 0 - Z.getD (2 * i) 0) := by
  have hhalf : Z.length / 2 = 2 ^ n := by rw [h, pow_succ, Nat.mul_div_cancel _ two_pos]
  rw [boundBot, hhalf, getD_map_range _ hi]

/-- The value of the multilinear polynomial with these evaluations. -/
def valueAt (Z r : List F) : F := Nova.dotProduct Z (eqEvals r)

theorem evaluate_eq {r : List F} (hr : r.length = poly.numVars)
    (hZ : poly.Z.length = 2 ^ poly.numVars) :
    (poly.evaluate r : Run E F) = .ok (valueAt poly.Z r) := by
  refine bind_eq_ok.mpr ⟨(), assert_eq_ok.mpr hr, bind_eq_ok.mpr ⟨(), assert_eq_ok.mpr ?_, rfl⟩⟩
  rw [length_eqEvals, hr, hZ]

theorem valueAt_nil (h : Z.length = 1) : valueAt Z [] = Z.getD 0 0 := by
  obtain ⟨a, rfl⟩ := List.length_eq_one_iff.mp h
  simp [valueAt, Nova.dotProduct, eqEvals]

/-- **Binding the first variable.** -/
theorem valueAt_cons (r : F) {rs : List F} (h : Z.length = 2 ^ (rs.length + 1)) :
    valueAt Z (r :: rs) = valueAt (boundTop Z r) rs := by
  have hhalves : (Z.take (2 ^ rs.length)).length = (Z.drop (2 ^ rs.length)).length := by
    rw [List.length_take, List.length_drop, h, pow_succ]
    omega
  have hlen : (comb (1 - r) r (Z.take (2 ^ rs.length)) (Z.drop (2 ^ rs.length))).length =
      2 ^ rs.length := by
    rw [length_comb_of_eq hhalves, List.length_take, h, pow_succ]
    omega
  rw [valueAt, dotProduct_eqEvals_cons h, valueAt]
  congr 1
  apply ext_getD
  · rw [hlen, length_boundTop h]
  · intro i hi
    rw [hlen] at hi
    have htake : (Z.take (2 ^ rs.length)).getD i 0 = Z.getD i 0 := by
      simp only [List.getD_eq_getElem?_getD, List.getElem?_take, if_pos hi]
    have hdrop : (Z.drop (2 ^ rs.length)).getD i 0 = Z.getD (2 ^ rs.length + i) 0 := by
      simp only [List.getD_eq_getElem?_getD, List.getElem?_drop]
    rw [getD_comb hhalves, getD_boundTop h hi, htake, hdrop]
    ring

theorem getD_evalsRound (evals : List F) (r : F) (i : ℕ) :
    (evalsRound evals r).getD (2 * i) 0 = evals.getD i 0 - evals.getD i 0 * r ∧
      (evalsRound evals r).getD (2 * i + 1) 0 = evals.getD i 0 * r := by
  induction evals generalizing i with
  | nil => simp [evalsRound]
  | cons e evals ih =>
      cases i with
      | zero => simp [evalsRound]
      | succ i =>
          obtain ⟨heven, hodd⟩ := ih i
          have hidx : 2 * (i + 1) = 2 * i + 1 + 1 := by omega
          rw [hidx, List.getD_cons_succ, ← heven]
          constructor
          · rfl
          · rw [← hodd]
            rfl

/-- **Binding the last variable.** -/
theorem valueAt_concat {rs : List F} (h : Z.length = 2 ^ (rs.length + 1)) (r : F) :
    valueAt Z (rs ++ [r]) = valueAt (boundBot Z r) rs := by
  have heq : eqEvals (rs ++ [r]) = evalsRound (eqEvals rs) r := List.foldl_append
  rw [valueAt, valueAt, heq, dotProduct_eq_sum, dotProduct_eq_sum, h, sum_range_two_pow,
    length_boundBot h]
  apply Finset.sum_congr rfl
  intro i hi
  obtain ⟨heven, hodd⟩ := getD_evalsRound (eqEvals rs) r i
  rw [heven, hodd, getD_boundBot h (Finset.mem_range.mp hi)]
  ring

end Dense

end NexusVm.Spartan
