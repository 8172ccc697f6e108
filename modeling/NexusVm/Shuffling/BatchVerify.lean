import NexusVm.LinearForms
import NexusVm.Shuffling.ChaumPedersen

/-!
# Batches of Chaum-Pedersen proofs

`batch_verify_chaum_pedersen` of `nova/src/shuffling/chaum_pedersen.rs`.  The equations of all proofs
are added up with random coefficients.
-/

namespace NexusVm.Shuffling

open LinearForms

/-- `Rng`, as far as scalars are drawn from it. -/
structure Rng (F : Type) where
  State : Type
  rand : State → F × State

/-- A number of scalars, one drawn after the other. -/
def Rng.sample {F : Type} (R : Rng F) : ℕ → R.State → List F × R.State
  | 0, rng => ([], rng)
  | n + 1, rng =>
      let first := R.rand rng
      let rest := R.sample n first.2
      (first.1 :: rest.1, rest.2)

/-- The scalars come from a tape, then zeros. -/
abbrev Rng.tape (F : Type) [Zero F] : Rng F where
  State := List F
  rand tape := (tape.headD 0, tape.tail)

theorem Rng.length_sample {F : Type} (R : Rng F) (n : ℕ) (rng : R.State) :
    (R.sample n rng).1.length = n := by
  induction n generalizing rng with
  | zero => rfl
  | succ n ih => rw [Rng.sample, List.length_cons, ih]

theorem Rng.sample_tape {F : Type} [Zero F] {n : ℕ} {tape : List F} (h : tape.length = n) :
    ((Rng.tape F).sample n tape).1 = tape := by
  induction tape generalizing n with
  | nil =>
      obtain rfl := h
      rfl
  | cons x tape ih =>
      obtain rfl := h
      show x :: ((Rng.tape F).sample tape.length tape).1 = _
      rw [ih rfl]

section Batch

variable {p : ℕ} {C : Type} [AddCommGroup C] [Module (ZMod p) C] (S : Sponge (ZMod p))
  (G : CurveGroup p C)

/-- The accumulated values of the batched equations. -/
structure Accumulated (p : ℕ) (C : Type) where
  z : ZMod p
  tG : C
  tH : C
  alpha : C
  beta : C

/-- The body of the loop. -/
def accumulate (acc : Accumulated p C) (entry : (ChaumPedersenProof p C × C × C) × ZMod p) :
    Accumulated p C :=
  let proof := entry.1.1
  let alpha := entry.1.2.1
  let beta := entry.1.2.2
  let rho := entry.2
  let challenge := computeChallenge S G proof.tG proof.tH
  { z := acc.z + rho * proof.z
    tG := acc.tG + rho • proof.tG
    tH := acc.tH + rho • proof.tH
    alpha := acc.alpha + (rho * challenge) • alpha
    beta := acc.beta + (rho * challenge) • beta }

/-- `batch_verify_chaum_pedersen`, with the generator after its calls. -/
def batchVerifyChaumPedersen [DecidableEq C] (R : Rng (ZMod p))
    (proofs : List (ChaumPedersenProof p C)) (g h : C) (alphas betas : List C) (rng : R.State) :
    Bool × R.State :=
  if proofs.length ≠ alphas.length ∨ proofs.length ≠ betas.length ∨ proofs.isEmpty then (false, rng)
  else
    let rhos := R.sample proofs.length rng
    let acc := ((proofs.zip (alphas.zip betas)).zip rhos.1).foldl (accumulate S G) ⟨0, 0, 0, 0, 0⟩
    (decide (acc.z • g = acc.tG + acc.alpha) && decide (acc.z • h = acc.tH + acc.beta), rhos.2)

/-- By how much a proof fails the equation for the first base. -/
def defectG (g : C) (stmt : ChaumPedersenProof p C × C × C) : C :=
  stmt.1.z • g - (stmt.1.tG + computeChallenge S G stmt.1.tG stmt.1.tH • stmt.2.1)

/-- By how much it fails the equation for the second base. -/
def defectH (h : C) (stmt : ChaumPedersenProof p C × C × C) : C :=
  stmt.1.z • h - (stmt.1.tH + computeChallenge S G stmt.1.tG stmt.1.tH • stmt.2.2)

variable {S G}

theorem verify_iff_defects [DecidableEq C] {g h : C} {stmt : ChaumPedersenProof p C × C × C} :
    stmt.1.verify S G g h stmt.2.1 stmt.2.2 = true ↔
      defectG S G g stmt = 0 ∧ defectH S G h stmt = 0 := by
  rw [ChaumPedersenProof.verify_iff, defectG, defectH, sub_eq_zero, sub_eq_zero]

/-- The loop adds up the equations for both bases. -/
theorem foldl_accumulate (g h : C) (stmts : List (ChaumPedersenProof p C × C × C))
    (rhos : List (ZMod p)) (acc : Accumulated p C) :
    let out := (stmts.zip rhos).foldl (accumulate S G) acc
    out.z • g - (out.tG + out.alpha) = acc.z • g - (acc.tG + acc.alpha) +
        (List.zipWith (fun stmt rho => rho • defectG S G g stmt) stmts rhos).sum ∧
      out.z • h - (out.tH + out.beta) = acc.z • h - (acc.tH + acc.beta) +
        (List.zipWith (fun stmt rho => rho • defectH S G h stmt) stmts rhos).sum := by
  induction stmts generalizing rhos acc with
  | nil =>
      rw [List.zip_nil_left, List.zipWith_nil_left, List.zipWith_nil_left]
      exact ⟨(add_zero _).symm, (add_zero _).symm⟩
  | cons stmt stmts ih =>
      cases rhos with
      | nil =>
          rw [List.zip_nil_right, List.zipWith_nil_right, List.zipWith_nil_right]
          exact ⟨(add_zero _).symm, (add_zero _).symm⟩
      | cons rho rhos =>
          obtain ⟨hG, hH⟩ := ih rhos (accumulate S G acc (stmt, rho))
          rw [List.zip_cons_cons, List.foldl_cons, List.zipWith_cons_cons, List.zipWith_cons_cons,
            List.sum_cons, List.sum_cons]
          constructor
          · rw [hG, accumulate, defectG]
            module
          · rw [hH, accumulate, defectH]
            module

variable {stmts : List (ChaumPedersenProof p C × C × C)}

/-- **What a batch checks**: both sums of defects with the drawn coefficients vanish. -/
theorem batchVerify_iff [DecidableEq C] (R : Rng (ZMod p)) {g h : C} (hne : stmts ≠ [])
    (rng : R.State) :
    (batchVerifyChaumPedersen S G R (stmts.map (·.1)) g h (stmts.map (·.2.1)) (stmts.map (·.2.2))
      rng).1 = true ↔
      (List.zipWith (fun stmt rho => rho • defectG S G g stmt) stmts
        (R.sample stmts.length rng).1).sum = 0 ∧
      (List.zipWith (fun stmt rho => rho • defectH S G h stmt) stmts
        (R.sample stmts.length rng).1).sum = 0 := by
  have hzip : (stmts.map (·.1)).zip ((stmts.map (·.2.1)).zip (stmts.map (·.2.2))) = stmts := by
    rw [List.zip_map', List.zip_map']
    exact List.map_id _
  have hlen : ¬((stmts.map (·.1)).length ≠ (stmts.map (·.2.1)).length ∨
      (stmts.map (·.1)).length ≠ (stmts.map (·.2.2)).length ∨ (stmts.map (·.1)).isEmpty) := by
    simp [hne]
  obtain ⟨hG, hH⟩ := foldl_accumulate (S := S) (G := G) g h stmts
    (R.sample stmts.length rng).1 ⟨0, 0, 0, 0, 0⟩
  simp only [zero_smul, add_zero, sub_zero, zero_add] at hG hH
  rw [batchVerifyChaumPedersen, if_neg hlen, hzip, List.length_map]
  simp only [Bool.and_eq_true, decide_eq_true_eq]
  rw [← hG, ← hH, sub_eq_zero, sub_eq_zero]

/-! ## Forged batches -/

omit [Module (ZMod p) C] in
theorem sum_zipWith {α F : Type} {stmts : List α} {rhos : List F} (f : α → F → C)
    (hlen : rhos.length = stmts.length) : (List.zipWith f stmts rhos).sum =
      ∑ i : Fin stmts.length, f (stmts.get i) (rhos.get (i.cast hlen.symm)) := by
  have hofFn : List.zipWith f stmts rhos =
      List.ofFn fun i : Fin stmts.length => f (stmts.get i) (rhos.get (i.cast hlen.symm)) := by
    apply List.ext_getElem
    · rw [List.length_zipWith, List.length_ofFn, hlen, min_self]
    · intro k h₁ h₂
      rw [List.getElem_zipWith, List.getElem_ofFn]
      rfl
  rw [hofFn, List.sum_ofFn]

/-- Where all points are multiples of one, a sum of points is a form of the coefficients. -/
theorem exists_form [Fact p.Prime] (G : CurveGroup p C) {α : Type} (stmts : List α)
    (defect : α → C) :
    ∃ t : Fin stmts.length → ZMod p, (∀ i, t i = 0 ↔ defect (stmts.get i) = 0) ∧
      ∀ rho : Fin stmts.length → ZMod p,
        (∑ i, rho i • defect (stmts.get i) = 0 ↔ value t rho = 0) := by
  choose log hlog using fun i : Fin stmts.length => G.exists_smul (defect (stmts.get i))
  have hzero : ∀ a : ZMod p, a • G.generator = 0 ↔ a = 0 := fun a => by
    rw [smul_eq_zero, or_iff_left G.generator_ne_zero]
  refine ⟨log, fun i => ?_, fun rho => ?_⟩
  · rw [hlog i, hzero]
  · have hsum : ∑ i, rho i • defect (stmts.get i) = value log rho • G.generator := by
      rw [value, Finset.sum_smul]
      apply Finset.sum_congr rfl
      intro i _
      rw [hlog i, smul_smul, mul_comm]
    rw [hsum, hzero]

/-- The drawn coefficients, by position. -/
def Rng.coefficients (R : Rng (ZMod p)) (n : ℕ) (rng : R.State) (i : Fin n) : ZMod p :=
  (R.sample n rng).1.get (i.cast (R.length_sample n rng).symm)

theorem Rng.coefficients_tape {n : ℕ} (rho : Fin n → ZMod p) :
    (Rng.tape (ZMod p)).coefficients n (List.ofFn rho) = rho := by
  have hsample := Rng.sample_tape (List.length_ofFn (n := n) (f := rho))
  funext i
  show ((Rng.tape (ZMod p)).sample n (List.ofFn rho)).1.get _ = rho i
  rw [List.get_of_eq hsample, List.get_ofFn]
  rfl

/-- A batch is accepted exactly if two forms vanish at the coefficients; they vanish everywhere if
and only if all proofs verify. -/
theorem exists_forms [Fact p.Prime] [DecidableEq C] (g h : C) (hne : stmts ≠ []) :
    ∃ t t' : Fin stmts.length → ZMod p,
      (∀ i, (stmts.get i).1.verify S G g h (stmts.get i).2.1 (stmts.get i).2.2 = true ↔
        t i = 0 ∧ t' i = 0) ∧
      ∀ (R : Rng (ZMod p)) (rng : R.State),
        (batchVerifyChaumPedersen S G R (stmts.map (·.1)) g h (stmts.map (·.2.1))
          (stmts.map (·.2.2)) rng).1 = true ↔
        value t (R.coefficients stmts.length rng) = 0 ∧
          value t' (R.coefficients stmts.length rng) = 0 := by
  obtain ⟨t, hzero, ht⟩ := exists_form G stmts (defectG S G g)
  obtain ⟨t', hzero', ht'⟩ := exists_form G stmts (defectH S G h)
  refine ⟨t, t', fun i => ?_, fun R rng => ?_⟩
  · rw [verify_iff_defects, hzero, hzero']
  · have hlen := R.length_sample stmts.length rng
    rw [batchVerify_iff R hne, sum_zipWith _ hlen, sum_zipWith _ hlen, ← ht, ← ht']
    rfl

/-- **Batches are checked by one form.**  If all proofs verify, the batch is accepted for all
coefficients.  If some do not, there is a form that is not zero, with coefficients for proofs that
do not verify only, which vanishes whenever the batch is accepted: this is so for at most one choice
of coefficients in as many as there are scalars. -/
theorem batch_verify_linear [Fact p.Prime] [DecidableEq C] (S : Sponge (ZMod p))
    (G : CurveGroup p C) (g h : C) (stmts : List (ChaumPedersenProof p C × C × C))
    (hne : stmts ≠ []) :
    let Verifies := fun stmt : ChaumPedersenProof p C × C × C =>
      stmt.1.verify S G g h stmt.2.1 stmt.2.2 = true
    let Accepts := fun (R : Rng (ZMod p)) (rng : R.State) =>
      (batchVerifyChaumPedersen S G R (stmts.map (·.1)) g h (stmts.map (·.2.1))
        (stmts.map (·.2.2)) rng).1 = true
    ((∀ stmt ∈ stmts, Verifies stmt) → ∀ R rng, Accepts R rng) ∧
      ((∃ stmt ∈ stmts, ¬Verifies stmt) →
        ∃ t : Fin stmts.length → ZMod p, t ≠ 0 ∧ (∀ i, t i ≠ 0 → ¬Verifies (stmts.get i)) ∧
          (∀ R rng, Accepts R rng → value t (R.coefficients stmts.length rng) = 0) ∧
          Nat.card {rho : Fin stmts.length → ZMod p // Accepts (.tape _) (List.ofFn rho)} * p ≤
            p ^ stmts.length) := by
  intro Verifies Accepts
  obtain ⟨t, t', hverify, haccept⟩ := exists_forms (S := S) (G := G) g h hne
  constructor
  · intro hall R rng
    have hzero : ∀ i, t i = 0 ∧ t' i = 0 :=
      fun i => (hverify i).mp (hall _ (List.get_mem stmts i))
    obtain rfl : t = 0 := funext fun i => (hzero i).1
    obtain rfl : t' = 0 := funext fun i => (hzero i).2
    apply (haccept R rng).mpr
    simp [value]
  · rintro ⟨stmt, hmem, hfails⟩
    obtain ⟨i, rfl⟩ := List.get_of_mem hmem
    -- a form that vanishes at the coefficients of accepted batches
    have hform : ∃ s : Fin stmts.length → ZMod p, s ≠ 0 ∧ (∀ i, s i ≠ 0 → ¬Verifies (stmts.get i)) ∧
        ∀ R rng, Accepts R rng → value s (R.coefficients stmts.length rng) = 0 := by
      by_cases ht : t = 0
      · refine ⟨t', ?_, ?_, fun R rng h => ((haccept R rng).mp h).2⟩
        · rintro rfl
          exact hfails ((hverify i).mpr ⟨congrFun ht i, rfl⟩)
        · intro j hj h
          exact hj ((hverify j).mp h).2
      · refine ⟨t, ht, ?_, fun R rng h => ((haccept R rng).mp h).1⟩
        intro j hj h
        exact hj ((hverify j).mp h).1
    obtain ⟨s, hs, hproofs, hvanish⟩ := hform
    refine ⟨s, hs, hproofs, hvanish, ?_⟩
    have hcard := card_zeros_mul_card_le hs
    rw [Nat.card_zmod, Nat.card_fun, Nat.card_zmod, Nat.card_fin] at hcard
    refine (Nat.mul_le_mul_right p ?_).trans hcard
    apply Nat.card_le_card_of_injective fun rho :
        {rho : Fin stmts.length → ZMod p // Accepts (.tape _) (List.ofFn rho)} =>
      (⟨rho.1, by
        have hzero := hvanish _ _ rho.2
        rwa [Rng.coefficients_tape] at hzero⟩ : {rho // value s rho = 0})
    intro rho rho' heq
    exact Subtype.ext (congrArg (fun z : {rho // value s rho = 0} => z.1) heq)

end Batch

/-- Two proofs of which the second does not verify for the bases `1` and `1`. -/
def forgedBatch : List (ChaumPedersenProof 257 (ZMod 257) × ZMod 257 × ZMod 257) :=
  [(⟨0, 0, 0⟩, 0, 0), (⟨1, 0, 0⟩, 0, 0)]

theorem batch_verify_linear_small :
    ∃ t : Fin forgedBatch.length → ZMod 257, t ≠ 0 ∧ ∀ i, t i ≠ 0 →
      ¬(forgedBatch.get i).1.verify (Sponge.constant 1) smallGroup 1 1 (forgedBatch.get i).2.1
        (forgedBatch.get i).2.2 = true := by
  have hlinear := batch_verify_linear (Sponge.constant 1) smallGroup 1 1 forgedBatch
    (List.cons_ne_nil _ _)
  obtain ⟨t, ht, hproofs, -, -⟩ := hlinear.2
    ⟨(⟨1, 0, 0⟩, 0, 0), List.mem_cons_of_mem _ List.mem_cons_self, by decide⟩
  exact ⟨t, ht, hproofs⟩

end NexusVm.Shuffling
