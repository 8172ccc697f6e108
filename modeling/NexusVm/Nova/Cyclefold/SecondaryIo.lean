import NexusVm.Nova.Cyclefold.Refine

/-!
# Three readers of one public input

The public input of the secondary circuit holds each point by three coordinates.  The circuit reads
them as homogeneous coordinates and compares sums up to a factor, the native parser reads them as
Jacobian coordinates, and the fold in the circuit takes the first two as they are.  The three agree
on the sums of the honest prover, whose third coordinate is one.
-/

namespace NexusVm.Nova.Cyclefold

open R1cs Synth

/-- Three coordinates of a point, as `ProjectiveVar` and `Projective` keep them. -/
structure Triple (K : Type) where
  x : K
  y : K
  z : K

section Triples

variable {K : Type}

/-- The three elements of a public input from a position on. -/
def tripleAt [Zero K] (X : List K) (i : ℕ) : Triple K :=
  ⟨X.getD i 0, X.getD (i + 1) 0, X.getD (i + 2) 0⟩

/-- `ProjectiveVar::is_eq`: equal up to a factor, or both at infinity. -/
def Triple.IsEq [CommRing K] (p q : Triple K) : Prop :=
  (p.x * q.z = q.x * p.z ∧ p.y * q.z = q.y * p.z) ∨ (p.z = 0 ∧ q.z = 0)

/-- `Projective::into_affine`: the coordinates are Jacobian. -/
def Triple.intoAffine [Field K] [DecidableEq K] (t : Triple K) : AffinePoint K :=
  if t.z = 0 then ⟨0, 0, true⟩ else ⟨t.x / t.z ^ 2, t.y / t.z ^ 3, false⟩

end Triples

section Readers

variable {n b : ℕ} {G1 G2 : Type} [AddCommGroup G1] [AddCommGroup G2]

/-- How the curve library reads affine coordinates of the primary curve. -/
structure PointReader (cycle : Cycle n b G1 G2) where
  affine1_zero : cycle.affine1 0 = ⟨0, 0, true⟩
  /-- The origin of the plane is not on the curve. -/
  eq_zero_of_origin : ∀ P, (cycle.affine1 P).x = 0 → (cycle.affine1 P).y = 0 → P = 0
  /-- The point with the coordinates, after `is_on_curve` and the check of the subgroup. -/
  fromAffine : AffinePoint (ZMod b) → Option G1
  fromAffine_eq_some : ∀ p P, fromAffine p = some P ↔ cycle.affine1 P = p

variable (cycle : Cycle n b G1 G2)

/-- The homogeneous coordinates of a point. -/
def Represents (t : Triple (ZMod b)) (P : G1) : Prop :=
  if (cycle.affine1 P).infinity then t.x = 0 ∧ t.y ≠ 0 ∧ t.z = 0
  else t.z ≠ 0 ∧ t.x = (cycle.affine1 P).x * t.z ∧ t.y = (cycle.affine1 P).y * t.z

/-- The homogeneous equation of the curve, as `ProjectiveVar::new_input` enforces it: at infinity
it only says that the first coordinate is zero. -/
def OnCurve (t : Triple (ZMod b)) : Prop := t.z = 0 ∧ t.x = 0 ∨ ∃ P, Represents cycle t P

/-- An allocated point, read as a point of the curve. -/
def ReadAs (p : AffinePoint (ZMod b)) (P : G1) : Prop :=
  Represents cycle (tripleAt p.intoProjective 0) P

/-- **The secondary circuit** holds of a public input: `out.enforce_equal(&g_out)` for the computed
sum `out` of the two points that come before. -/
def SecondaryHolds (X : List (ZMod b)) : Prop :=
  ∃ (g1 g2 : G1) (out : Triple (ZMod b)), Represents cycle (tripleAt X 1) g1 ∧
    Represents cycle (tripleAt X 4) g2 ∧ OnCurve cycle (tripleAt X 7) ∧
    Represents cycle out (g1 + (X.getD (secondaryNumIo - 1) 0).val • g2) ∧
    out.IsEq (tripleAt X 7)

variable {cycle} [Fact b.Prime]

/-- `parse_projective!` of the native parser, with the elements after the point.  A slice of less
than three elements panics. -/
def PointReader.parseProjective (reader : PointReader cycle) :
    List (ZMod b) → Run Error (G1 × List (ZMod b))
  | x :: y :: z :: X =>
      match reader.fromAffine (Triple.mk x y z).intoAffine with
      | some P => .ok (P, X)
      | none => .error (.error .invalidPublicInput)
  | _ => .error .panic

/-- `R1CSInstance::parse_secondary_io`, with the `ok_or` of its callers. -/
def PointReader.parseSecondaryIo (reader : PointReader cycle) (u : R1CSInstance (ZMod b) G2) :
    Run Error (Circuit b G1) := do
  let (g1, X) ← reader.parseProjective (u.X.drop 1)
  let (g2, X) ← reader.parseProjective X
  let (gOut, X) ← reader.parseProjective X
  match X.head? with
  | some r => .ok ⟨g1, g2, gOut, r⟩
  | none => .error (.error .invalidPublicInput)

/-- Both parsers read one sum and one scalar. -/
def PointReader.Agrees (reader : PointReader cycle) (u : R1CSInstance (ZMod b) G2) : Prop :=
  ∃ circuit, reader.parseSecondaryIo u = .ok circuit ∧
    Cyclefold.parseSecondaryIo u = (circuit.r, cycle.affine1 circuit.gOut)

variable (reader : PointReader cycle)

omit [Fact b.Prime] in
include reader in
theorem PointReader.infinity_iff (P : G1) : (cycle.affine1 P).infinity = true ↔ P = 0 := by
  constructor
  · intro h
    obtain ⟨hx, hy⟩ := cycle.affine1_normal P h
    exact reader.eq_zero_of_origin P hx hy
  · rintro rfl
    rw [reader.affine1_zero]

variable {t : Triple (ZMod b)}

include reader in
theorem PointReader.represents_zero :
    Represents cycle t 0 ↔ t.x = 0 ∧ t.y ≠ 0 ∧ t.z = 0 := by
  rw [Represents, if_pos ((reader.infinity_iff 0).mpr rfl)]

include reader in
theorem PointReader.represents_of_ne {P : G1} (hP : P ≠ 0) :
    Represents cycle t P ↔
      t.z ≠ 0 ∧ t.x = (cycle.affine1 P).x * t.z ∧ t.y = (cycle.affine1 P).y * t.z := by
  rw [Represents, if_neg fun h => hP ((reader.infinity_iff P).mp h)]

include reader in
/-- Three coordinates are those of one point at most. -/
theorem PointReader.represents_unique {P Q : G1} (hP : Represents cycle t P)
    (hQ : Represents cycle t Q) : P = Q := by
  by_cases hP0 : P = 0
  · by_cases hQ0 : Q = 0
    · rw [hP0, hQ0]
    · rw [hP0, reader.represents_zero] at hP
      rw [reader.represents_of_ne hQ0] at hQ
      exact absurd hP.2.2 hQ.1
  · by_cases hQ0 : Q = 0
    · rw [hQ0, reader.represents_zero] at hQ
      rw [reader.represents_of_ne hP0] at hP
      exact absurd hQ.2.2 hP.1
    · rw [reader.represents_of_ne hP0] at hP
      rw [reader.represents_of_ne hQ0] at hQ
      obtain ⟨hz, hPx, hPy⟩ := hP
      obtain ⟨-, hQx, hQy⟩ := hQ
      have hx := mul_right_cancel₀ hz (hPx.symm.trans hQx)
      have hy := mul_right_cancel₀ hz (hPy.symm.trans hQy)
      have hfinite : (cycle.affine1 P).infinity = (cycle.affine1 Q).infinity := by
        rw [Bool.eq_iff_iff, reader.infinity_iff, reader.infinity_iff]
        exact iff_of_false hP0 hQ0
      apply cycle.affine1_injective
      generalize cycle.affine1 P = p at hx hy hfinite ⊢
      generalize cycle.affine1 Q = q at hx hy hfinite ⊢
      obtain ⟨x, y, infinity⟩ := p
      simp only at hx hy hfinite
      rw [hx, hy, hfinite]

/-! ## One sum, one instance and the two sums of a fold -/

variable {out t : Triple (ZMod b)}

include reader in
/-- A triple that the circuit accepts as a finite sum has its coordinates up to a factor, or all
three are zero. -/
theorem PointReader.isEq_of_ne {S : G1} (hS : S ≠ 0) (hout : Represents cycle out S)
    (heq : out.IsEq t) :
    t.x = (cycle.affine1 S).x * t.z ∧ t.y = (cycle.affine1 S).y * t.z := by
  rw [reader.represents_of_ne hS] at hout
  obtain ⟨hz, hx, hy⟩ := hout
  rcases heq with ⟨htx, hty⟩ | ⟨hzero, -⟩
  · rw [hx] at htx
    rw [hy] at hty
    constructor
    · exact mul_right_cancel₀ hz (by linear_combination -htx)
    · exact mul_right_cancel₀ hz (by linear_combination -hty)
  · exact absurd hzero hz

include reader in
/-- A triple that the circuit accepts as the point at infinity is at infinity. -/
theorem PointReader.isEq_zero (hout : Represents cycle out (0 : G1)) (heq : out.IsEq t) :
    t.z = 0 := by
  rw [reader.represents_zero] at hout
  obtain ⟨-, hy, hz⟩ := hout
  rcases heq with ⟨-, hty⟩ | ⟨-, htz⟩
  · rw [hz, mul_zero] at hty
    exact (mul_eq_zero.mp hty).resolve_left hy
  · exact htz

include reader in
/-- **What the fold reads of a sum**: the sum itself exactly if a finite one is normalised. -/
theorem PointReader.parse_eq_iff {S : G1} (hout : Represents cycle out S) (heq : out.IsEq t) :
    Cyclefold.parseProjective t.x t.y t.z = cycle.affine1 S ↔ (S ≠ 0 → t.z = 1) := by
  by_cases hS : S = 0
  · subst hS
    rw [Cyclefold.parseProjective, reader.affine1_zero, reader.isEq_zero hout heq]
    simp
  · obtain ⟨hx, hy⟩ := reader.isEq_of_ne hS hout heq
    have hfinite : (cycle.affine1 S).infinity = false := by
      rw [← Bool.not_eq_true, reader.infinity_iff]
      exact hS
    constructor
    · intro h _
      rw [Cyclefold.parseProjective] at h
      have hz : t.z ≠ 0 := by
        intro hz
        have hinfinity := congrArg AffinePoint.infinity h
        simp [hz, hfinite] at hinfinity
      have hxz := congrArg AffinePoint.x h
      have hyz := congrArg AffinePoint.y h
      simp only [hz, decide_false, Bool.false_eq_true, if_false] at hxz hyz
      rw [hx] at hxz
      rw [hy] at hyz
      by_contra hone
      have hfactor : t.z - 1 ≠ 0 := sub_ne_zero.mpr hone
      have hx0 : (cycle.affine1 S).x = 0 :=
        (mul_eq_zero.mp (show (cycle.affine1 S).x * (t.z - 1) = 0 by
          linear_combination hxz)).resolve_right hfactor
      have hy0 : (cycle.affine1 S).y = 0 :=
        (mul_eq_zero.mp (show (cycle.affine1 S).y * (t.z - 1) = 0 by
          linear_combination hyz)).resolve_right hfactor
      exact hS (reader.eq_zero_of_origin S hx0 hy0)
    · intro h
      have hz := h hS
      rw [hz, mul_one] at hx hy
      rw [Cyclefold.parseProjective, hx, hy, hz, decide_eq_false one_ne_zero, ← hfinite]
      simp only [hfinite, Bool.false_eq_true, if_false]
      rw [← hfinite]

/-- What the native parser reads of a normalised sum. -/
theorem PointReader.fromAffine_intoAffine {S : G1} (hout : Represents cycle out S)
    (heq : out.IsEq t) (h : S ≠ 0 → t.z = 1) :
    reader.fromAffine t.intoAffine = some S := by
  rw [reader.fromAffine_eq_some, ← (reader.parse_eq_iff hout heq).mpr h, Triple.intoAffine,
    Cyclefold.parseProjective]
  by_cases hS : S = 0
  · subst hS
    simp [reader.isEq_zero hout heq]
  · simp [h hS]

include reader in
/-- The coordinates of an allocated point are normalised. -/
theorem PointReader.fromAffine_of_readAs {p : AffinePoint (ZMod b)} {P : G1}
    (h : ReadAs cycle p P) :
    reader.fromAffine (tripleAt p.intoProjective 0).intoAffine = some P := by
  apply reader.fromAffine_intoAffine h (Or.inl ⟨rfl, rfl⟩)
  intro hP
  have hz := ((reader.represents_of_ne hP).mp h).1
  simp only [tripleAt, AffinePoint.intoProjective, List.getD_cons_succ, List.getD_cons_zero] at hz ⊢
  by_cases hinfinity : p.infinity = true
  · rw [if_pos hinfinity] at hz
    exact absurd rfl hz
  · rw [if_neg hinfinity]

theorem PointReader.parseProjective_eq_ok {x y z : ZMod b} {P : G1}
    (h : reader.fromAffine (Triple.mk x y z).intoAffine = some P) (X : List (ZMod b)) :
    reader.parseProjective (x :: y :: z :: X) = .ok (P, X) := by
  rw [PointReader.parseProjective, h]

/-- The native parser on a public input of three points and a scalar. -/
theorem PointReader.parseSecondaryIo_eq_ok {t1 t2 t : Triple (ZMod b)} {P1 P2 P : G1}
    (h1 : reader.fromAffine t1.intoAffine = some P1)
    (h2 : reader.fromAffine t2.intoAffine = some P2)
    (h : reader.fromAffine t.intoAffine = some P) (commitment_W : G2) (one r : ZMod b) :
    reader.parseSecondaryIo ⟨commitment_W,
        [one, t1.x, t1.y, t1.z, t2.x, t2.y, t2.z, t.x, t.y, t.z, r]⟩ = .ok ⟨P1, P2, P, r⟩ :=
  bind_eq_ok.mpr ⟨_, reader.parseProjective_eq_ok h1 _,
    bind_eq_ok.mpr ⟨_, reader.parseProjective_eq_ok h2 _,
      bind_eq_ok.mpr ⟨_, reader.parseProjective_eq_ok h _, rfl⟩⟩⟩

/-- **One instance**: the sum that the fold reads is the sum of the two points, and the native
parser reads the same, exactly if a finite sum is normalised. -/
theorem PointReader.instance_iff [Module (ZMod n) G1] {proof : Proof b G2}
    (hsized : Setting.ProofSized proof) {p1 p2 : AffinePoint (ZMod b)} {P1 P2 : G1}
    (h1 : ReadAs cycle p1 P1) (h2 : ReadAs cycle p2 P2)
    (hholds : SecondaryHolds cycle (fromAllocatedInput proof.U p1 p2).X) {r : ℕ} (hr : r < b)
    (hscalar : (Cyclefold.parseSecondaryIo (fromAllocatedInput proof.U p1 p2)).1 = (r : ZMod b)) :
    ((Cyclefold.parseSecondaryIo (fromAllocatedInput proof.U p1 p2)).2 =
        cycle.affine1 (P1 + (r : ZMod n) • P2) ∧
      reader.Agrees (fromAllocatedInput proof.U p1 p2)) ↔
      (P1 + (r : ZMod n) • P2 ≠ 0 →
        (fromAllocatedInput proof.U p1 p2).X.getD (secondaryNumIo - 2) 0 = 1) := by
  obtain ⟨g1, g2, out, hg1, hg2, -, hout, heq⟩ := hholds
  have hP1 : g1 = P1 := reader.represents_unique hg1 h1
  have hP2 : g2 = P2 := reader.represents_unique hg2 h2
  have hmul : ((fromAllocatedInput proof.U p1 p2).X.getD (secondaryNumIo - 1) 0).val • g2 =
      (r : ZMod n) • P2 := by
    have hX : (fromAllocatedInput proof.U p1 p2).X.getD (secondaryNumIo - 1) 0 = (r : ZMod b) :=
      hscalar
    rw [hX, ZMod.val_cast_of_lt hr, hP2, Nat.cast_smul_eq_nsmul]
  rw [hmul, hP1] at hout
  have hparse := reader.parse_eq_iff hout heq
  constructor
  · rintro ⟨hsum, -⟩
    exact hparse.mp hsum
  · intro hnormal
    have hsum := hparse.mpr hnormal
    refine ⟨hsum, ⟨P1, P2, P1 + (r : ZMod n) • P2, (r : ZMod b)⟩, ?_, Prod.ext hscalar hsum⟩
    obtain ⟨⟨commitment_W, X⟩, commitment_T⟩ := proof
    match X, hsized with
    | [one, x, y, z, scalar], _ =>
        have hr : scalar = (r : ZMod b) := hscalar
        rw [← hr]
        exact reader.parseSecondaryIo_eq_ok (reader.fromAffine_of_readAs h1)
          (reader.fromAffine_of_readAs h2) (reader.fromAffine_intoAffine hout heq hnormal)
          commitment_W 1 scalar

end Readers

section Fold

variable {n b : ℕ} {G1 G2 PP1 PP2 : Type} [Fact n.Prime] [Fact b.Prime] [AddCommGroup G1]
  [Module (ZMod n) G1] [AddCommGroup G2] [Module (ZMod b) G2]

/-- **Soundness of the commitments.**  In an assignment that satisfies the fold and both secondary
instances, the folded commitments are the sums of the commitments, and the native parser reads the
same points, exactly if each public input with a finite sum has one as its third coordinate. -/
theorem commitments_sound_iff (c : Setting n b G1 G2 PP1 PP2) (hb : 2 ^ 127 ≤ b)
    (reader : PointReader c.cycle) (vk : ZMod n) {U : RelaxedPrimaryVar n b}
    {U_secondary : RelaxedSecondaryVar b G2} {u : PrimaryVar n b}
    {commitment_T : AffinePoint (ZMod b)} {proof_secondary : Proof b G2 × Proof b G2}
    (hsized_E : Setting.ProofSized proof_secondary.1)
    (hsized_W : Setting.ProofSized proof_secondary.2)
    (hmultifold : (c.multifold vk U U_secondary u commitment_T proof_secondary true).holds)
    (hholds_E : SecondaryHolds c.cycle
      (fromAllocatedInput proof_secondary.1.U U.commitment_E commitment_T).X)
    (hholds_W : SecondaryHolds c.cycle
      (fromAllocatedInput proof_secondary.2.U U.commitment_W u.commitment_W).X) :
    let r_0 : ZMod n := (c.squeezeAfter c.ro.new
      [[vk], relaxedElements U, strictElements u,
        relaxedElementsSecondary (relaxedMap c.cycle.affine2 U_secondary),
        pointElements commitment_T]).1
    let folded := (c.multifold vk U U_secondary u commitment_T proof_secondary true).value.1
    let E := fromAllocatedInput proof_secondary.1.U U.commitment_E commitment_T
    let W := fromAllocatedInput proof_secondary.2.U U.commitment_W u.commitment_W
    ∃ P_E P_T P_W P_w : G1, ReadAs c.cycle U.commitment_E P_E ∧ ReadAs c.cycle commitment_T P_T ∧
      ReadAs c.cycle U.commitment_W P_W ∧ ReadAs c.cycle u.commitment_W P_w ∧
      ((folded.commitment_E = c.cycle.affine1 (P_E + r_0 • P_T) ∧
          folded.commitment_W = c.cycle.affine1 (P_W + r_0 • P_w) ∧
          reader.Agrees E ∧ reader.Agrees W) ↔
        (P_E + r_0 • P_T ≠ 0 → E.X.getD (secondaryNumIo - 2) 0 = 1) ∧
          (P_W + r_0 • P_w ≠ 0 → W.X.getD (secondaryNumIo - 2) 0 = 1)) := by
  intro r_0 folded E W
  obtain ⟨hscalar_E, hscalar_W⟩ := Setting.multifold_holds_iff.mp hmultifold rfl
  have hr : ∀ inputs, (c.squeezeAfter c.ro.new inputs).1 < b := fun inputs =>
    (c.squeezeAfter_lt c.ro.new inputs).trans_le hb
  obtain ⟨P_E, P_T, -, hP_E, hP_T, -⟩ := id hholds_E
  obtain ⟨P_W, P_w, -, hP_W, hP_w, -⟩ := id hholds_W
  have hiff_E := reader.instance_iff hsized_E hP_E hP_T hholds_E (hr _) hscalar_E
  have hiff_W := reader.instance_iff hsized_W hP_W hP_w hholds_W (hr _) hscalar_W
  refine ⟨P_E, P_T, P_W, P_w, hP_E, hP_T, hP_W, hP_w, ?_⟩
  rw [← hiff_E, ← hiff_W]
  constructor
  · rintro ⟨hsum_E, hsum_W, hagrees_E, hagrees_W⟩
    exact ⟨⟨hsum_E, hagrees_E⟩, hsum_W, hagrees_W⟩
  · rintro ⟨⟨hsum_E, hagrees_E⟩, hsum_W, hagrees_W⟩
    exact ⟨hsum_E, hsum_W, hagrees_E, hagrees_W⟩

end Fold

/-! ## Numbers as points -/

section Numbers

open Bn254

/-- The number with the given digits. -/
def undigits {m k : ℕ} (p : AffinePoint (ZMod k)) : ZMod m :=
  if p.infinity then 0 else ((p.x.val + k * p.y.val : ℕ) : ZMod m)

theorem digits_val {m k : ℕ} [NeZero m] (hm : m ≤ k ^ 2) {P : ZMod m} (hP : P ≠ 0) :
    (digits P : AffinePoint (ZMod k)).x.val = P.val % k ∧
      (digits P : AffinePoint (ZMod k)).y.val = P.val / k := by
  have hlt : P.val / k < k :=
    Nat.div_lt_of_lt_mul ((ZMod.val_lt P).trans_le (hm.trans_eq (pow_two k)))
  rw [digits, if_neg hP]
  exact ⟨ZMod.val_natCast k _, ZMod.val_cast_of_lt hlt⟩

theorem undigits_digits {m k : ℕ} [NeZero m] (hm : m ≤ k ^ 2) (P : ZMod m) :
    undigits (digits P : AffinePoint (ZMod k)) = P := by
  by_cases hP : P = 0
  · rw [hP, digits, if_pos rfl]
    rfl
  · obtain ⟨hx, hy⟩ := digits_val hm hP
    have hfinite : (digits P : AffinePoint (ZMod k)).infinity = false := by rw [digits, if_neg hP]
    rw [undigits, hx, hy, hfinite, Nat.mod_add_div, if_neg Bool.false_ne_true,
      ZMod.natCast_zmod_val]

/-- The numbers are read from their digits. -/
def numberReader (n b : ℕ) [Fact n.Prime] [Fact b.Prime] (hn : n ≤ b ^ 2) (hb : b ≤ n ^ 2) :
    PointReader (numberCycle n b hn hb) where
  affine1_zero := if_pos rfl
  eq_zero_of_origin P hx hy := by
    by_contra hP
    obtain ⟨hxval, hyval⟩ := digits_val hn hP
    have hx0 : (digits P : AffinePoint (ZMod b)).x = 0 := hx
    have hy0 : (digits P : AffinePoint (ZMod b)).y = 0 := hy
    rw [hx0, ZMod.val_zero] at hxval
    rw [hy0, ZMod.val_zero] at hyval
    have hzero : P.val = 0 := by rw [← Nat.div_add_mod P.val b, ← hxval, ← hyval, mul_zero]
    exact hP ((ZMod.val_eq_zero P).mp hzero)
  fromAffine p := if digits (undigits p : ZMod n) = p then some (undigits p) else none
  fromAffine_eq_some p P := by
    constructor
    · intro h
      split_ifs at h with hp
      obtain rfl := Option.some.inj h
      exact hp
    · intro h
      have hdigits : digits P = p := h
      have hp : undigits p = P := by
        rw [← hdigits]
        exact undigits_digits hn P
      rw [hp, if_pos hdigits]

/-- The digits of a small number. -/
theorem digits_natCast {m k a : ℕ} (hpos : 0 < a) (hm : a < m) (hk : a < k) :
    (digits (a : ZMod m) : AffinePoint (ZMod k)) = ⟨(a : ZMod k), 0, false⟩ := by
  have hne : (a : ZMod m) ≠ 0 := by
    intro h
    have hdvd := Nat.le_of_dvd hpos ((ZMod.natCast_eq_zero_iff a m).mp h)
    omega
  rw [digits, if_neg hne, ZMod.val_cast_of_lt hm, Nat.div_eq_of_lt hk, Nat.cast_zero]

/-- An allocated trace with the given sum and the scalar `5`. -/
def fiveTrace (t : Triple (ZMod fq)) : Proof fq (ZMod fq) :=
  ⟨⟨0, [1, t.x, t.y, t.z, ((5 : ℕ) : ZMod fq)]⟩, 0⟩

/-- The point at infinity. -/
def infinityPoint : AffinePoint (ZMod fq) := ⟨0, 0, true⟩

theorem readAs_infinityPoint : ReadAs bn254Setting.cycle infinityPoint 0 :=
  (PointReader.represents_zero (numberReader fr fq (by decide) (by decide))).mpr
    ⟨rfl, one_ne_zero, rfl⟩

/-- Homogeneous coordinates of a small number. -/
theorem represents_natCast {a : ℕ} (hpos : 0 < a) (hr : a < fr) (hq : a < fq) {z : ZMod fq}
    (hz : z ≠ 0) : Represents bn254Setting.cycle ⟨a * z, 0, z⟩ (a : ZMod fr) := by
  have hdigits : bn254Setting.cycle.affine1 (a : ZMod fr) = ⟨a, 0, false⟩ :=
    digits_natCast hpos hr hq
  rw [Represents, hdigits, if_neg Bool.false_ne_true]
  exact ⟨hz, rfl, (zero_mul z).symm⟩

/-- The accumulator at infinity and the point `1` with any homogeneous coordinates of the sum. -/
theorem secondaryHolds_five {z : ZMod fq} (hz : z ≠ 0) : SecondaryHolds bn254Setting.cycle
    (fromAllocatedInput (fiveTrace ⟨((5 : ℕ) : ZMod fq) * z, 0, z⟩).U infinityPoint
      ⟨((1 : ℕ) : ZMod fq), 0, false⟩).X := by
  have hone := represents_natCast one_pos (by decide) (by decide) (one_ne_zero (α := ZMod fq))
  have hfive : ∀ z : ZMod fq, z ≠ 0 →
      Represents bn254Setting.cycle ⟨((5 : ℕ) : ZMod fq) * z, 0, z⟩ ((5 : ℕ) : ZMod fr) := fun z =>
    represents_natCast (by decide) (by decide) (by decide)
  rw [mul_one] at hone
  have hsum : (0 : ZMod fr) + ((5 : ℕ) : ZMod fq).val • ((1 : ℕ) : ZMod fr) =
      ((5 : ℕ) : ZMod fr) := by
    rw [ZMod.val_cast_of_lt (by decide), zero_add, nsmul_eq_mul, Nat.cast_one, mul_one]
  refine ⟨0, ((1 : ℕ) : ZMod fr), ⟨((5 : ℕ) : ZMod fq) * 1, 0, 1⟩, readAs_infinityPoint, hone,
    Or.inr ⟨_, hfive z hz⟩, ?_, Or.inl ⟨?_, ?_⟩⟩
  · exact (congrArg (Represents bn254Setting.cycle _) hsum).mpr (hfive 1 one_ne_zero)
  · show ((5 : ℕ) : ZMod fq) * 1 * z = ((5 : ℕ) : ZMod fq) * z * 1
    ring
  · show (0 : ZMod fq) * z = 0 * 1
    ring

/-- The sum of two points at infinity. -/
theorem secondaryHolds_infinity : SecondaryHolds bn254Setting.cycle
    (fromAllocatedInput (fiveTrace ⟨0, 1, 0⟩).U infinityPoint infinityPoint).X := by
  refine ⟨0, 0, ⟨0, 1, 0⟩, readAs_infinityPoint, readAs_infinityPoint, Or.inl ⟨rfl, rfl⟩, ?_,
    Or.inr ⟨rfl, rfl⟩⟩
  rw [nsmul_zero, add_zero]
  exact readAs_infinityPoint

/-- The fold of default accumulators with the trace of the error given. -/
def fiveFold (t : Triple (ZMod fq)) : Synth (RelaxedPrimaryVar fr fq ×
    RelaxedSecondaryVar fq (ZMod fq)) :=
  bn254Setting.multifold 7 ⟨infinityPoint, infinityPoint, [0, 0]⟩
    ⟨0, 0, List.replicate secondaryNumIo 0⟩ ⟨infinityPoint, [1, 0]⟩ ⟨((1 : ℕ) : ZMod fq), 0, false⟩
    (fiveTrace t, fiveTrace ⟨0, 1, 0⟩) true

theorem fiveTrace_sized (t : Triple (ZMod fq)) : Setting.ProofSized (fiveTrace t) := rfl

theorem fiveFold_holds (t : Triple (ZMod fq)) : (fiveFold t).holds :=
  Setting.multifold_holds_iff.mpr fun _ => ⟨rfl, rfl⟩

/-- **A sum with a factor.**  The sum `5 = 0 + 5 * 1` with the homogeneous coordinates `(10, 0, 2)`
satisfies everything and is read as the point `10`. -/
theorem unnormalised_sum_accepted :
    (fiveFold ⟨((5 : ℕ) : ZMod fq) * 2, 0, 2⟩).holds ∧
      SecondaryHolds bn254Setting.cycle
        (fromAllocatedInput (fiveTrace ⟨((5 : ℕ) : ZMod fq) * 2, 0, 2⟩).U infinityPoint
          ⟨((1 : ℕ) : ZMod fq), 0, false⟩).X ∧
      SecondaryHolds bn254Setting.cycle
        (fromAllocatedInput (fiveTrace ⟨0, 1, 0⟩).U infinityPoint infinityPoint).X ∧
      (fiveFold ⟨((5 : ℕ) : ZMod fq) * 2, 0, 2⟩).value.1.commitment_E =
        bn254Setting.cycle.affine1 ((10 : ℕ) : ZMod fr) ∧
      (fiveFold ⟨((5 : ℕ) : ZMod fq) * 2, 0, 2⟩).value.1.commitment_E ≠
        bn254Setting.cycle.affine1 ((5 : ℕ) : ZMod fr) := by
  have htwo : (2 : ZMod fq) ≠ 0 := by decide
  have hten : (fiveFold ⟨((5 : ℕ) : ZMod fq) * 2, 0, 2⟩).value.1.commitment_E =
      bn254Setting.cycle.affine1 ((10 : ℕ) : ZMod fr) := by
    have hdigits : bn254Setting.cycle.affine1 ((10 : ℕ) : ZMod fr) =
        ⟨((10 : ℕ) : ZMod fq), 0, false⟩ :=
      digits_natCast (show 0 < 10 by decide) (show 10 < fr by decide) (show 10 < fq by decide)
    rw [hdigits]
    show parseProjective (((5 : ℕ) : ZMod fq) * 2) 0 2 = _
    rw [parseProjective, decide_eq_false htwo]
    norm_num
  refine ⟨fiveFold_holds _, secondaryHolds_five htwo, secondaryHolds_infinity, hten, ?_⟩
  rw [hten]
  intro h
  have hnum := bn254Setting.cycle.affine1_injective h
  exact absurd hnum (by decide)

/-- The same fold with a normalised sum. -/
theorem commitments_sound_five :
    ∃ P_E P_T : ZMod fr, ReadAs bn254Setting.cycle infinityPoint P_E ∧
      ReadAs bn254Setting.cycle ⟨((1 : ℕ) : ZMod fq), 0, false⟩ P_T ∧
      (fiveFold ⟨((5 : ℕ) : ZMod fq) * 1, 0, 1⟩).value.1.commitment_E =
        bn254Setting.cycle.affine1 (P_E + ((5 : ℕ) : ZMod fr) • P_T) := by
  obtain ⟨P_E, P_T, P_W, P_w, hP_E, hP_T, hP_W, hP_w, hiff⟩ := commitments_sound_iff bn254Setting
    (by decide) (numberReader fr fq (by decide) (by decide)) 7 (fiveTrace_sized _)
    (fiveTrace_sized _) (fiveFold_holds ⟨((5 : ℕ) : ZMod fq) * 1, 0, 1⟩)
    (secondaryHolds_five one_ne_zero) secondaryHolds_infinity
  have hreader := numberReader fr fq (by decide) (by decide)
  have hzero_W : P_W = 0 := PointReader.represents_unique hreader hP_W readAs_infinityPoint
  have hzero_w : P_w = 0 := PointReader.represents_unique hreader hP_w readAs_infinityPoint
  refine ⟨P_E, P_T, hP_E, hP_T, (hiff.mpr ⟨fun _ => rfl, fun hne => ?_⟩).1⟩
  rw [hzero_W, hzero_w, smul_zero, add_zero] at hne
  exact absurd rfl hne

end Numbers

end NexusVm.Nova.Cyclefold
