import NexusVm.Nova.Complete

/-!
# Soundness of the sumcheck

A false claim that is accepted leaves a wrong evaluation, or a challenge is a
root of the difference between the polynomial that was sent in its round and the
true one.
-/

namespace NexusVm.Nova.Sumcheck

open Polynomial

section Partial

variable {F : Type} [Field F] {n : ℕ}

/-- Coordinates that begin with `rs` and go on with the bits of `b`. -/
def assign (rs : List F) (b j : ℕ) : F :=
  if j < rs.length then rs.getD j 0 else if b.testBit (j - rs.length) then 1 else 0

/-- The sum of a polynomial over its variables after the first ones. -/
noncomputable def partialSum (P : MvPolynomial (Fin n) F) (rs : List F) : F :=
  ∑ b ∈ Finset.range (2 ^ (n - rs.length)), MvPolynomial.eval (fun j : Fin n => assign rs b j) P

/-- The polynomial of a round: the sum over the variables after the next one. -/
noncomputable def truePoly (P : MvPolynomial (Fin n) F) (rs : List F) : F[X] :=
  ∑ b ∈ Finset.range (2 ^ (n - (rs.length + 1))),
    MvPolynomial.aeval (fun j : Fin n =>
      if (j : ℕ) = rs.length then X else C (assign (rs ++ [0]) b j)) P

theorem assign_concat (rs : List F) (r : F) (b j : ℕ) :
    assign (rs ++ [r]) b j = if j = rs.length then r else assign (rs ++ [0]) b j := by
  unfold assign
  rw [List.length_append, List.length_append, List.length_singleton, List.length_singleton]
  rcases lt_trichotomy j rs.length with hlt | heq | hgt
  · rw [if_neg hlt.ne, if_pos (Nat.lt_succ_of_lt hlt), if_pos (Nat.lt_succ_of_lt hlt),
      List.getD_append _ _ _ _ hlt, List.getD_append _ _ _ _ hlt]
  · rw [if_pos heq, if_pos (by omega), heq, List.getD_append_right _ _ _ _ le_rfl, Nat.sub_self]
    rfl
  · have hnot : ¬ j < rs.length + 1 := by omega
    rw [if_neg hgt.ne', if_neg hnot, if_neg hnot]

/-- A bit of an index is the next coordinate. -/
theorem assign_bit (rs : List F) (b : ℕ) (c : Bool) (j : ℕ) :
    assign rs (2 * b + c.toNat) j = assign (rs ++ [if c then 1 else 0]) b j := by
  rw [assign_concat]
  unfold assign
  rw [List.length_append, List.length_singleton]
  have hbit : (2 * b + c.toNat).testBit 0 = c := by
    rw [Nat.testBit_zero]
    cases c <;> simp
  have hdiv : (2 * b + c.toNat) / 2 = b := by
    have hc : c.toNat ≤ 1 := Bool.toNat_le c
    omega
  rcases lt_trichotomy j rs.length with hlt | heq | hgt
  · rw [if_neg hlt.ne, if_pos hlt, if_pos (Nat.lt_succ_of_lt hlt), List.getD_append _ _ _ _ hlt]
  · rw [if_pos heq, heq, if_neg (lt_irrefl _), Nat.sub_self, hbit]
  · have hsub : j - rs.length = j - (rs.length + 1) + 1 := by omega
    have hnot : ¬ j < rs.length + 1 := by omega
    rw [if_neg hgt.ne', if_neg hgt.not_gt, if_neg hnot, hsub, Nat.testBit_succ, hdiv]

/-- The value of a round's polynomial is the partial sum after it. -/
theorem eval_truePoly (P : MvPolynomial (Fin n) F) (rs : List F) (r : F) :
    (truePoly P rs).eval r = partialSum P (rs ++ [r]) := by
  rw [truePoly, partialSum, eval_finsetSum, List.length_append, List.length_singleton]
  apply Finset.sum_congr rfl
  intro b _
  have hhom : (evalRingHom r).comp (MvPolynomial.aeval fun j : Fin n =>
      if (j : ℕ) = rs.length then (X : F[X]) else C (assign (rs ++ [0]) b j)).toRingHom =
      MvPolynomial.eval fun j : Fin n => assign (rs ++ [r]) b j := by
    apply MvPolynomial.ringHom_ext
    · intro a
      simp
    · intro j
      have hassign := assign_concat rs r b j
      by_cases hj : (j : ℕ) = rs.length
      · rw [if_pos hj, hj] at hassign
        simp [hj, hassign]
      · rw [if_neg hj] at hassign
        simp [hj, hassign]
  exact congrArg (fun f => f P) hhom

variable {rs : List F}

/-- The two halves of a partial sum. -/
theorem partialSum_eq_add (P : MvPolynomial (Fin n) F) (h : rs.length < n) :
    partialSum P rs = partialSum P (rs ++ [0]) + partialSum P (rs ++ [1]) := by
  have hsub : n - rs.length = n - (rs.length + 1) + 1 := by omega
  have hzero : ∀ b, (fun j : Fin n => assign rs (2 * b) j) =
      fun j : Fin n => assign (rs ++ [0]) b j :=
    fun b => funext fun j => assign_bit rs b false j
  have hone : ∀ b, (fun j : Fin n => assign rs (2 * b + 1) j) =
      fun j : Fin n => assign (rs ++ [1]) b j :=
    fun b => funext fun j => assign_bit rs b true j
  rw [partialSum, hsub, sum_range_two_pow, partialSum, partialSum, List.length_append,
    List.length_append, List.length_singleton, List.length_singleton, ← Finset.sum_add_distrib]
  simp only [hzero, hone]

/-- After all variables the polynomial's value is left. -/
theorem partialSum_full (P : MvPolynomial (Fin n) F) (h : rs.length = n) :
    partialSum P rs = MvPolynomial.eval (fun j : Fin n => rs.getD j 0) P := by
  rw [partialSum, h, Nat.sub_self, pow_zero, Finset.sum_range_one]
  congr 2
  funext j
  rw [assign, if_pos (h ▸ j.isLt)]

/-- A round's degree is bounded by the degree in its variable. -/
theorem natDegree_truePoly {P : MvPolynomial (Fin n) F} {d : ℕ} (hP : ∀ j, P.degreeOf j ≤ d)
    (h : rs.length < n) : (truePoly P rs).natDegree ≤ d := by
  apply natDegree_sum_le_of_forall_le
  intro b _
  rw [MvPolynomial.aeval_def, MvPolynomial.eval₂_eq]
  apply natDegree_sum_le_of_forall_le
  intro s hs
  calc
    (algebraMap F F[X] (P.coeff s) * ∏ i ∈ s.support,
        (if (i : ℕ) = rs.length then (X : F[X]) else C (assign (rs ++ [0]) b i)) ^ s i).natDegree
      ≤ (∏ i ∈ s.support,
        (if (i : ℕ) = rs.length then (X : F[X]) else C (assign (rs ++ [0]) b i)) ^ s i).natDegree :=
        natDegree_C_mul_le _ _
    _ ≤ ∑ i ∈ s.support,
        ((if (i : ℕ) = rs.length then (X : F[X]) else C (assign (rs ++ [0]) b i))
          ^ s i).natDegree :=
        natDegree_prod_le _ _
    _ ≤ ∑ i ∈ s.support, if i = ⟨rs.length, h⟩ then s i else 0 := by
        apply Finset.sum_le_sum
        intro i _
        by_cases hi : (i : ℕ) = rs.length
        · rw [if_pos hi, if_pos (Fin.ext hi), natDegree_X_pow]
        · rw [if_neg hi, ← C_pow, natDegree_C]
          exact Nat.zero_le _
    _ ≤ s ⟨rs.length, h⟩ := by
        rw [Finset.sum_ite_eq']
        split_ifs
        · exact le_rfl
        · exact Nat.zero_le _
    _ ≤ d := (MvPolynomial.monomial_le_degreeOf _ hs).trans (hP _)

end Partial

section Sent

variable {p : ℕ} [Fact p.Prime]

/-- The polynomial that a message stands for: with its evaluations at `0, 1, ..`,
as far as these are different. -/
noncomputable def sentPoly (msg : List (ZMod p)) : (ZMod p)[X] :=
  Lagrange.interpolate (Finset.range (min msg.length p)) (fun i : ℕ => (i : ZMod p))
    (fun i : ℕ => msg.getD i 0)

theorem natCast_injOn {m : ℕ} (h : m ≤ p) :
    Set.InjOn (fun i : ℕ => (i : ZMod p)) (Finset.range m) := by
  intro i hi j hj hij
  rw [Finset.coe_range, Set.mem_Iio] at hi hj
  have hmod := (ZMod.natCast_eq_natCast_iff' i j p).mp hij
  rwa [Nat.mod_eq_of_lt (hi.trans_le h), Nat.mod_eq_of_lt (hj.trans_le h)] at hmod

variable {msg : List (ZMod p)}

/-- The polynomial of a message at a node. -/
theorem eval_sentPoly {i : ℕ} (hi : i < min msg.length p) :
    (sentPoly msg).eval (i : ZMod p) = msg.getD i 0 :=
  Lagrange.eval_interpolate_at_node _ (natCast_injOn (min_le_right _ _)) (Finset.mem_range.mpr hi)

theorem natDegree_sentPoly {d : ℕ} (h : msg.length = d + 1) :
    (sentPoly msg).natDegree ≤ d := by
  have hdeg : (sentPoly msg).degree < (min msg.length p : ℕ) := by
    have hcard := Lagrange.degree_interpolate_lt (fun i : ℕ => msg.getD i 0)
      (natCast_injOn (p := p) (min_le_right msg.length p))
    rwa [Finset.card_range] at hcard
  apply Nat.lt_succ_iff.mp
  rcases eq_or_ne (sentPoly msg) 0 with hzero | hne
  · rw [hzero, natDegree_zero]
    exact Nat.succ_pos d
  · rw [degree_eq_natDegree hne, Nat.cast_lt] at hdeg
    exact hdeg.trans_le ((min_le_left _ _).trans h.le)

/-- **The verifier evaluates the polynomial of the message.** -/
theorem interpolateUniPoly_sentPoly {E : Type} (hmsg : msg ≠ []) (x : ZMod p) :
    (interpolateUniPoly msg x : Run E _) = .ok ((sentPoly msg).eval x) := by
  obtain ⟨d, hd⟩ := Nat.exists_eq_succ_of_ne_zero (List.length_pos_of_ne_nil hmsg).ne'
  rcases Nat.lt_or_ge p msg.length with hlt | hge
  · -- more evaluations than there are points: the first with the challenge is taken
    have hmin : min msg.length p = p := min_eq_right hlt.le
    have hval : x = ((x.val : ℕ) : ZMod p) := (ZMod.natCast_zmod_val x).symm
    rw [interpolateUniPoly_of_pos (List.length_pos_of_ne_nil hmsg)]
    cases hfind : (List.range msg.length).find? fun i : ℕ => decide (x = (i : ZMod p)) with
    | none =>
        have hnone := List.find?_eq_none.mp hfind x.val
          (List.mem_range.mpr ((ZMod.val_lt x).trans hlt))
        exact absurd (decide_eq_true hval) hnone
    | some i =>
        have hx : x = (i : ZMod p) := by simpa using List.find?_some hfind
        have hfirst := (List.find?_eq_some_iff_getElem.mp hfind).2
        obtain ⟨k, hk, hget, hbefore⟩ := hfirst
        rw [List.getElem_range] at hget
        have hi : i < p := by
          by_contra hnot
          have hvalk : x.val < k := by
            rw [hget]
            exact (ZMod.val_lt x).trans_le (Nat.le_of_not_lt hnot)
          have hno := hbefore x.val hvalk
          rw [List.getElem_range, ← hval] at hno
          simp at hno
        show Except.ok (msg.getD i 0) = _
        rw [hx, eval_sentPoly (by rw [hmin]; exact hi)]
  · have hmin : min msg.length p = msg.length := min_eq_left hge
    have hlist : ((List.range (d + 1)).map fun t : ℕ => (sentPoly msg).eval (t : ZMod p)) =
        msg := by
      apply List.ext_getElem
      · rw [List.length_map, List.length_range, hd]
      · intro i hi hi'
        rw [List.getElem_map, List.getElem_range, eval_sentPoly (by rw [hmin]; exact hi'),
          List.getD_eq_getElem _ _ hi']
    have hinterp := interpolateUniPoly_eq (E := E) (natDegree_sentPoly hd)
      (fun hx => factorial_ne_zero_of_point (x := x) hx)
    rwa [hlist] at hinterp

/-! ## Rounds -/

variable {n : ℕ}

/-- The sum of a polynomial over the hypercube. -/
noncomputable def cubeSum (P : MvPolynomial (Fin n) (ZMod p)) : ZMod p :=
  ∑ b ∈ Finset.range (2 ^ n), MvPolynomial.eval (fun j : Fin n => if b.testBit j then 1 else 0) P

/-- The challenge is a root of the difference, of degree at most `d`, between the
polynomial that was sent and the true one after the challenges `rs`. -/
structure Fooled (P : MvPolynomial (Fin n) (ZMod p)) (d : ℕ) (rs : List (ZMod p))
    (msg : List (ZMod p)) (r : ZMod p) : Prop where
  ne_zero : sentPoly msg - truePoly P rs ≠ 0
  natDegree : (sentPoly msg - truePoly P rs).natDegree ≤ d
  root : (sentPoly msg - truePoly P rs).IsRoot r

variable {P : MvPolynomial (Fin n) (ZMod p)}

/-- **One round** passes a wrong sum on, or its challenge is fooled. -/
theorem fooled_of_round {d : ℕ} (hP : ∀ j, P.degreeOf j ≤ d) {rs : List (ZMod p)}
    (hrs : rs.length < n) {expected : ZMod p} (hne : expected ≠ partialSum P rs)
    {msg : List (ZMod p)} (hlen : msg.length = d + 1) (htwo : 1 < msg.length)
    (hsum : msg.getD 0 0 + msg.getD 1 0 = expected) (r : ZMod p) :
    (sentPoly msg).eval r ≠ partialSum P (rs ++ [r]) ∨ Fooled P d rs msg r := by
  have hprime : 1 < p := (Fact.out : p.Prime).one_lt
  have hzero : (sentPoly msg).eval 0 = msg.getD 0 0 := by
    have heval : (sentPoly msg).eval ((0 : ℕ) : ZMod p) = msg.getD 0 0 :=
      eval_sentPoly (by omega)
    rwa [Nat.cast_zero] at heval
  have hone : (sentPoly msg).eval 1 = msg.getD 1 0 := by
    have heval : (sentPoly msg).eval ((1 : ℕ) : ZMod p) = msg.getD 1 0 :=
      eval_sentPoly (by omega)
    rwa [Nat.cast_one] at heval
  have hdiff : sentPoly msg - truePoly P rs ≠ 0 := by
    intro heq
    apply hne
    rw [← hsum, ← hzero, ← hone, sub_eq_zero.mp heq, eval_truePoly, eval_truePoly,
      ← partialSum_eq_add P hrs]
  by_cases hr : (sentPoly msg).eval r = (truePoly P rs).eval r
  · right
    constructor
    · exact hdiff
    · exact (natDegree_sub_le _ _).trans
        (max_le (natDegree_sentPoly hlen) (natDegree_truePoly hP hrs))
    · rw [IsRoot.def, eval_sub, hr, sub_self]
  · left
    rwa [← eval_truePoly]

/-- What the checks of all rounds leave of a wrong sum. -/
theorem fooled_of_checkRounds {d : ℕ} (hP : ∀ j, P.degreeOf j ≤ d)
    {rounds : List (List (ZMod p) × ZMod p)} {rs : List (ZMod p)}
    (hlen : rs.length + rounds.length = n) {expected final : ZMod p}
    (hne : expected ≠ partialSum P rs) (hcheck : checkRounds d expected rounds = .ok final) :
    final ≠ partialSum P (rs ++ rounds.map Prod.snd) ∨
      ∃ i < rounds.length, Fooled P d (rs ++ (rounds.map Prod.snd).take i)
        ((rounds.map Prod.fst).getD i []) ((rounds.map Prod.snd).getD i 0) := by
  induction rounds generalizing rs expected with
  | nil =>
      obtain rfl := Except.ok.inj hcheck
      left
      rwa [List.map_nil, List.append_nil]
  | cons round rounds ih =>
      obtain ⟨msg, r⟩ := round
      rw [List.length_cons] at hlen
      simp only [checkRounds, bind_eq_ok, assert_eq_ok, failIf_eq_ok, exists_const, not_not]
        at hcheck
      obtain ⟨hmsg, htwo, hsum, next, hnext, hrest⟩ := hcheck
      have hne' : msg ≠ [] := List.ne_nil_of_length_pos (Nat.zero_lt_of_lt htwo)
      rw [interpolateUniPoly_sentPoly hne', Except.ok.injEq] at hnext
      rcases fooled_of_round hP (by omega) hne hmsg htwo hsum r with hwrong | hfooled
      · rw [hnext] at hwrong
        have hlen' : (rs ++ [r]).length + rounds.length = n := by
          rw [List.length_append, List.length_singleton]
          omega
        rcases ih hlen' hwrong hrest with hfinal | ⟨i, hi, hfooled⟩
        · left
          rwa [List.map_cons, List.append_cons]
        · right
          refine ⟨i + 1, Nat.succ_lt_succ hi, ?_⟩
          rwa [List.append_assoc] at hfooled
      · right
        refine ⟨0, Nat.succ_pos _, ?_⟩
        rwa [List.take_zero, List.append_nil]

variable {C B : Type} {O : RandomOracle (ZMod p) C B}

/-- The messages that a verifier receives are those of the proof. -/
theorem fst_of_verifyRounds {E : Type} {m : ℕ} {msgs : List (List (ZMod p))} {st : O.State}
    {out : List (List (ZMod p) × ZMod p) × O.State}
    (h : (verifyRounds O m msgs st : Run E _) = .ok out) :
    out.1.map Prod.fst = msgs.take m := by
  induction m generalizing msgs st out with
  | zero =>
      obtain rfl := Except.ok.inj h
      rfl
  | succ m ih =>
      cases msgs with
      | nil => cases h
      | cons msg msgs =>
          obtain ⟨out', hrest, heq⟩ := bind_eq_ok.mp h
          obtain rfl := Except.ok.inj heq
          rw [List.map_cons, ih hrest, List.take_succ_cons]

theorem cubeSum_eq (P : MvPolynomial (Fin n) (ZMod p)) : cubeSum P = partialSum P [] := by
  have hassign : ∀ b j, assign ([] : List (ZMod p)) b j = if b.testBit j then 1 else 0 :=
    fun b j => if_neg (Nat.not_lt_zero j)
  simp only [cubeSum, partialSum, hassign, List.length_nil, Nat.sub_zero]

/-- **The sumcheck is sound.**  If a sum other than the polynomial's is accepted,
the expected evaluation is not the polynomial's value at the subclaim's point, or
the challenge of a round is a root of the difference between the polynomial that
was sent and the true one. -/
theorem sumcheck_sound {info : PolynomialInfo} (hn : info.numVariables = n)
    (hP : ∀ j, P.degreeOf j ≤ info.maxMultiplicands) {claimedSum : ZMod p}
    (hne : claimedSum ≠ cubeSum P) {proof : List (List (ZMod p))} {st st' : O.State}
    {subclaim : SubClaim (ZMod p)}
    (haccept : verifyAsSubprotocol O info claimedSum proof st = .ok (subclaim, st')) :
    subclaim.expectedEvaluation ≠
        MvPolynomial.eval (fun j : Fin n => subclaim.point.getD j 0) P ∨
      ∃ i < n, Fooled P info.maxMultiplicands (subclaim.point.take i) (proof.getD i [])
        (subclaim.point.getD i 0) := by
  simp only [verifyAsSubprotocol, bind_eq_ok, assert_eq_ok, exists_const, Except.ok.injEq,
    Prod.mk.injEq] at haccept
  obtain ⟨⟨rounds, st₁⟩, hrounds, -, expected, hcheck, rfl, -⟩ := haccept
  have hlen : rounds.length = n := (length_of_verifyRounds hrounds).trans hn
  rw [cubeSum_eq] at hne
  rcases fooled_of_checkRounds hP (by rw [List.length_nil, Nat.zero_add, hlen]) hne hcheck with
    hfinal | ⟨i, hi, hfooled⟩
  · left
    rwa [List.nil_append, partialSum_full P (by rw [List.length_map, hlen])] at hfinal
  · right
    have hmsg : (rounds.map Prod.fst).getD i [] = proof.getD i [] := by
      have htake : rounds.map Prod.fst = proof.take info.numVariables := fst_of_verifyRounds hrounds
      have hlt : i < info.numVariables := hn ▸ hlen ▸ hi
      rw [htake, List.getD_eq_getElem?_getD, List.getElem?_take_of_lt hlt,
        List.getD_eq_getElem?_getD]
    rw [hmsg, List.nil_append] at hfooled
    exact ⟨i, hlen ▸ hi, hfooled⟩

/-- The sum of one variable is not zero; the challenge `0` is fooled by messages
of zeros. -/
theorem sumcheck_sound_variable : ∃ rs : List (ZMod 3),
    Fooled (MvPolynomial.X 0 : MvPolynomial (Fin 1) (ZMod 3)) 1 rs [0, 0] 0 := by
  have hsum : (0 : ZMod 3) ≠ cubeSum (MvPolynomial.X 0 : MvPolynomial (Fin 1) (ZMod 3)) := by
    simp only [cubeSum, MvPolynomial.eval_X]
    decide
  have hdegree : ∀ j, (MvPolynomial.X 0 : MvPolynomial (Fin 1) (ZMod 3)).degreeOf j ≤ 1 := by
    intro j
    rw [MvPolynomial.degreeOf_X]
    split_ifs <;> decide
  have haccept : verifyAsSubprotocol (zeroOracle (ZMod 3) Unit Unit) ⟨1, 1, 1⟩ 0 [[0, 0]] () =
      .ok (⟨[0], 0⟩, ()) := rfl
  rcases sumcheck_sound rfl hdegree hsum haccept with hwrong | ⟨i, hi, hfooled⟩
  · exact absurd (by simp) hwrong
  · obtain rfl : i = 0 := Nat.lt_one_iff.mp hi
    exact ⟨_, hfooled⟩

end Sent

end NexusVm.Nova.Sumcheck
