import NexusVm.Nova.Nimfs

/-!
# Malformed proofs of a multi-folding

What `verify_as_subprotocol` does with proofs of any lengths: how many messages there are, how
long each is, what the proof says of the polynomial, and how many sigmas and thetas it has.
-/

namespace NexusVm.Nova

namespace Sumcheck

section Rounds

variable {F C B : Type} [Field F] (O : RandomOracle F C B)

/-- The messages of the rounds are the first ones of the proof. -/
theorem exists_verifyRounds {E : Type} {n : ℕ} {msgs : List (List F)} (h : n ≤ msgs.length)
    (st : O.State) : ∃ out, (verifyRounds O n msgs st : Run E _) = .ok out ∧
      out.1.map Prod.fst = msgs.take n := by
  induction n generalizing msgs st with
  | zero => exact ⟨_, rfl, rfl⟩
  | succ n ih =>
      cases msgs with
      | nil => cases h
      | cons msg msgs =>
          obtain ⟨out, hrun, hmessages⟩ := ih (Nat.le_of_succ_le_succ h)
            (O.absorb (O.squeezeOne (O.absorb st (msg.map .scalar))).2
              [.scalar (O.squeezeOne (O.absorb st (msg.map .scalar))).1])
          refine ⟨_, bind_eq_ok.mpr ⟨out, hrun, rfl⟩, ?_⟩
          rw [List.map_cons, List.take_succ_cons, hmessages]

/-- "proof is incomplete". -/
theorem verifyRounds_eq_panic {E : Type} {n : ℕ} {msgs : List (List F)} (h : msgs.length < n)
    (st : O.State) : (verifyRounds O n msgs st : Run E _) = .error .panic := by
  induction n generalizing msgs st with
  | zero => cases h
  | succ n ih =>
      cases msgs with
      | nil => rfl
      | cons msg msgs =>
          rw [verifyRounds]
          dsimp only
          rw [ih (Nat.lt_of_succ_lt_succ h)]
          rfl

end Rounds

section Values

variable {p : ℕ} [Fact p.Prime]

/-- Over a prime field there is always a value: what would make a factorial vanish makes every
point a node. -/
theorem exists_interpolateUniPoly {E : Type} {evals : List (ZMod p)} (h : evals ≠ [])
    (x : ZMod p) : ∃ v, (interpolateUniPoly evals x : Run E (ZMod p)) = .ok v := by
  obtain ⟨d, hlen⟩ : ∃ d, evals.length = d + 1 :=
    Nat.exists_eq_succ_of_ne_zero (List.length_pos_of_ne_nil h).ne'
  by_cases hnode : ∃ k ≤ d, x = (k : ZMod p)
  · obtain ⟨k, hk, hx⟩ := hnode
    have hsome : ((List.range evals.length).find? fun i : ℕ =>
        decide (x = (i : ZMod p))).isSome := by
      rw [List.find?_isSome]
      exact ⟨k, List.mem_range.mpr (by omega), decide_eq_true hx⟩
    obtain ⟨i, hi⟩ := Option.isSome_iff_exists.mp hsome
    rw [interpolateUniPoly_of_pos (List.length_pos_of_ne_nil h), hi]
    exact ⟨_, rfl⟩
  · have hd : (d.factorial : ZMod p) ≠ 0 := factorial_ne_zero_of_point fun k hk hx =>
      hnode ⟨k, hk, hx⟩
    obtain ⟨q, hq, hvalues⟩ := exists_interpolant hd hlen
    exact ⟨q.eval x, hvalues ▸ interpolateUniPoly_eq hq fun _ => hd⟩

variable {maxMultiplicands : ℕ}

variable {rounds : List (List (ZMod p) × ZMod p)}

/-- Messages without a panic: all have the length that the proof says, and it is at least `2`. -/
theorem checkRounds_ne_panic (hpos : 0 < maxMultiplicands)
    (h : ∀ round ∈ rounds, round.1.length = maxMultiplicands + 1) (expected : ZMod p) :
    checkRounds maxMultiplicands expected rounds ≠ .error .panic := by
  induction rounds generalizing expected with
  | nil => exact ok_ne_panic expected
  | cons round rounds ih =>
      obtain ⟨evaluations, r⟩ := round
      obtain ⟨hlen, hrest⟩ := List.forall_mem_cons.mp h
      dsimp only at hlen
      have hne : evaluations ≠ [] := List.ne_nil_of_length_pos (hlen ▸ Nat.succ_pos _)
      obtain ⟨v, hv⟩ := exists_interpolateUniPoly (E := Error) hne r
      rw [checkRounds]
      simp only [bind_ne_panic_iff, assert_ne_panic_iff, hv, Except.ok.injEq]
      refine ⟨hlen, fun _ _ => ⟨by omega, fun _ _ => ⟨failIf_ne_panic, fun _ _ => ?_⟩⟩⟩
      refine ⟨ok_ne_panic v, ?_⟩
      rintro _ rfl
      exact ih hrest _

/-- The sizes of a sumcheck proof that the verifier reads without a panic. -/
structure ReadableSizes (info : PolynomialInfo) (lengths : List ℕ) : Prop where
  variables_pos : 0 < info.numVariables
  enough : info.numVariables ≤ lengths.length
  lengths_eq : ∀ len ∈ lengths.take info.numVariables, len = info.maxMultiplicands + 1
  degree_pos : 0 < info.maxMultiplicands

variable {info : PolynomialInfo}

theorem verifyAsSubprotocol_ne_panic {C B : Type} {O : RandomOracle (ZMod p) C B}
    {proof : List (List (ZMod p))} (h : ReadableSizes info (proof.map List.length))
    (claimedSum : ZMod p) (st : O.State) :
    verifyAsSubprotocol O info claimedSum proof st ≠ .error .panic := by
  have henough := h.enough
  rw [List.length_map] at henough
  obtain ⟨⟨rounds, st'⟩, hrounds, hmessages⟩ := exists_verifyRounds O (E := Error) henough
    (O.absorb st info.elements)
  have hlengths : ∀ round ∈ rounds, round.1.length = info.maxMultiplicands + 1 := by
    intro round hround
    apply h.lengths_eq
    have hmem : round.1 ∈ proof.take info.numVariables :=
      hmessages ▸ List.mem_map_of_mem hround
    rw [← List.map_take]
    exact List.mem_map_of_mem hmem
  simp only [verifyAsSubprotocol, hrounds, bind_ne_panic_iff, assert_ne_panic_iff]
  refine ⟨ok_ne_panic _, ?_⟩
  rintro _ hout
  obtain rfl := Except.ok.inj hout
  exact ⟨h.variables_pos.ne', fun _ _ => ⟨checkRounds_ne_panic h.degree_pos hlengths claimedSum,
    fun _ _ => ok_ne_panic _⟩⟩

/-! ## Proofs of zeros -/

/-- Messages of zeros of these lengths. -/
def zeroMessages (lengths : List ℕ) : List (List (ZMod p)) :=
  lengths.map fun len => List.replicate len 0

/-- Zeros interpolate to zero. -/
theorem interpolateUniPoly_zeros {E : Type} (d : ℕ) (x : ZMod p) :
    (interpolateUniPoly (List.replicate (d + 1) 0) x : Run E (ZMod p)) = .ok 0 := by
  have hzeros : ((List.range (d + 1)).map fun t : ℕ =>
      (0 : Polynomial (ZMod p)).eval (t : ZMod p)) =
      List.replicate (d + 1) 0 := by
    rw [List.eq_replicate_iff]
    simp
  have hvalue := interpolateUniPoly_eq (E := E) (q := (0 : Polynomial (ZMod p))) (d := d) (x := x)
    (by simp) factorial_ne_zero_of_point
  rwa [hzeros, Polynomial.eval_zero] at hvalue

theorem checkRounds_zeros_cons (hpos : 0 < maxMultiplicands) (r : ZMod p)
    (rounds : List (List (ZMod p) × ZMod p)) :
    checkRounds maxMultiplicands 0 ((List.replicate (maxMultiplicands + 1) 0, r) :: rounds) =
      checkRounds maxMultiplicands 0 rounds := by
  have hlen : (Run.assert ((List.replicate (maxMultiplicands + 1) (0 : ZMod p)).length =
      maxMultiplicands + 1) : Run Error Unit) = .ok () := assert_eq_ok.mpr List.length_replicate
  have hone : (Run.assert (1 < (List.replicate (maxMultiplicands + 1) (0 : ZMod p)).length) :
      Run Error Unit) = .ok () := by
    rw [assert_eq_ok, List.length_replicate]
    omega
  have hsum : Run.failIf ((List.replicate (maxMultiplicands + 1) (0 : ZMod p)).getD 0 0 +
      (List.replicate (maxMultiplicands + 1) 0).getD 1 0 ≠ 0) Error.reject = .ok () := by
    rw [failIf_eq_ok, not_not, List.getD_replicate _ (by omega), List.getD_replicate _ (by omega),
      add_zero]
  rw [checkRounds, hlen, hone, hsum, interpolateUniPoly_zeros]
  rfl

/-- Zeros of the right lengths pass all rounds, and the first other length panics. -/
theorem checkRounds_zeros (hzeros : ∀ round ∈ rounds, round.1 = List.replicate round.1.length 0)
    (h : checkRounds maxMultiplicands 0 rounds ≠ .error .panic) :
    (∀ round ∈ rounds, round.1.length = maxMultiplicands + 1 ∧ 0 < maxMultiplicands) ∧
      checkRounds maxMultiplicands 0 rounds = .ok 0 := by
  induction rounds with
  | nil => exact ⟨fun _ hround => absurd hround List.not_mem_nil, rfl⟩
  | cons round rounds ih =>
      obtain ⟨evaluations, r⟩ := round
      obtain ⟨hzero, hzeros⟩ := List.forall_mem_cons.mp hzeros
      dsimp only at hzero
      have hsizes : evaluations.length = maxMultiplicands + 1 ∧ 0 < maxMultiplicands := by
        rw [checkRounds] at h
        obtain ⟨hlen, h⟩ := bind_ne_panic_iff.mp h
        rw [assert_ne_panic_iff] at hlen
        obtain ⟨hone, -⟩ := bind_ne_panic_iff.mp (h () (assert_eq_ok.mpr hlen))
        rw [assert_ne_panic_iff] at hone
        omega
      rw [hzero, hsizes.1, checkRounds_zeros_cons hsizes.2] at h ⊢
      obtain ⟨hrest, hrun⟩ := ih hzeros h
      constructor
      · rw [List.forall_mem_cons]
        exact ⟨⟨List.length_replicate, hsizes.2⟩, hrest⟩
      · exact hrun

/-- **The sumcheck verifier on zeros**: it accepts them, or it panics. -/
theorem verifyAsSubprotocol_zeros {C B : Type} {O : RandomOracle (ZMod p) C B} {lengths : List ℕ}
    {st : O.State} (h : verifyAsSubprotocol O info 0 (zeroMessages lengths) st ≠ .error .panic) :
    ReadableSizes info lengths ∧ ∃ sub st', sub.point.length = info.numVariables ∧
      sub.expectedEvaluation = 0 ∧
      verifyAsSubprotocol O info 0 (zeroMessages lengths) st = .ok (sub, st') := by
  rw [verifyAsSubprotocol] at h ⊢
  dsimp only at h ⊢
  have henough : info.numVariables ≤ lengths.length := by
    by_contra hshort
    rw [verifyRounds_eq_panic] at h
    · exact h rfl
    · rw [zeroMessages, List.length_map]
      omega
  have hcount : info.numVariables ≤ (zeroMessages (p := p) lengths).length := by
    rw [zeroMessages, List.length_map]
    exact henough
  obtain ⟨⟨rounds, st'⟩, hrounds, hmessages⟩ := exists_verifyRounds O (E := Error) hcount
    (O.absorb st info.elements)
  have hlen := length_of_verifyRounds hrounds
  obtain ⟨-, h⟩ := bind_ne_panic_iff.mp h
  obtain ⟨hne, h⟩ := bind_ne_panic_iff.mp (h _ hrounds)
  rw [assert_ne_panic_iff] at hne
  obtain ⟨hcheck, -⟩ := bind_ne_panic_iff.mp (h () (assert_eq_ok.mpr hne))
  -- the messages of the rounds are zeros of the first lengths
  have htake : rounds.map Prod.fst = zeroMessages (lengths.take info.numVariables) := by
    rw [hmessages, zeroMessages, zeroMessages, List.map_take]
  have hzeros : ∀ round ∈ rounds, round.1 = List.replicate round.1.length 0 := by
    intro round hround
    have hmem : round.1 ∈ zeroMessages (lengths.take info.numVariables) :=
      htake ▸ List.mem_map_of_mem hround
    obtain ⟨len, -, heq⟩ := List.mem_map.mp hmem
    rw [← heq, List.length_replicate]
  obtain ⟨hsizes, hrun⟩ := checkRounds_zeros hzeros hcheck
  have hlengths : rounds.map (fun round => round.1.length) = lengths.take info.numVariables := by
    have hmap := congrArg (List.map List.length) htake
    rw [zeroMessages, List.map_map, List.map_map] at hmap
    refine hmap.trans ?_
    simp [Function.comp_def]
  refine ⟨⟨Nat.pos_of_ne_zero hne, henough, ?_, ?_⟩, ?_⟩
  · intro len hmem
    rw [← hlengths] at hmem
    obtain ⟨round, hround, rfl⟩ := List.mem_map.mp hmem
    exact (hsizes round hround).1
  · have hpos : 0 < rounds.length := by
      rw [hlen]
      exact Nat.pos_of_ne_zero hne
    obtain ⟨round, hround⟩ := List.exists_mem_of_length_pos hpos
    exact (hsizes round hround).2
  · refine ⟨⟨rounds.map Prod.snd, 0⟩, st', ?_, rfl, ?_⟩
    · rw [List.length_map]
      exact hlen
    · exact bind_eq_ok.mpr ⟨_, hrounds, bind_eq_ok.mpr ⟨(), assert_eq_ok.mpr hne,
        bind_eq_ok.mpr ⟨0, hrun, rfl⟩⟩⟩

end Values

end Sumcheck

/-! ## The verifier and runs on a small shape -/

namespace Nimfs

open Ccs

/-- The sizes of a proof, and what it says of the polynomial. -/
structure ProofSizes where
  polyInfo : Sumcheck.PolynomialInfo
  messages : List ℕ
  sigmas : ℕ
  thetas : ℕ

def NIMFSProof.sizes {F : Type} (proof : NIMFSProof F) : ProofSizes :=
  ⟨proof.polyInfo, proof.sumcheckProof.map List.length, proof.sigmas.length, proof.thetas.length⟩

section Sizes

variable {F : Type} [Field F]

/-- The most multiplicands of a product of the prover's polynomial. -/
def shapeDegree (shape : CCSShape F) : ℕ :=
  (shape.cSs.map fun cS => cS.2.length + 1).foldl max (if 0 < shape.numMatrices then 2 else 0)

/-- What the verifier should ask of a proof's sizes. -/
structure WellSized (shape : CCSShape F) (sizes : ProofSizes) : Prop where
  readable : Sumcheck.ReadableSizes sizes.polyInfo sizes.messages
  rounds : sizes.polyInfo.numVariables = safeLoglike shape.numConstraints
  selected : ∀ cS ∈ shape.cSs, ∀ j ∈ cS.2, j < sizes.thetas
  degree : sizes.sigmas = sizes.thetas → sizes.polyInfo.maxMultiplicands = shapeDegree shape

/-- `LCCSInstance::new` and `CCSInstance::new` give these instances. -/
def IsPair {C : Type} (shape : CCSShape F) (U1 : LCCSInstance F C) (U2 : CCSInstance F C) : Prop :=
  LCCSInstance.new shape U1.commitment_W U1.X U1.rs U1.vs = .ok U1 ∧
    CCSInstance.new shape U2.commitment_W U2.X = .ok U2

end Sizes

section Verifier

variable {p : ℕ} [Fact p.Prime] {C B : Type} [AddCommGroup C] [Module (ZMod p) C]
  (M : MultilinearExtensions (ZMod p)) (castFieldElement : B → ZMod p)

/-- With any oracle and any instances of the shape, a proof of these sizes does not make the
verifier panic, and is accepted only with the rounds and the degree of the shape. -/
def Robust (C : Type) [AddCommGroup C] [Module (ZMod p) C] (shape : CCSShape (ZMod p))
    (sizes : ProofSizes) : Prop :=
  ∀ (O : RandomOracle (ZMod p) C B) (st : O.State) (vk : ZMod p) (U1 : LCCSInstance (ZMod p) C)
    (U2 : CCSInstance (ZMod p) C) (proof : NIMFSProof (ZMod p)),
    IsPair shape U1 U2 → proof.sizes = sizes →
    proof.verifyAsSubprotocol M O castFieldElement vk shape U1 U2 st ≠ .error .panic ∧
    ∀ out, proof.verifyAsSubprotocol M O castFieldElement vk shape U1 U2 st = .ok out →
      proof.polyInfo.numVariables = safeLoglike shape.numConstraints ∧
      proof.polyInfo.maxMultiplicands = shapeDegree shape

variable {M} {castFieldElement}

theorem fold_ne_panic {U1 : LCCSInstance (ZMod p) C} {U2 : CCSInstance (ZMod p) C}
    (hX1 : 0 < U1.X.length) (hX2 : 0 < U2.X.length) (rho : ZMod p)
    (rs sigmas thetas : List (ZMod p)) :
    U1.fold U2 rho rs sigmas thetas ≠ .error .panic := by
  simp only [LCCSInstance.fold, bind_ne_panic_iff, assert_ne_panic_iff, hX1, hX2, true_and]
  exact ⟨failIf_ne_panic, fun _ _ => ⟨failIf_ne_panic, fun _ _ => fun _ _ => fun _ _ =>
    ok_ne_panic _⟩⟩

variable {point : List (ZMod p)}

/-- An extension is evaluated at the points of its size only. -/
theorem evaluateArk_eq_ok {E : Type} {m : M.Mle} {v : ZMod p} :
    (evaluateArk M m point : Run E (ZMod p)) = .ok v ↔
      point.length = M.numVars m ∧ M.evaluate m point = v := by
  simp only [evaluateArk, bind_eq_ok, assert_eq_ok, exists_const, Except.ok.injEq]

theorem evaluateArk_ne_panic {E : Type} {m : M.Mle} :
    (evaluateArk M m point : Run E (ZMod p)) ≠ .error .panic ↔ point.length = M.numVars m := by
  rw [evaluateArk, bind_ne_panic_iff, assert_ne_panic_iff]
  exact and_iff_left fun _ _ => ok_ne_panic _

variable {shape : CCSShape (ZMod p)} {sizes : ProofSizes}

/-- **Sizes that fit the shape.** -/
theorem robust_of_wellSized (h : WellSized shape sizes) :
    Robust M castFieldElement C shape sizes := by
  rintro O st vk U1 U2 proof ⟨hU1, hU2⟩ rfl
  obtain ⟨hX1, hrs, -⟩ := linearizedNew_eq_ok.mp hU1
  obtain ⟨hX2, -⟩ := instanceNew_eq_ok.mp hU2
  have hio := shape.numIo_pos
  have hs : 0 < safeLoglike shape.numConstraints := h.rounds ▸ h.readable.variables_pos
  obtain ⟨rho, gamma, beta, st₁, hchallenges, hbeta⟩ :=
    exists_challenges O vk shape U1 (hX2 ▸ hio) st
  obtain ⟨eqrs, heqrs⟩ := exists_eqMle (M := M) (E := Error).mpr (hrs ▸ hs)
  obtain ⟨eqb, heqb⟩ := exists_eqMle (M := M) (E := Error).mpr (hbeta ▸ hs)
  constructor
  · unfold NIMFSProof.verifyAsSubprotocol
    rw [hchallenges, bind_ne_panic_iff]
    refine ⟨ok_ne_panic _, ?_⟩
    rintro _ hout
    obtain rfl := Except.ok.inj hout
    dsimp only
    rw [bind_ne_panic_iff, mapError_ne_panic_iff]
    refine ⟨Sumcheck.verifyAsSubprotocol_ne_panic h.readable _ st₁, ?_⟩
    rintro ⟨subclaim, st₂⟩ hsub
    rw [mapError_eq_ok] at hsub
    have hpoint : subclaim.point.length = safeLoglike shape.numConstraints :=
      (Sumcheck.length_point hsub).1.trans h.rounds
    have hvarsrs : subclaim.point.length = M.numVars eqrs := by
      rw [hpoint, numVars_eqMle heqrs, hrs]
    have hvarsb : subclaim.point.length = M.numVars eqb := by
      rw [hpoint, numVars_eqMle heqb, hbeta]
    dsimp only
    simp only [heqrs, heqb, bind_ne_panic_iff, evaluateArk_ne_panic, assert_ne_panic_iff,
      mapError_ne_panic_iff, Except.ok.injEq]
    refine ⟨ok_ne_panic _, ?_⟩
    rintro _ rfl
    refine ⟨hvarsrs, fun _ _ => ⟨ok_ne_panic _, ?_⟩⟩
    rintro _ rfl
    refine ⟨hvarsb, fun _ _ => ⟨h.selected, fun _ _ => ⟨failIf_ne_panic, fun _ _ => ?_⟩⟩⟩
    exact ⟨fold_ne_panic (hX1 ▸ hio) (hX2 ▸ hio) _ _ _ _, fun _ _ => ok_ne_panic _⟩
  · intro out hout
    refine ⟨h.rounds, h.degree ?_⟩
    simp only [NIMFSProof.verifyAsSubprotocol, bind_eq_ok, mapError_eq_ok, fold_eq_ok] at hout
    obtain ⟨-, -, -, -, -, -, -, -, -, -, -, -, -, -, -, -, U, ⟨-, hlen, -⟩, -⟩ := hout
    exact hlen

/-- A vector has an extension, or the extension panics. -/
theorem exists_of_vecToArkMle_ne_panic {E : Type} {z : List (ZMod p)}
    (h : (vecToArkMle M z : Run E M.Mle) ≠ .error .panic) :
    ∃ m, (vecToArkMle M z : Run E M.Mle) = .ok m := by
  rw [vecToArkMle, bind_ne_panic_iff, assert_ne_panic_iff] at h
  obtain ⟨hpos, h⟩ := h
  have hmle := h () (assert_eq_ok.mpr hpos)
  cases hsome : M.fromEvaluationsVec (safeLoglike z.length) (reversedEvaluations z) with
  | none =>
      rw [hsome] at hmle
      exact absurd rfl hmle
  | some m =>
      refine ⟨m, bind_eq_ok.mpr ⟨(), assert_eq_ok.mpr hpos, ?_⟩⟩
      rw [hsome]

/-- Zeros against any powers. -/
theorem sum_zipWith_zeros (gamma : ZMod p) (t n : ℕ) :
    (List.zipWith (· * ·) ((List.range' 1 t).map fun j => gamma ^ j)
      (List.replicate n (0 : ZMod p))).sum = 0 := by
  rw [sum_gammaPowers]
  apply Finset.sum_eq_zero
  intro j _
  rw [List.getD_eq_getElem?_getD, List.getElem?_getD_replicate_default_eq, mul_zero]

/-- The instances of zeros. -/
def zeroLinearized (shape : CCSShape (ZMod p)) (C : Type) [Zero C] : LCCSInstance (ZMod p) C :=
  ⟨0, List.replicate shape.numIo 0, List.replicate (safeLoglike shape.numConstraints) 0,
    List.replicate shape.numMatrices 0⟩

def zeroInstance (shape : CCSShape (ZMod p)) (C : Type) [Zero C] : CCSInstance (ZMod p) C :=
  ⟨0, List.replicate shape.numIo 0⟩

omit [Module (ZMod p) C] in
theorem isPair_zeros (shape : CCSShape (ZMod p)) :
    IsPair shape (zeroLinearized shape C) (zeroInstance shape C) := by
  constructor
  · rw [linearizedNew_eq_ok]
    simp [zeroLinearized]
  · rw [instanceNew_eq_ok]
    simp [zeroInstance]

/-- The proof of zeros of these sizes. -/
def zeroProof (sizes : ProofSizes) : NIMFSProof (ZMod p) :=
  ⟨Sumcheck.zeroMessages sizes.messages, sizes.polyInfo, List.replicate sizes.sigmas 0,
    List.replicate sizes.thetas 0⟩

theorem sizes_zeroProof (sizes : ProofSizes) :
    (zeroProof sizes : NIMFSProof (ZMod p)).sizes = sizes := by
  have hmessages : (Sumcheck.zeroMessages sizes.messages : List (List (ZMod p))).map List.length =
      sizes.messages := by
    rw [Sumcheck.zeroMessages, List.map_map]
    simp [Function.comp_def]
  rw [NIMFSProof.sizes, zeroProof, hmessages, List.length_replicate, List.length_replicate]

/-- **Sizes that do not fit the shape**: zeros of these sizes panic, or they are accepted. -/
theorem wellSized_of_robust [Zero B] (h : Robust M castFieldElement C shape sizes) :
    WellSized shape sizes := by
  obtain ⟨hpanic, haccept⟩ := h (zeroOracle (ZMod p) C B) () 0 (zeroLinearized shape C)
    (zeroInstance shape C) (zeroProof sizes) (isPair_zeros shape) (sizes_zeroProof sizes)
  have hX : 0 < (zeroInstance shape C).X.length := by
    rw [zeroInstance, List.length_replicate]
    exact shape.numIo_pos
  have hchallenges : challenges (zeroOracle (ZMod p) C B) 0 shape (zeroLinearized shape C)
      (zeroInstance shape C) () = .ok (0, 0,
        List.replicate (safeLoglike shape.numConstraints) 0, ()) :=
    bind_eq_ok.mpr ⟨_, bind_eq_ok.mpr ⟨(), assert_eq_ok.mpr hX, rfl⟩, rfl⟩
  unfold NIMFSProof.verifyAsSubprotocol at hpanic
  rw [hchallenges] at hpanic
  obtain ⟨-, hpanic⟩ := bind_ne_panic_iff.mp hpanic
  replace hpanic := hpanic _ rfl
  dsimp only [zeroLinearized, zeroInstance, zeroProof] at hpanic
  rw [sum_zipWith_zeros] at hpanic
  -- the sumcheck accepts the zeros
  obtain ⟨hsumcheck, hpanic⟩ := bind_ne_panic_iff.mp hpanic
  rw [mapError_ne_panic_iff] at hsumcheck
  obtain ⟨hreadable, subclaim, st', hpoint, hexpected, hsub⟩ :=
    Sumcheck.verifyAsSubprotocol_zeros hsumcheck
  replace hpanic := hpanic _ (mapError_eq_ok.mpr hsub)
  -- the equality polynomials are evaluated at its point
  obtain ⟨heqrs, hpanic⟩ := bind_ne_panic_iff.mp hpanic
  obtain ⟨eqrs, heqrs⟩ := exists_of_vecToArkMle_ne_panic heqrs
  obtain ⟨hevalrs, hpanic⟩ := bind_ne_panic_iff.mp (hpanic _ heqrs)
  rw [evaluateArk_ne_panic, numVars_eqMle heqrs, List.length_replicate] at hevalrs
  have hrounds : sizes.polyInfo.numVariables = safeLoglike shape.numConstraints :=
    hpoint.symm.trans hevalrs
  have heval : (evaluateArk M eqrs subclaim.point : Run Error (ZMod p)) =
      .ok (M.evaluate eqrs subclaim.point) := by
    rw [evaluateArk_eq_ok, numVars_eqMle heqrs, List.length_replicate]
    exact ⟨hevalrs, rfl⟩
  replace hpanic := hpanic _ heval
  simp only [heqrs, heval, bind_ne_panic_iff, Except.ok.injEq, forall_eq'] at hpanic
  obtain ⟨-, -, hselected, -⟩ := hpanic
  replace hselected := assert_ne_panic_iff.mp hselected
  refine ⟨hreadable, hrounds, by simpa only [List.length_replicate] using hselected, ?_⟩
  -- the folding of zeros succeeds, so the proof is accepted
  intro hlen
  have hfold : ∃ U, (zeroLinearized shape C).fold (zeroInstance shape C) (castFieldElement 0)
      subclaim.point (List.replicate sizes.sigmas 0) (List.replicate sizes.thetas 0) = .ok U := by
    refine ⟨_, fold_eq_ok.mpr ⟨?_, ?_, ?_, hX, rfl⟩⟩
    · rw [zeroLinearized, List.length_replicate, hevalrs]
    · rw [List.length_replicate, List.length_replicate, hlen]
    · rw [zeroLinearized, List.length_replicate]
      exact shape.numIo_pos
  obtain ⟨U, hfold⟩ := hfold
  have hclaims : ¬ subclaim.expectedEvaluation ≠
      (List.zipWith (· * ·) ((List.range' 1 shape.numMatrices).map fun j => (0 : ZMod p) ^ j)
        (List.replicate sizes.sigmas 0)).sum * M.evaluate eqrs subclaim.point +
      (shape.cSs.map fun cS => cS.2.foldl (fun acc j =>
        acc * (List.replicate sizes.thetas (0 : ZMod p)).getD j 0) cS.1).sum *
          0 ^ (shape.numMatrices + 1) * M.evaluate eqrs subclaim.point := by
    rw [not_not, sum_zipWith_zeros, hexpected, zero_pow (Nat.succ_ne_zero _), mul_zero, zero_mul,
      add_zero]
  apply (haccept (U, 0, st') _).2
  refine bind_eq_ok.mpr ⟨_, hchallenges, bind_eq_ok.mpr ⟨(subclaim, st'), ?_,
    bind_eq_ok.mpr ⟨_, heqrs, bind_eq_ok.mpr ⟨_, heval, bind_eq_ok.mpr ⟨_, heqrs,
      bind_eq_ok.mpr ⟨_, heval, bind_eq_ok.mpr ⟨(), assert_eq_ok.mpr hselected,
        bind_eq_ok.mpr ⟨(), failIf_eq_ok.mpr hclaims,
          bind_eq_ok.mpr ⟨_, mapError_eq_ok.mpr hfold, rfl⟩⟩⟩⟩⟩⟩⟩⟩⟩
  have hclaim : (List.zipWith (· * ·) ((List.range' 1 shape.numMatrices).map fun j =>
      (0 : ZMod p) ^ j) (zeroLinearized shape C).vs).sum = 0 := sum_zipWith_zeros _ _ _
  rw [mapError_eq_ok, hclaim]
  exact hsub

/-- **Which sizes the verifier can be given.**  With any instances of the shape and any oracle,
all proofs of some sizes are answered, and accepted only with the rounds and the degree of the
shape, exactly if the sizes fit the shape. -/
theorem nimfs_robust_iff [Zero B] :
    Robust M castFieldElement C shape sizes ↔ WellSized shape sizes := by
  constructor
  · exact wellSized_of_robust
  · exact robust_of_wellSized

end Verifier

section Small

theorem nimfs_robust_row : Robust (tables (ZMod 3)) (id : ZMod 3 → ZMod 3) (ZMod 3) rowShape
    ⟨⟨2, 1, 2⟩, [3], 1, 1⟩ :=
  have : Fact (Nat.Prime 3) := ⟨Nat.prime_three⟩
  nimfs_robust_iff.mpr
    { readable := ⟨by decide, by decide, by decide, by decide⟩
      rounds := by decide
      selected := by decide
      degree := by decide }

/-- A proof without messages panics, as do one of a constant message and one without thetas, and
a proof of degree `3` is accepted where the shape has degree `2`. -/
theorem malformed_proofs :
    IsPair rowShape (⟨0, [0], [0], [0]⟩ : LCCSInstance (ZMod 3) (ZMod 3)) ⟨0, [0]⟩ ∧
    NIMFSProof.verifyAsSubprotocol (tables (ZMod 3)) (zeroOracle (ZMod 3) (ZMod 3) (ZMod 3)) id
      ⟨[], ⟨2, 1, 2⟩, [0], [0]⟩ 0 rowShape ⟨0, [0], [0], [0]⟩ ⟨0, [0]⟩ () = .error .panic ∧
    NIMFSProof.verifyAsSubprotocol (tables (ZMod 3)) (zeroOracle (ZMod 3) (ZMod 3) (ZMod 3)) id
      ⟨[[0]], ⟨2, 1, 2⟩, [0], [0]⟩ 0 rowShape ⟨0, [0], [0], [0]⟩ ⟨0, [0]⟩ () = .error .panic ∧
    NIMFSProof.verifyAsSubprotocol (tables (ZMod 3)) (zeroOracle (ZMod 3) (ZMod 3) (ZMod 3)) id
      ⟨[[0, 0, 0]], ⟨2, 1, 2⟩, [], []⟩ 0 rowShape ⟨0, [0], [0], [0]⟩ ⟨0, [0]⟩ () =
        .error .panic ∧
    NIMFSProof.verifyAsSubprotocol (tables (ZMod 3)) (zeroOracle (ZMod 3) (ZMod 3) (ZMod 3)) id
      ⟨[[0, 0, 0, 0]], ⟨3, 1, 2⟩, [0], [0]⟩ 0 rowShape ⟨0, [0], [0], [0]⟩ ⟨0, [0]⟩ () =
        .ok (⟨0, [0], [0], [0]⟩, 0, ()) ∧
    shapeDegree rowShape = 2 := by
  refine ⟨⟨rfl, rfl⟩, rfl, rfl, rfl, rfl, rfl⟩

end Small

end Nimfs

end NexusVm.Nova
