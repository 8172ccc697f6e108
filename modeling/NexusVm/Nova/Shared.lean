import NexusVm.Nova.Complete

/-!
# Shared multilinear extensions

`ml_sumcheck/data_structures.rs` and the prover's state of `protocol/prover.rs`.
Products refer to tables by index; a table of pointers lets equal pointers share
one table, and the prover binds its variables in the shared tables in place.
-/

namespace NexusVm.Nova.Sumcheck

section Model

variable {F : Type} [Field F]

/-- `ListOfProductsOfPolynomials`; a pointer is a number, and what it points to
is given by a heap. -/
structure SharedProducts (M : MultilinearExtensions F) where
  maxMultiplicands : ℕ
  numVariables : ℕ
  products : List (F × List ℕ)
  flattenedMlExtensions : List M.Mle
  rawPointersLookupTable : ℕ → Option ℕ

namespace SharedProducts

variable {M : MultilinearExtensions F} {E : Type}

/-- An empty polynomial. -/
def new (numVariables : ℕ) : SharedProducts M := ⟨0, numVariables, [], [], fun _ => none⟩

def info (g : SharedProducts M) : PolynomialInfo :=
  ⟨g.maxMultiplicands, g.numVariables, g.products.length⟩

/-- The loop of `add_product` over the multiplicands: the tables, the indices of
the pointers and the indexed product so far. -/
def addMultiplicand (heap : ℕ → M.Mle) (numVariables : ℕ)
    (s : List M.Mle × (ℕ → Option ℕ) × List ℕ) (ptr : ℕ) :
    Run E (List M.Mle × (ℕ → Option ℕ) × List ℕ) := do
  Run.assert (M.numVars (heap ptr) = numVariables)
  match s.2.1 ptr with
  | some index => .ok (s.1, s.2.1, s.2.2 ++ [index])
  | none =>
      let currIndex := s.1.length
      .ok (s.1 ++ [heap ptr], Function.update s.2.1 ptr (some currIndex), s.2.2 ++ [currIndex])

/-- Adds the product of what some pointers point to. -/
def addProduct (heap : ℕ → M.Mle) (g : SharedProducts M) (product : List ℕ) (coefficient : F) :
    Run E (SharedProducts M) := do
  Run.assert (product ≠ [])
  let (tables, lookup, indexedProduct) ← product.foldlM (addMultiplicand heap g.numVariables)
    (g.flattenedMlExtensions, g.rawPointersLookupTable, [])
  .ok
    { maxMultiplicands := max g.maxMultiplicands product.length
      numVariables := g.numVariables
      products := g.products ++ [(coefficient, indexedProduct)]
      flattenedMlExtensions := tables
      rawPointersLookupTable := lookup }

/-- `flattened_ml_extensions[i]`. -/
def table (tables : List M.Mle) (i : ℕ) : Run E M.Mle :=
  match tables[i]? with
  | some m => .ok m
  | none => .error .panic

/-- The value at a point. -/
def evaluate (g : SharedProducts M) (point : List F) : Run E F := do
  let terms ← g.products.mapM fun (c, p) => do
    let values ← p.mapM fun i => do evaluateArk M (← table g.flattenedMlExtensions i) point
    .ok (c * values.prod)
  .ok terms.sum

/-- The multiplicands of the products. -/
def resolve (tables : List M.Mle) (products : List (F × List ℕ)) :
    Run E (List (F × List M.Mle)) :=
  products.mapM fun (c, p) => do .ok (c, ← p.mapM (table tables))

variable {C B : Type} (O : RandomOracle F C B)

/-- The rounds of the prover: each fixes a variable of all tables. -/
def proveRounds (products : List (F × List ℕ)) (degree : ℕ) :
    ℕ → List M.Mle → O.State → Run E (List (List F) × List F × O.State)
  | 0, _, st => .ok ([], [], st)
  | n + 1, tables, st => do
      let resolved ← resolve tables products
      let msg := proveRound resolved degree n
      let st := O.absorb st (msg.map .scalar)
      let (r, st) := O.squeezeOne st
      let st := O.absorb st [.scalar r]
      let (msgs, rs, st) ← proveRounds products degree n (tables.map (M.fixVariable · r)) st
      .ok (msg :: msgs, r :: rs, st)

/-- The proof, the randomness and the oracle's last state. -/
def proveAsSubprotocol (g : SharedProducts M) (st : O.State) :
    Run E (List (List F) × List F × O.State) := do
  -- "Attempt to prove a constant."
  Run.assert (g.numVariables ≠ 0)
  let st := O.absorb st g.info.elements
  proveRounds O g.products g.maxMultiplicands g.numVariables g.flattenedMlExtensions st

/-- The boolean point whose coordinates are the bits of `b`. -/
def booleanPoint (n b : ℕ) : List F := (List.range n).map fun i : ℕ => if b.testBit i then 1 else 0

/-- The sum of the values at all boolean points. -/
def hypercubeSum (g : SharedProducts M) : Run E F := do
  let values ← (List.range (2 ^ g.numVariables)).mapM fun b =>
    g.evaluate (booleanPoint g.numVariables b)
  .ok values.sum

/-- The polynomials that `new` and `add_product` build. -/
inductive Built (heap : ℕ → M.Mle) : SharedProducts M → Prop
  | new (numVariables : ℕ) : Built heap (new numVariables)
  | addProduct {g g' : SharedProducts M} {product : List ℕ} {coefficient : F} :
      Built heap g → (g.addProduct heap product coefficient : Run Unit _) = .ok g' → Built heap g'

end SharedProducts

end Model

namespace SharedProducts

variable {F : Type} [Field F] {M : MultilinearExtensions F} {E : Type}

/-- What every built polynomial fulfills. -/
structure Valid (heap : ℕ → M.Mle) (g : SharedProducts M) : Prop where
  pointers : ∀ ptr i, g.rawPointersLookupTable ptr = some i →
    g.flattenedMlExtensions[i]? = some (heap ptr)
  numVars : ∀ m ∈ g.flattenedMlExtensions, M.numVars m = g.numVariables
  products : ∀ product ∈ g.products, product.2 ≠ [] ∧
    product.2.length ≤ g.maxMultiplicands ∧ ∀ i ∈ product.2, i < g.flattenedMlExtensions.length

/-- What the loop over the multiplicands keeps. -/
structure Indexed (heap : ℕ → M.Mle) (n : ℕ) (tables : List M.Mle)
    (s : List M.Mle × (ℕ → Option ℕ) × List ℕ) : Prop where
  extends_tables : tables <+: s.1
  pointers : ∀ ptr i, s.2.1 ptr = some i → s.1[i]? = some (heap ptr)
  numVars : ∀ m ∈ s.1, M.numVars m = n
  indices : ∀ i ∈ s.2.2, i < s.1.length

variable {tables : List M.Mle} {heap : ℕ → M.Mle}

variable {s s' : List M.Mle × (ℕ → Option ℕ) × List ℕ}

theorem Indexed.step {n : ℕ} {ptr : ℕ} (h : Indexed heap n tables s)
    (hrun : (addMultiplicand heap n s ptr : Run E _) = .ok s') :
    Indexed heap n tables s' ∧ s'.2.2.length = s.2.2.length + 1 := by
  obtain ⟨_, hvars, hrest⟩ := bind_eq_ok.mp hrun
  have hvars := assert_eq_ok.mp hvars
  cases hlookup : s.2.1 ptr with
  | some index =>
      rw [hlookup] at hrest
      obtain rfl := Except.ok.inj hrest
      refine ⟨⟨h.extends_tables, h.pointers, h.numVars, ?_⟩, List.length_append⟩
      intro i hi
      rcases List.mem_append.mp hi with hi | hi
      · exact h.indices i hi
      · rw [List.mem_singleton.mp hi]
        exact (List.getElem?_eq_some_iff.mp (h.pointers ptr index hlookup)).1
  | none =>
      rw [hlookup] at hrest
      obtain rfl := Except.ok.inj hrest
      refine ⟨⟨h.extends_tables.trans (List.prefix_append _ _), ?_, ?_, ?_⟩, List.length_append⟩
      · intro ptr' i hi
        dsimp only at hi ⊢
        by_cases hptr : ptr' = ptr
        · rw [hptr, Function.update_self] at hi
          rw [← Option.some.inj hi, hptr, List.getElem?_concat_length]
        · rw [Function.update_of_ne hptr] at hi
          have hget := h.pointers ptr' i hi
          rw [List.getElem?_append_left (List.getElem?_eq_some_iff.mp hget).1, hget]
      · intro m hm
        rcases List.mem_append.mp hm with hm | hm
        · exact h.numVars m hm
        · rw [List.mem_singleton.mp hm]
          exact hvars
      · intro i hi
        dsimp only at hi ⊢
        rw [List.length_append, List.length_singleton]
        rcases List.mem_append.mp hi with hi | hi
        · exact Nat.lt_succ_of_lt (h.indices i hi)
        · rw [List.mem_singleton.mp hi]
          exact Nat.lt_succ_self _

theorem Indexed.steps {n : ℕ} {product : List ℕ} (h : Indexed heap n tables s)
    (hrun : (product.foldlM (addMultiplicand heap n) s : Run E _) = .ok s') :
    Indexed heap n tables s' ∧ s'.2.2.length = s.2.2.length + product.length := by
  induction product generalizing s with
  | nil =>
      obtain rfl := Except.ok.inj hrun
      exact ⟨h, rfl⟩
  | cons ptr product ih =>
      rw [List.foldlM_cons] at hrun
      obtain ⟨s₁, hstep, hrest⟩ := bind_eq_ok.mp hrun
      obtain ⟨h₁, hlen₁⟩ := h.step hstep
      obtain ⟨h₂, hlen₂⟩ := ih h₁ hrest
      refine ⟨h₂, ?_⟩
      rw [hlen₂, hlen₁, List.length_cons]
      omega

variable {g : SharedProducts M}

theorem valid_of_built (h : Built heap g) :
    Valid heap g := by
  induction h with
  | new numVariables =>
      constructor
      · intro ptr i hi
        cases hi
      · intro m hm
        cases hm
      · intro product hproduct
        cases hproduct
  | @addProduct g g' product coefficient _ hrun ih =>
      obtain ⟨_, hne, hrest⟩ := bind_eq_ok.mp hrun
      have hne := assert_eq_ok.mp hne
      obtain ⟨⟨tables, lookup, indexed⟩, hloop, heq⟩ := bind_eq_ok.mp hrest
      obtain rfl := Except.ok.inj heq
      have hstart : Indexed heap g.numVariables g.flattenedMlExtensions
          (g.flattenedMlExtensions, g.rawPointersLookupTable, []) :=
        ⟨List.prefix_rfl, ih.pointers, ih.numVars, fun i hi => absurd hi List.not_mem_nil⟩
      obtain ⟨hend, hlen⟩ := hstart.steps hloop
      have hlen' : indexed.length = product.length := by simpa using hlen
      refine ⟨hend.pointers, hend.numVars, ?_⟩
      intro product' hproduct'
      rcases List.mem_append.mp hproduct' with hold | hnew
      · obtain ⟨hne', hle, hlt⟩ := ih.products product' hold
        exact ⟨hne', hle.trans (le_max_left _ _),
          fun i hi => (hlt i hi).trans_le hend.extends_tables.length_le⟩
      · obtain rfl := List.mem_singleton.mp hnew
        refine ⟨?_, ?_, hend.indices⟩
        · exact List.ne_nil_of_length_pos (hlen' ▸ List.length_pos_of_ne_nil hne)
        · exact hlen'.le.trans (le_max_right _ _)

/-! ## Products and their multiplicands -/

theorem table_eq_ok {i : ℕ} {m : M.Mle} :
    (table tables i : Run E _) = .ok m ↔ tables[i]? = some m := by
  rw [table]
  cases tables[i]? <;> simp

variable {products : List (F × List ℕ)} {ps : List (F × List M.Mle)}

theorem resolve_eq_ok :
    (resolve tables products : Run E _) = .ok ps ↔
      List.Forall₂ (fun product p => product.1 = p.1 ∧
        List.Forall₂ (fun i m => tables[i]? = some m) product.2 p.2) products ps := by
  have hiff : ∀ (product : F × List ℕ) (p : F × List M.Mle),
      (((do .ok (product.1, ← product.2.mapM (table tables))) : Run E (F × List M.Mle)) = .ok p ↔
        product.1 = p.1 ∧ List.Forall₂ (fun i m => tables[i]? = some m) product.2 p.2) := by
    intro product p
    rw [bind_eq_ok]
    simp only [mapM_eq_ok_iff, table_eq_ok]
    constructor
    · rintro ⟨ms, hms, heq⟩
      obtain rfl := Except.ok.inj heq
      exact ⟨rfl, hms⟩
    · rintro ⟨hc, hms⟩
      exact ⟨p.2, hms, by rw [hc]⟩
  rw [resolve, mapM_eq_ok_iff]
  simp only [hiff]

/-- The indices of a valid polynomial have tables. -/
theorem exists_resolve (h : Valid heap g) :
    ∃ ps, (∀ {E : Type}, (resolve g.flattenedMlExtensions g.products : Run E _) = .ok ps) ∧
      Sized g.maxMultiplicands g.numVariables ps ∧ ps.length = g.products.length := by
  have htables : ∀ product ∈ g.products, ∀ i ∈ product.2, ∃ m,
      (table g.flattenedMlExtensions i : Run Unit _) = .ok m := by
    intro product hproduct i hi
    have hlt := (h.products product hproduct).2.2 i hi
    exact ⟨g.flattenedMlExtensions[i], table_eq_ok.mpr (List.getElem?_eq_getElem hlt)⟩
  obtain ⟨ps, hps⟩ : ∃ ps, (resolve g.flattenedMlExtensions g.products : Run Unit _) = .ok ps := by
    apply exists_mapM.mpr
    intro product hproduct
    obtain ⟨ms, hms⟩ := exists_mapM.mpr (htables product hproduct)
    exact ⟨_, bind_eq_ok.mpr ⟨ms, hms, rfl⟩⟩
  have hall := resolve_eq_ok.mp hps
  refine ⟨ps, fun {E} => resolve_eq_ok.mpr hall, ?_, hall.length_eq.symm⟩
  intro p hp
  obtain ⟨product, hproduct, hpair⟩ := exists_of_mem_mapM hps hp
  obtain ⟨ms, hms, heq⟩ := bind_eq_ok.mp hpair
  obtain rfl := Except.ok.inj heq
  constructor
  · rw [← (mapM_eq_ok_iff.mp hms).length_eq]
    exact (h.products product hproduct).2.1
  · intro m hm
    obtain ⟨i, -, hi⟩ := exists_of_mem_mapM hms hm
    exact h.numVars m (List.mem_of_getElem? (table_eq_ok.mp hi))

/-- Fixing a variable of all tables fixes it in all products. -/
theorem resolve_fix {E' : Type} (h : (resolve tables products : Run E _) = .ok ps) (r : F) :
    (resolve (tables.map (M.fixVariable · r)) products : Run E' _) = .ok (fixProducts ps r) := by
  rw [resolve_eq_ok] at h ⊢
  rw [fixProducts, List.forall₂_map_right_iff]
  apply h.imp
  rintro product p ⟨hc, hms⟩
  refine ⟨hc, ?_⟩
  rw [List.forall₂_map_right_iff]
  apply hms.imp
  intro i m hi
  rw [List.getElem?_map, hi, Option.map_some]

variable {C B : Type} (O : RandomOracle F C B)

/-- **The prover in place** is the prover on the products. -/
theorem proveRounds_eq (h : (resolve tables products : Run E _) = .ok ps) (degree n : ℕ)
    (st : O.State) :
    (proveRounds O products degree n tables st : Run E _) =
      .ok (Sumcheck.proveRounds O degree n ps st) := by
  induction n generalizing tables ps st with
  | zero => rfl
  | succ n ih =>
      rw [proveRounds, h]
      exact bind_eq_ok.mpr ⟨ps, rfl, bind_eq_ok.mpr ⟨_, ih (resolve_fix h _) _, rfl⟩⟩

/-- The value at a point. -/
theorem evaluate_eq (h : (resolve g.flattenedMlExtensions g.products : Run E _) = .ok ps)
    (hsized : Sized g.maxMultiplicands g.numVariables ps) {point : List F}
    (hpoint : point.length = g.numVariables) :
    (g.evaluate point : Run E F) = .ok (combine ps fun m => M.evaluate m point) := by
  rw [resolve_eq_ok] at h
  refine bind_eq_ok.mpr ⟨ps.map (productOf fun m => M.evaluate m point), ?_, rfl⟩
  rw [mapM_eq_ok_iff, List.forall₂_map_right_iff]
  have hmem : List.Forall₂ (fun product p => p ∈ ps ∧ product.1 = p.1 ∧
      List.Forall₂ (fun i m => g.flattenedMlExtensions[i]? = some m) product.2 p.2)
      g.products ps := by
    rw [List.forall₂_iff_get] at h ⊢
    exact ⟨h.1, fun i h₁ h₂ => ⟨List.get_mem _ _, h.2 i h₁ h₂⟩⟩
  apply hmem.imp
  rintro ⟨c, p⟩ ⟨c', ms⟩ ⟨hp, rfl, hms⟩
  refine bind_eq_ok.mpr ⟨ms.map fun m => M.evaluate m point, ?_, ?_⟩
  · rw [mapM_eq_ok_iff, List.forall₂_map_right_iff]
    have hvars : List.Forall₂ (fun i m => m ∈ ms ∧ g.flattenedMlExtensions[i]? = some m) p ms := by
      rw [List.forall₂_iff_get] at hms ⊢
      exact ⟨hms.1, fun i h₁ h₂ => ⟨List.get_mem _ _, hms.2 i h₁ h₂⟩⟩
    apply hvars.imp
    rintro i m ⟨hm, hi⟩
    refine bind_eq_ok.mpr ⟨m, table_eq_ok.mpr hi, bind_eq_ok.mpr ⟨(), assert_eq_ok.mpr ?_, rfl⟩⟩
    rw [hpoint, (hsized _ hp).2 m hm]
  · rw [productOf_eq]

theorem length_booleanPoint (n b : ℕ) : (booleanPoint n b : List F).length = n := by
  rw [booleanPoint, List.length_map, List.length_range]

/-- A multilinear extension at a boolean point is its evaluation there. -/
theorem evaluate_booleanPoint {n b : ℕ} {m : M.Mle} (hm : M.numVars m = n) (hb : b < 2 ^ n) :
    M.evaluate m (booleanPoint n b) = M.index m b := by
  induction n generalizing m b with
  | zero =>
      obtain rfl : b = 0 := by
        rw [pow_zero] at hb
        omega
      exact M.evaluate_nil m hm
  | succ n ih =>
      have hcons : (booleanPoint (n + 1) b : List F) =
          (if b.testBit 0 then 1 else 0) :: booleanPoint n (b / 2) := by
        rw [booleanPoint, List.range_succ_eq_map, List.map_cons, List.map_map]
        congr 1
        apply List.map_congr_left
        intro i _
        rw [Function.comp_apply, Nat.testBit_succ]
      have hlt : b / 2 < 2 ^ n := by
        rw [pow_succ] at hb
        omega
      have hidx : 2 * (b / 2) + 1 < 2 ^ M.numVars m := by
        rw [hm, pow_succ]
        omega
      have hfix : M.numVars (M.fixVariable m (if b.testBit 0 then 1 else 0)) = n := by
        rw [M.numVars_fix, hm, Nat.add_sub_cancel]
      rw [hcons, M.evaluate_cons _ _ _ (by rw [hm, length_booleanPoint]), ih hfix hlt,
        M.index_fix _ _ _ hidx, Nat.testBit_zero]
      rcases Nat.mod_two_eq_zero_or_one b with hbit | hbit
      · have heven : 2 * (b / 2) = b := by omega
        rw [hbit, heven]
        simp
      · have hodd : 2 * (b / 2) + 1 = b := by omega
        rw [hbit, hodd]
        simp

/-- The sum of the values at all boolean points. -/
theorem hypercubeSum_eq (h : (resolve g.flattenedMlExtensions g.products : Run E _) = .ok ps)
    (hsized : Sized g.maxMultiplicands g.numVariables ps) :
    (g.hypercubeSum : Run E F) = .ok (Sumcheck.hypercubeSum g.numVariables ps) := by
  have hsum : (List.range (2 ^ g.numVariables)).map (fun b => combine ps fun m =>
      M.evaluate m (booleanPoint g.numVariables b)) =
      (List.range (2 ^ g.numVariables)).map fun b => combine ps fun m => M.index m b := by
    apply List.map_congr_left
    intro b hb
    rw [List.mem_range] at hb
    apply combine_congr (f := id) (List.map_id _).symm
    intro p hp
    rw [id, productOf_eq, productOf_eq]
    congr 2
    apply List.map_congr_left
    intro m hm
    exact evaluate_booleanPoint ((hsized p hp).2 m hm) hb
  refine bind_eq_ok.mpr ⟨(List.range (2 ^ g.numVariables)).map fun b => combine ps fun m =>
    M.evaluate m (booleanPoint g.numVariables b), ?_, ?_⟩
  · rw [mapM_eq_ok_iff, List.forall₂_map_right_iff, List.forall₂_same]
    intro b _
    exact evaluate_eq h hsized (length_booleanPoint _ _)
  · rw [hsum]
    rfl

section Completeness

variable {p : ℕ} [Fact p.Prime] {M : MultilinearExtensions (ZMod p)} {C B : Type}

/-- **The sumcheck is complete.**  Every built polynomial with a variable and a
product has a sum over the hypercube for which the prover's proof is accepted;
prover and verifier have one point, and the subclaim is the polynomial's value
there. -/
theorem shared_complete (O : RandomOracle (ZMod p) C B) {heap : ℕ → M.Mle}
    {g : SharedProducts M} (hg : Built heap g) (hvars : 0 < g.numVariables)
    (hproducts : g.products ≠ []) (st : O.State) :
    ∃ (sum value : ZMod p) (proof : List (List (ZMod p))) (randomness : List (ZMod p))
      (st' : O.State),
      (g.hypercubeSum : Run Error _) = .ok sum ∧
      (g.proveAsSubprotocol O st : Run Error _) = .ok (proof, randomness, st') ∧
      (g.evaluate randomness : Run Error _) = .ok value ∧
      verifyAsSubprotocol O g.info sum proof st = .ok (⟨randomness, value⟩, st') := by
  have hvalid := valid_of_built hg
  obtain ⟨ps, hps, hsized, hlen⟩ := exists_resolve hvalid
  have hmax : 0 < g.maxMultiplicands := by
    obtain ⟨product, hproduct⟩ := List.exists_mem_of_ne_nil _ hproducts
    obtain ⟨hne, hle, -⟩ := hvalid.products product hproduct
    exact (List.length_pos_of_ne_nil hne).trans_le hle
  obtain ⟨proof, randomness, st', hprove, hpoint, hverify⟩ := sumcheck_complete O (E := Error)
    (g := ⟨g.maxMultiplicands, g.numVariables, ps⟩) hsized hmax hvars
    (fun _ => factorial_ne_zero_of_point) st
  have hinfo : (⟨g.maxMultiplicands, g.numVariables, ps⟩ :
      ListOfProductsOfPolynomials M).info = g.info := by
    rw [ListOfProductsOfPolynomials.info, hlen]
    rfl
  rw [hinfo] at hverify
  refine ⟨_, _, proof, randomness, st', hypercubeSum_eq hps hsized, ?_,
    evaluate_eq hps hsized hpoint, hverify⟩
  obtain ⟨_, hne, hrounds⟩ := bind_eq_ok.mp hprove
  rw [hinfo] at hrounds
  refine bind_eq_ok.mpr ⟨(), assert_eq_ok.mpr hvars.ne', ?_⟩
  rw [proveRounds_eq O hps]
  exact hrounds

/-- The square of one variable, from one shared table. -/
theorem shared_complete_square : ∃ (sum value : ZMod 3) (proof : List (List (ZMod 3))),
    verifyAsSubprotocol (zeroOracle (ZMod 3) Unit Unit) ⟨2, 1, 1⟩ sum proof () =
      .ok (⟨[0], value⟩, ()) := by
  let heap : ℕ → (tables (ZMod 3)).Mle := fun _ => (1, fun b => (b : ZMod 3))
  have hadd : (addProduct heap (new 1) [0, 0] 1 : Run Unit (SharedProducts (tables (ZMod 3)))) =
      .ok ⟨2, 1, [(1, [0, 0])], [heap 0], Function.update (fun _ => none) 0 (some 0)⟩ := rfl
  obtain ⟨sum, value, proof, randomness, st', -, hprove, -, hverify⟩ :=
    shared_complete (zeroOracle (ZMod 3) Unit Unit) (.addProduct (.new 1) hadd) Nat.one_pos
      (List.cons_ne_nil _ _) ()
  have hrandomness : randomness = [0] := by
    have h := congrArg (Except.map fun out => out.2.1) hprove
    exact (Except.ok.inj h).symm
  rw [hrandomness] at hverify
  exact ⟨sum, value, proof, hverify⟩

end Completeness

end SharedProducts

end NexusVm.Nova.Sumcheck
