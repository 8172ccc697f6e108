import NexusVm.Circuit.Unsound

/-!
# Selectors on their own

What the rows that a selector gadget adds to a builder mean, whatever the builder holds
already: `member` accepts exactly the indicators of its set, `load_array` yields the selected
element, and `store_reg` leaves one output free.
-/

namespace NexusVm.Builder

variable {N F : Type} [DecidableEq N] [Field F] [ScopedName N]

/-- A call that is tidy in any builder. -/
def Op.Neat (_ : N → F) : Op N F → Prop
  | .newVar n => isLocal n = false
  | .newLocalVar n => isLocal n = true
  | .constraint a b c => freshRow [] a = true ∧ freshRow [] b = true ∧ freshRow [] c = true
  | _ => True

variable {ops : List (Op N F)}

theorem tidy_of_neat (h : Holds Op.Neat (fun _ => 0) ops) (cs : R1CS N F) : Tidy ops cs := by
  induction ops generalizing cs with
  | nil => trivial
  | cons op ops ih =>
      rw [holds_cons] at h
      refine ⟨?_, fun cs' _ => ih h.2 cs'⟩
      cases op with
      | newVar n =>
          intro hl
          have hn : isLocal n = false := h.1
          rw [hn] at hl
          cases hl
      | newLocalVar n => exact h.1
      | constraint a b c => exact h.1
      | _ => trivial

theorem Tidy.left {ops ops' : List (Op N F)} {cs : R1CS N F} (h : Tidy (ops ++ ops') cs) :
    Tidy ops cs := by
  induction ops generalizing cs with
  | nil => trivial
  | cons op ops ih => exact ⟨h.1, fun cs' he => ih (h.2 cs' he)⟩

/-- A program allocates the variables it says. -/
theorem Shaped.isSome_run {cs cs' : R1CS N F} {n : N} (h : Shaped cs) (ht : Tidy ops cs)
    (hrun : R1CS.run ops cs = some cs') (hn : isLocal n = false) (hmem : .newVar n ∈ ops) :
    (cs'.vars n).isSome := by
  induction ops generalizing cs with
  | nil => cases hmem
  | cons op ops ih =>
      rw [R1CS.run_cons, Option.bind_eq_some_iff] at hrun
      obtain ⟨cs₁, he, hrun⟩ := hrun
      rcases List.mem_cons.mp hmem with rfl | hmem
      · obtain ⟨j, hj⟩ : ∃ j, cs₁.vars n = some j := by
          obtain rfl : cs.newVar n = cs₁ := by simpa [R1CS.exec] using he
          cases hv : cs.vars n with
          | some j => exact ⟨j, by rwa [R1CS.newVar_of_some hv]⟩
          | none => exact ⟨cs.w.length, by simp [R1CS.newVar_of_none hv]⟩
        rw [(h.exec ht.1 he).vars_run (ht.2 cs₁ he) hrun hn hj]
        rfl
      · exact ih (h.exec ht.1 he) (ht.2 cs₁ he) hrun hmem

omit [ScopedName N] in
/-- What a program allocates as a local was free. -/
theorem vars_none_of_run {cs cs' : R1CS N F} {n : N} (hfree : sealFree ops = true)
    (hrun : R1CS.run ops cs = some cs') (hmem : .newLocalVar n ∈ ops) : cs.vars n = none := by
  induction ops generalizing cs with
  | nil => cases hmem
  | cons op ops ih =>
      rw [R1CS.run_cons, Option.bind_eq_some_iff] at hrun
      obtain ⟨cs₁, he, hrun⟩ := hrun
      rw [sealFree_cons, Bool.and_eq_true] at hfree
      have hop : op ≠ .sealLocals := by
        rintro rfl
        exact Bool.false_ne_true hfree.1
      cases hv : cs.vars n with
      | none => rfl
      | some j =>
          rcases List.mem_cons.mp hmem with rfl | hmem
          · simp [R1CS.exec, hv] at he
          · have hnone := ih hfree.2 hrun hmem
            rw [R1CS.vars_exec he hop hv] at hnone
            cases hnone

end NexusVm.Builder

namespace NexusVm.Circuit

open NexusVm.Builder

section Neat

variable {F : Type} [Field F] {name input output : Var}

theorem neat_memberBody (hl : isLocal name = false) (k : ℕ) (set : List ℕ) :
    Holds Op.Neat (fun _ => (0 : F)) (memberBody false name k set) := by
  have hrows : ∀ i, Holds Op.Neat (fun _ => (0 : F)) (memberRows name set i) := by
    intro i
    simp only [memberRows, holds_cons, holds_nil, and_true]
    refine ⟨⟨rfl, rfl, rfl⟩, ?_, ?_, ?_, ⟨rfl, rfl, rfl⟩⟩
    · split_ifs <;> exact ⟨rfl, rfl, rfl⟩
    · split_ifs <;> exact ⟨rfl, rfl, rfl⟩
    · split_ifs <;> exact ⟨rfl, rfl, rfl⟩
  simp only [memberBody, memberWitness, setFieldVar, setLocalVar, Bool.false_eq_true, if_false,
    holds_append, holds_flatMap, holds_cons, holds_nil, and_true]
  refine ⟨⟨⟨trivial, hl, trivial⟩, ?_⟩, ⟨⟨rfl, rfl, rfl⟩, rfl, rfl, rfl⟩, fun i _ => hrows i⟩
  intro i _
  exact ⟨⟨⟨⟨⟨rfl, trivial⟩, rfl, trivial⟩, rfl, trivial⟩, rfl, trivial⟩, rfl, trivial⟩

theorem neat_member (hl : isLocal name = false) (k : ℕ) (set : List ℕ) :
    Holds Op.Neat (fun _ => (0 : F)) (member false name k set) := by
  rw [member, holds_append]
  exact ⟨neat_memberBody hl k set, by simp [Op.Neat]⟩

theorem neat_selector (hl : isLocal name = false) (n k : ℕ) :
    Holds Op.Neat (fun _ => (0 : F)) (selector false name n k) := by
  rw [selector, holds_cons]
  exact ⟨trivial, neat_member hl k _⟩

/-- A sum of different names overwrites nothing. -/
theorem freshRow_map {done : List (Option Var)} {names : List Var} (hnodup : names.Nodup)
    (hdone : ∀ n ∈ names, some n ∉ done) :
    freshRow done (names.map fun n => (Term.put n 1 : Term Var F)) = true := by
  induction names generalizing done with
  | nil => rfl
  | cons n names ih =>
      obtain ⟨hn, hnodup⟩ := List.nodup_cons.mp hnodup
      have hhead : done.contains (some n) = false := by
        rw [List.contains_eq_mem, decide_eq_false_iff_not]
        exact hdone n (List.mem_cons_self ..)
      rw [List.map_cons, freshRow, hhead]
      apply ih hnodup
      intro m hm hmem
      rcases List.mem_cons.mp hmem with heq | hmem
      · obtain rfl := Option.some.inj heq
        exact hn hm
      · exact hdone m (List.mem_cons_of_mem _ hm) hmem

theorem neat_loadArray {arr : ℕ → Var} (hl : isLocal input = false)
    (hlo : isLocal output = false) (size rs : ℕ) :
    Holds Op.Neat (fun _ => (0 : F)) (loadArray false input output arr size rs) := by
  have hsum : ((List.range size).map Var.rsx).Nodup :=
    List.nodup_range.map fun i j h => by cases h; rfl
  simp only [loadArray, loadArrayBody, setFieldVar, setLocalVar, Bool.false_eq_true, if_false,
    holds_append, holds_flatMap, holds_map, holds_cons, holds_nil, and_true]
  refine ⟨⟨neat_selector hl size rs, ⟨⟨⟨hl, trivial⟩, ?_⟩, hlo, trivial⟩, ?_, ?_⟩, trivial⟩
  · exact fun i _ => ⟨rfl, trivial⟩
  · exact fun i _ => ⟨rfl, rfl, rfl⟩
  · exact ⟨freshRow_map hsum fun n _ => List.not_mem_nil, rfl, rfl⟩

theorem neat_storeReg (hl : isLocal input = false) (rs : ℕ) :
    Holds Op.Neat (fun _ => (0 : F)) (storeReg false input output rs) := by
  simp only [storeReg, storeRegBody, setFieldVar, setLocalVar, Bool.false_eq_true, if_false,
    holds_append, holds_flatMap, holds_cons, holds_nil, and_true]
  refine ⟨⟨neat_selector hl 32 rs, ⟨⟨⟨hl, trivial⟩, rfl, rfl, rfl⟩, ?_⟩, ?_⟩, trivial⟩
  · exact fun i _ => ⟨⟨⟨rfl, trivial⟩, rfl, trivial⟩, rfl, trivial⟩
  · exact fun i _ => ⟨⟨rfl, rfl, rfl⟩, ⟨rfl, rfl, rfl⟩, by simp [freshRow], rfl, rfl⟩

end Neat

section Selectors

variable {p : ℕ} [Fact p.Prime] {cs cs' : R1CS Var (ZMod p)} {name input output : Var}

/-! ## Membership -/

/-- **The variable is a member of the set**, and the selectors are its indicator. -/
def Indicates (σ : Var → ZMod p) (name : Var) (set : List U32) : Prop :=
  ∃ k ∈ set, σ name = (k.toNat : ZMod p) ∧
    ∀ s ∈ set, σ (.is name s.toNat) = if s = k then 1 else 0

/-- An assignment of the columns satisfies the rows that a gadget added, for some values of the
columns that it has released; columns that were there, or have a name, keep their values. -/
def Satisfies (cs cs' : R1CS Var (ZMod p)) (z : ℕ → ZMod p) : Prop :=
  ∃ z', (∀ j, (j < cs.w.length ∨ ∃ n, cs'.vars n = some j) → z' j = z j) ∧
    cs'.SatFrom cs.a.length z'

theorem constants_of_nodup (hp : 2 ^ 32 < p) {set : List U32} (h2 : 2 ≤ set.length)
    (hnodup : set.Nodup) : Constants (ZMod p) (set.map BitVec.toNat) := by
  have hinj : ∀ a b : U32, (a.toNat : ZMod p) = (b.toNat : ZMod p) → a = b :=
    fun a b h => word_inj hp h
  constructor
  · rwa [List.length_map]
  · exact hnodup.map fun a b h => BitVec.eq_of_toNat_eq h
  · intro a ha b hb hab
    obtain ⟨a, -, rfl⟩ := List.mem_map.mp ha
    obtain ⟨b, -, rfl⟩ := List.mem_map.mp hb
    rw [hinj a b hab]

variable {z : ℕ → ZMod p} {ops : List (Op Var (ZMod p))}

/-- What the rows of a gadget say, read by names. -/
theorem fits_of_satFrom (h : Shaped cs) (ht : Tidy ops cs) (hrun : R1CS.run ops cs = some cs')
    (hq : cs.witnessOnly = false) (hz : z 0 = 1) (hsat : cs'.SatFrom cs.a.length z) :
    Fits Op.Sat (fun n => z (cs'.var n)) ops :=
  ⟨_, (along_of_satFrom hz h ht hrun hq le_rfl hsat).2⟩

variable {set : List ℕ}

/-- The values of `member` where nothing else is known of the local names. -/
theorem memberBody_sat {ρ l : Var → ZMod p} {k kv : ℕ} (hc : Constants (ZMod p) set)
    (hl : isLocal name = false) (hk : k ∈ set) (hkv : kv ∈ set) (hname : ρ name = (k : ZMod p))
    (his : ∀ s ∈ set, ρ (.is name s) = if s = k then 1 else 0)
    (hloc : ∀ i < set.length, l (.xk i) = memberLocals (ZMod p) set k (.xk i) ∧ l (.l i) = memberLocals (ZMod p) set k (.l i) ∧ l (.r i) = memberLocals (ZMod p) set k (.r i) ∧ l (.cx i) = memberLocals (ZMod p) set k (.cx i)) :
    Holds Op.Sat (glue ρ l) (memberBody false name kv set) := by
  have hvalues : MemberValues (ZMod p) set name k (glue ρ l) := by
    constructor
    · exact hk
    · rw [glue_global hl, hname]
    · intro s hs
      have hglob : isLocal (Var.is name s) = false := rfl
      rw [glue_global hglob, his s hs]
    · exact fun i hi => (hloc i hi).1
    · exact fun i hi => (hloc i hi).2.1
    · exact fun i hi => (hloc i hi).2.2.1
    · exact fun i hi => (hloc i hi).2.2.2
  have hhonest : Holds (Op.Honest fun _ => true) (glue ρ l) (memberBody false name kv set) :=
    memberBody_holds hc hvalues hkv (Or.inr fun _ => rfl)
  exact hhonest.mono fun op ho => ho.sat

/-- The member that the builder has is in the set. -/
theorem mem_of_run {k : ℕ} (hrun : R1CS.run (member false name k set) cs = some cs') : k ∈ set := by
  have hsplit : (member false name k set : List (Op Var (ZMod p))) =
      .check [] (fun _ => set.contains k) :: ((setFieldVar name (k : ZMod p) ++
        (List.range set.length).flatMap (memberWitness name k set) ++
        ([eqi (.r 0) 0, eqi (.l (set.length - 1)) 0] ++
          (List.range set.length).flatMap (memberRows name set))) ++ [Op.sealLocals]) := by
    simp [member, memberBody]
  rw [hsplit, R1CS.run_cons, Option.bind_eq_some_iff] at hrun
  obtain ⟨cs₁, he, -⟩ := hrun
  simp only [R1CS.exec] at he
  split_ifs at he with hcheck
  simpa using hcheck

/-- The local names of `member` were free. -/
theorem memberLocals_free {k : ℕ} (hrun : R1CS.run (member false name k set) cs = some cs') {i : ℕ}
    (hi : i < set.length) :
    cs.vars (.xk i) = none ∧ cs.vars (.l i) = none ∧ cs.vars (.r i) = none ∧
      cs.vars (.cx i) = none := by
  rw [member, R1CS.run_append, Option.bind_eq_some_iff] at hrun
  obtain ⟨cs₁, hrun, -⟩ := hrun
  have hfree : ∀ n, (∃ j < set.length,
      Op.newLocalVar n ∈ (memberWitness name k set j : List (Op Var (ZMod p)))) →
      cs.vars n = none := by
    rintro n ⟨j, hj, hmem⟩
    refine vars_none_of_run sealFree_memberBody hrun ?_
    simp only [memberBody, List.mem_append, List.mem_flatMap, List.mem_range]
    exact Or.inl (Or.inr ⟨j, hj, hmem⟩)
  refine ⟨hfree _ ⟨i, hi, ?_⟩, hfree _ ⟨i, hi, ?_⟩, hfree _ ⟨set.length - 1 - i, by omega, ?_⟩,
    hfree _ ⟨i, hi, ?_⟩⟩
  · simp [memberWitness, setLocalVar]
  · simp [memberWitness, setLocalVar]
  · have hback : set.length - 1 - (set.length - 1 - i) = i := by omega
    simp [memberWitness, setLocalVar, hback]
  · simp [memberWitness, setLocalVar]

/-- After a seal only global names have columns. -/
theorem isLocal_of_sealed (h : Shaped cs') (hrun : R1CS.run (ops ++ [Op.sealLocals]) cs = some cs')
    {n : Var} {j : ℕ} (hj : cs'.vars n = some j) : isLocal n = false := by
  rw [R1CS.run_append, Option.bind_eq_some_iff] at hrun
  obtain ⟨cs₁, -, hseal⟩ := hrun
  have hlocals : cs'.locals = [] := by
    obtain rfl := Option.some.inj hseal
    rfl
  rw [Bool.eq_false_iff]
  intro hl
  have hmem := h.localsMem n (by rw [hj]; rfl) hl
  rw [hlocals] at hmem
  cases hmem

/-- **The rows of `member`** are satisfied exactly by the indicators of its set. -/
theorem member_exact (hp : 2 ^ 32 < p) {set : List U32} (h2 : 2 ≤ set.length) (hnodup : set.Nodup)
    (h : Shaped cs) (hq : cs.witnessOnly = false) (hl : isLocal name = false) {k : U32}
    (hrun : R1CS.run (member false name k.toNat (set.map BitVec.toNat)) cs = some cs')
    (hz : z 0 = 1) :
    Satisfies cs cs' z ↔ Indicates (fun n => z (cs'.var n)) name set := by
  have hc := constants_of_nodup hp h2 hnodup
  have ht : Tidy (member false name k.toNat (set.map BitVec.toNat)) cs :=
    tidy_of_neat (neat_member hl _ _) cs
  have h' := h.run ht hrun
  constructor
  · rintro ⟨z', hsame, hsat⟩
    have hz' : z' 0 = 1 := by rw [hsame 0 (Or.inl h.columns.pos), hz]
    have hvar : (fun n => z (cs'.var n)) = fun n => z' (cs'.var n) := by
      ext n
      cases hv : cs'.vars n with
      | none => rw [R1CS.var, hv, Option.getD_none, hz, hz']
      | some j => rw [R1CS.var_eq hv, hsame j (Or.inr ⟨n, hv⟩)]
    obtain ⟨m, hm, hname, his⟩ := Fits.member hc hl (fits_of_satFrom h ht hrun hq hz' hsat)
    obtain ⟨m, hmem, rfl⟩ := List.mem_map.mp hm
    rw [hvar]
    refine ⟨m, hmem, hname, fun s hs => ?_⟩
    refine (his _ (List.mem_map.mpr ⟨s, hs, rfl⟩)).trans ?_
    simp only [BitVec.toNat_inj]
  · rintro ⟨m, hmem, hname, his⟩
    -- local names that are in use keep their values
    let l : Var → ZMod p := fun n =>
      (cs.vars n).elim (memberLocals (ZMod p) (set.map BitVec.toNat) m.toNat n) z
    have hloc : ∀ n, cs.vars n = none →
        l n = memberLocals (ZMod p) (set.map BitVec.toNat) m.toNat n := by
      intro n hn
      show (cs.vars n).elim _ z = _
      rw [hn, Option.elim_none]
    have hbody : Holds Op.Sat (glue (fun n => z (cs'.var n)) l)
        (memberBody false name k.toNat (set.map BitVec.toNat)) := by
      apply memberBody_sat hc hl (List.mem_map.mpr ⟨m, hmem, rfl⟩) (mem_of_run hrun) hname
      · intro s hs
        obtain ⟨s, hmem', rfl⟩ := List.mem_map.mp hs
        refine (his s hmem').trans ?_
        simp only [BitVec.toNat_inj]
      · intro i hi
        obtain ⟨hxk, hleft, hright, hcx⟩ := memberLocals_free hrun hi
        exact ⟨hloc _ hxk, hloc _ hleft, hloc _ hright, hloc _ hcx⟩
    have hfit : Along Op.Sat (fun n => z (cs'.var n))
        (member false name k.toNat (set.map BitVec.toNat)) l := by
      rw [member, along_append sealFree_memberBody]
      exact ⟨hbody, along_seal.mpr ⟨l, along_nil⟩⟩
    obtain ⟨z', -, hsat, hold, hglob⟩ := exists_satFrom_of_along h ht hrun hq le_rfl hfit hz
      (by
        intro n j hj
        by_cases hn : isLocal n = true
        · rw [glue_local hn]
          show z j = (cs.vars n).elim _ z
          rw [hj, Option.elim_some]
        · have hglobal : isLocal n = false := by simpa using hn
          rw [glue_global hglobal, R1CS.var_eq (h.vars_run ht hrun hglobal hj)])
      (cs.satFrom_length z)
    refine ⟨z', ?_, hsat⟩
    rintro j (hj | ⟨n, hn⟩)
    · exact hold j hj
    · rw [hglob n j (isLocal_of_sealed h' hrun hn) hn, R1CS.var_eq hn]

/-! ## Arrays and the gadget in its circuit -/

/-- The assertions of a selector hold where it runs. -/
theorem size_of_run {n k : ℕ} (hrun : R1CS.run (selector false name n k ++ ops) cs = some cs') :
    2 < n ∧ k < n := by
  rw [selector, List.cons_append, R1CS.run_cons, Option.bind_eq_some_iff] at hrun
  obtain ⟨cs₁, he, -⟩ := hrun
  simp only [R1CS.exec] at he
  split_ifs at he with hcheck
  simpa using hcheck

/-- **`load_array` yields the selected element.** -/
theorem loadArray_forces (hp : 2 ^ 32 < p) {arr : ℕ → Var} {size : U32} {rs : ℕ}
    (harr : ∀ i, isLocal (arr i) = false) (hl : isLocal input = false)
    (hlo : isLocal output = false) (h : Shaped cs) (hq : cs.witnessOnly = false)
    (hrun : R1CS.run (loadArray false input output arr size.toNat rs) cs = some cs') (hz : z 0 = 1)
    (hsat : cs'.SatFrom cs.a.length z) :
    ∃ k, Selects (fun n => z (cs'.var n)) input size.toNat k ∧
      z (cs'.var output) = z (cs'.var (arr k)) := by
  have hsize := hrun
  rw [loadArray, List.append_assoc] at hsize
  have h2 := (size_of_run hsize).1
  have hlt := size.isLt
  have hc : Constants (ZMod p) (List.range size.toNat) :=
    constants_range hp (by omega) (by omega)
  exact Fits.loadArray hc harr hl hlo
    (fits_of_satFrom h (tidy_of_neat (neat_loadArray hl hlo _ _) cs) hrun hq hz hsat)

/-- The operands of `store_reg` are other variables than the registers and the selectors. -/
structure StoreNames (input output : Var) : Prop where
  input_global : isLocal input = false
  output_global : isLocal output = false
  input_x : ∀ i, input ≠ .x i
  input_x' : ∀ i, input ≠ .x' i
  output_x' : output ≠ .x' 0
  output_input : output ≠ input
  output_is : output ≠ .is input 1

theorem storeNames_rd : StoreNames .rd .Z :=
  ⟨rfl, rfl, nofun, nofun, nofun, nofun, nofun⟩

/-- The rows of `store_reg` force the output `i` to be the input, unless `i` is selected. -/
def Keeps (cs cs' : R1CS Var (ZMod p)) (input : Var) (i : ℕ) : Prop :=
  ∀ z, z 0 = 1 → cs'.SatFrom cs.a.length z → ∃ k, Selects (fun n => z (cs'.var n)) input 32 k ∧
    (z (cs'.var (.x' i)) ≠ z (cs'.var (.x i)) → i = k)

omit [Fact p.Prime] in
theorem is_ne_self (v : Var) (k : ℕ) : Var.is v k ≠ v := by
  intro h
  have hsize := congrArg sizeOf h
  rw [Var.is.sizeOf_spec] at hsize
  omega

/-- The register `1` is selected, all registers are zero, and `x'0` is one. -/
def forged (input : Var) : Var → ZMod p :=
  fun n => if n = .x' 0 ∨ n = input ∨ n = .is input 1 then 1 else 0

theorem forged_selects (input : Var) : Selects (forged input : Var → ZMod p) input 32 1 := by
  refine ⟨by decide, ?_, fun i _ => ?_⟩
  · rw [forged, if_pos (Or.inr (Or.inl rfl)), Nat.cast_one]
  · unfold forged
    have hiff : (Var.is input i = .x' 0 ∨ Var.is input i = input ∨
        Var.is input i = .is input 1) ↔ i = 1 := by
      constructor
      · rintro (h | h | h)
        · cases h
        · exact absurd h (is_ne_self input i)
        · cases h
          rfl
      · rintro rfl
        exact Or.inr (Or.inr rfl)
    simp only [hiff]

theorem forged_eq_zero {n : Var} (h0 : n ≠ .x' 0) (hin : n ≠ input) (his : n ≠ .is input 1) :
    (forged input : Var → ZMod p) n = 0 :=
  if_neg fun h => h.elim h0 fun h => h.elim hin his

/-- An assignment of the columns from values of the names. -/
theorem exists_columns (h : Shaped cs) (σ : Var → ZMod p) :
    ∃ z : ℕ → ZMod p, z 0 = 1 ∧ ∀ n j, cs.vars n = some j → z j = σ n := by
  classical
  refine ⟨fun j => if hj : ∃ n, cs.vars n = some j then σ hj.choose else 1, ?_, ?_⟩
  · have hnone : ¬ ∃ n, cs.vars n = some 0 := by
      rintro ⟨n, hn⟩
      exact absurd (h.columns.bound n 0 hn).1 (Nat.lt_irrefl 0)
    exact dif_neg hnone
  · intro n j hj
    have hex : ∃ n, cs.vars n = some j := ⟨n, hj⟩
    show (if hj : ∃ n, cs.vars n = some j then σ hj.choose else 1) = σ n
    rw [dif_pos hex, h.columns.inj _ n j hex.choose_spec hj]

/-- Rows that forge `x'0`: the register `1` is selected, `x0` is zero, and `x'0` is one. -/
theorem exists_forged (hp : 2 ^ 32 < p) (hnames : StoreNames input output) (h : Shaped cs)
    (hq : cs.witnessOnly = false) (hx : (cs.vars (.x 0)).isSome) {rs : ℕ}
    (hrun : R1CS.run (storeReg false input output rs) cs = some cs') :
    ∃ z, z 0 = 1 ∧ cs'.SatFrom cs.a.length z ∧ z (cs'.var input) = 1 ∧ z (cs'.var (.x' 0)) = 1 ∧
      z (cs'.var (.x 0)) = 0 := by
  have hc : Constants (ZMod p) (List.range 32) := constants_range hp (by omega) (by omega)
  have ht : Tidy (storeReg false input output rs) cs :=
    tidy_of_neat (neat_storeReg hnames.input_global rs) cs
  have hrs : rs < 32 := by
    have hsize := hrun
    rw [storeReg, List.append_assoc] at hsize
    exact (size_of_run hsize).2
  have hpass : Passes (Op.Honest fun _ => true) (forged input : Var → ZMod p)
      (storeReg false input output rs) := by
    apply storeReg_passes hc hnames.input_global hnames.output_global (forged_selects input) ?_
      hrs (Or.inr fun _ => rfl)
    intro i h1 _
    have hne : Var.x' i ≠ .x' 0 := by
      rintro ⟨⟩
      omega
    have hin : (forged input : Var → ZMod p) (.x i) = 0 :=
      forged_eq_zero (by simp) (hnames.input_x i).symm (by simp)
    rw [forged_eq_zero hne (hnames.input_x' i).symm (by simp),
      forged_eq_zero hnames.output_x' hnames.output_input hnames.output_is, hin, ite_self]
  obtain ⟨l, hfit⟩ := (hpass.mono fun _ _ ho => ho.sat).fits
  obtain ⟨z₀, hz₀, hval⟩ := exists_columns h (glue (forged input) l)
  obtain ⟨z, hz, hsat, -, hglob⟩ := exists_satFrom_of_along h ht hrun hq le_rfl hfit hz₀ hval
    (cs.satFrom_length z₀)
  have hread : ∀ n, isLocal n = false → (cs'.vars n).isSome → z (cs'.var n) = forged input n := by
    intro n hn hsome
    obtain ⟨j, hj⟩ := Option.isSome_iff_exists.mp hsome
    rw [R1CS.var_eq hj, hglob n j hn hj]
  refine ⟨z, hz, hsat, ?_, ?_, ?_⟩
  · rw [hread input hnames.input_global (h.isSome_run ht hrun hnames.input_global
      (by simp [storeReg, storeRegBody, setFieldVar]))]
    exact if_pos (Or.inr (Or.inl rfl))
  · rw [hread (.x' 0) rfl (h.isSome_run ht hrun rfl (by simp [storeReg, storeRegBody]))]
    exact if_pos (Or.inl rfl)
  · obtain ⟨j, hj⟩ := Option.isSome_iff_exists.mp hx
    rw [hread (.x 0) rfl (by rw [h.vars_run ht hrun rfl hj]; rfl)]
    exact forged_eq_zero (by simp) (hnames.input_x 0).symm (by simp)

/-- **`store_reg` keeps the other registers**, all but `x0`. -/
theorem keeps_iff (hp : 2 ^ 32 < p) (hnames : StoreNames input output) (h : Shaped cs)
    (hq : cs.witnessOnly = false) (hx : (cs.vars (.x 0)).isSome) {rs : ℕ}
    (hrun : R1CS.run (storeReg false input output rs) cs = some cs') {i : ℕ} (hi : i < 32) :
    Keeps cs cs' input i ↔ i ≠ 0 := by
  constructor
  · rintro hkeeps rfl
    obtain ⟨z, hz, hsat, hin, hout, hx0⟩ := exists_forged hp hnames h hq hx hrun
    obtain ⟨k, ⟨-, hkin, -⟩, hdiffer⟩ := hkeeps z hz hsat
    have hk0 : 0 = k := hdiffer (by rw [hout, hx0]; exact one_ne_zero)
    subst hk0
    have hzero : z (cs'.var input) = 0 := hkin.trans Nat.cast_zero
    exact one_ne_zero (hin.symm.trans hzero)
  · intro hpos z hz hsat
    have hc : Constants (ZMod p) (List.range 32) := constants_range hp (by omega) (by omega)
    have ht : Tidy (storeReg false input output rs) cs :=
      tidy_of_neat (neat_storeReg hnames.input_global rs) cs
    obtain ⟨k, hk, hout⟩ := Fits.storeReg hc hnames.input_global hnames.output_global
      (fits_of_satFrom h ht hrun hq hz hsat)
    refine ⟨k, hk, fun hne => ?_⟩
    by_contra hik
    exact hne ((hout i (Nat.one_le_iff_ne_zero.mpr hpos) hi).trans (if_neg hik))

/-- The step circuit ends with its output registers. -/
theorem stepBody_storeReg {P : Type} (w : Witness P) :
    ∃ ops : Ops p, stepBody w false = ops ++ storeReg false .rd .Z w.rd.toNat := by
  have hend : stepTail w false <:+ (stepBody w false : Ops p) :=
    ⟨stepHead w false ++ stepType w, by rw [stepBody_eq, List.append_assoc]⟩
  have hselect : storeReg false .rd .Z w.rd.toNat <:+ (stepTail w false : Ops p) := by
    unfold stepTail selectZ
    exact (List.suffix_append _ _).trans (List.suffix_append _ _)
  obtain ⟨ops, hops⟩ := hselect.trans hend
  exact ⟨ops, hops.symm⟩

theorem newVar_mem_initCs {P : Type} [MemoryProof P p] (w : Witness P) :
    .newVar (.x 0) ∈ (initCs w : Ops p) := by
  have hmem : Op.newVar (.x 0) ∈ ((List.range 32).flatMap fun i =>
      setVar (.x i) (w.regs.x (Fin.ofNat 32 i)) : Ops p) :=
    List.mem_flatMap.mpr ⟨0, by decide, List.mem_cons_self ..⟩
  simp only [initCs, List.mem_append]
  exact Or.inl (Or.inl (Or.inl (Or.inl (Or.inl (Or.inl (Or.inl (Or.inr hmem)))))))

/-- The builder from which the step circuit stores its output registers. -/
theorem stored_of_step {P : Type} [MemoryProof P p] {w : Witness P}
    (hstep : step w false = some cs') :
    ∃ cs : R1CS Var (ZMod p), Shaped cs ∧ cs.witnessOnly = false ∧ (cs.vars (.x 0)).isSome ∧
      R1CS.run (storeReg false .rd .Z w.rd.toNat) cs = some cs' := by
  obtain ⟨ty, hty⟩ := exists_typeOf hstep
  obtain ⟨S, hS, -⟩ := exists_steps hty
  obtain ⟨ops, hops⟩ := stepBody_storeReg (p := p) w
  have ht := (matches_empty arity).tidy hS
  have hrun := run_of_step hstep
  rw [hops, ← List.append_assoc] at ht hrun
  rw [R1CS.run_append, Option.bind_eq_some_iff] at hrun
  obtain ⟨cs, hrun, hstore⟩ := hrun
  have hempty := shaped_empty (N := Var) (F := ZMod p) arity
  exact ⟨cs, hempty.run ht.left hrun, R1CS.run_witnessOnly hrun,
    hempty.isSome_run ht.left hrun rfl (List.mem_append_left _ (newVar_mem_initCs w)), hstore⟩

/-- **Selectors are sound**: `member` accepts the indicators of its set, `load_array` forces its
output to be the selected element, and `store_reg` forces each output register but `x'0` to be
the input register, unless it is selected. -/
theorem selectors_sound_iff (hp : 2 ^ 32 < p) (h : Shaped cs) (hq : cs.witnessOnly = false) :
    (∀ (name : Var) (set : List U32) (k : U32), isLocal name = false → 2 ≤ set.length →
      set.Nodup → R1CS.run (member false name k.toNat (set.map BitVec.toNat)) cs = some cs' →
      ∀ z, z 0 = 1 → (Satisfies cs cs' z ↔ Indicates (fun n => z (cs'.var n)) name set)) ∧
    (∀ (input output : Var) (arr : ℕ → Var) (size : U32) (rs : ℕ), isLocal input = false →
      isLocal output = false → (∀ i, isLocal (arr i) = false) →
      R1CS.run (loadArray false input output arr size.toNat rs) cs = some cs' →
      ∀ z, z 0 = 1 → cs'.SatFrom cs.a.length z → ∃ k,
        Selects (fun n => z (cs'.var n)) input size.toNat k ∧
          z (cs'.var output) = z (cs'.var (arr k))) ∧
    (∀ (input output : Var) (rs : ℕ), StoreNames input output →
      (cs.vars (.x 0)).isSome →
      R1CS.run (storeReg false input output rs) cs = some cs' →
      ∀ i < 32, (Keeps cs cs' input i ↔ i ≠ 0)) := by
  refine ⟨?_, ?_, ?_⟩
  · intro name set k hl h2 hnodup hrun z hz
    exact member_exact hp h2 hnodup h hq hl hrun hz
  · intro input output arr size rs hl hlo harr hrun z hz hsat
    exact loadArray_forces hp harr hl hlo h hq hrun hz hsat
  · intro input output rs hnames hx hrun i hi
    exact keeps_iff hp hnames h hq hx hrun hi

/-- Membership in `{0, 1}`, and the output register `x'1` of `addi x0, x0, 0`. -/
theorem selectors_sound_iff_idle :
    (∃ cs' : R1CS Var (ZMod prime521), R1CS.run (member false .rd 1 [0, 1]) default = some cs' ∧
      ∀ z, z 0 = 1 →
        (Satisfies default cs' z ↔ Indicates (fun n => z (cs'.var n)) .rd [0, 1])) ∧
    ∃ cs cs' : R1CS Var (ZMod prime521),
      R1CS.run (storeReg false .rd .Z 0) cs = some cs' ∧ Keeps cs cs' .rd 1 := by
  constructor
  · have hsome : (R1CS.run (member false .rd 1 [0, 1])
        (default : R1CS Var (ZMod prime521))).isSome = true := by decide +kernel
    obtain ⟨cs', hrun⟩ := Option.isSome_iff_exists.mp hsome
    exact ⟨cs', hrun, (selectors_sound_iff word_lt_prime521 (shaped_empty 0) rfl).1 .rd [0, 1] 1
      rfl (by decide) (by decide) hrun⟩
  · obtain ⟨cs', hcs'⟩ := idle_built word_lt_prime521
    obtain ⟨cs, h, hq, hx, hrun⟩ := stored_of_step hcs'
    exact ⟨cs, cs', hrun, ((selectors_sound_iff word_lt_prime521 h hq).2.2 .rd .Z _ storeNames_rd
      hx hrun 1 (by decide)).mpr (by decide)⟩

/-- **`store_reg` is not sound** at index zero: `x'0` differs from `x0`, and `rd` is `1`. -/
theorem storeReg_forged :
    ∃ cs cs' : R1CS Var (ZMod prime521), R1CS.run (storeReg false .rd .Z 0) cs = some cs' ∧
      ∃ z, z 0 = 1 ∧ cs'.SatFrom cs.a.length z ∧ z (cs'.var .rd) = 1 ∧
        z (cs'.var (.x' 0)) = 1 ∧ z (cs'.var (.x 0)) = 0 := by
  obtain ⟨cs', hcs'⟩ := idle_built word_lt_prime521
  obtain ⟨cs, h, hq, hx, hrun⟩ := stored_of_step hcs'
  exact ⟨cs, cs', hrun, exists_forged word_lt_prime521 storeNames_rd h hq hx hrun⟩

end Selectors

end NexusVm.Circuit
