import NexusVm.Builder.Like
import NexusVm.Circuit.Riscv
import NexusVm.Circuit.Slots

/-!
# One circuit for all witnesses

The gadgets make the same calls with the same coefficients whatever values
they are given, except for the call that sets the instruction's format.  The
circuit of a witness therefore has the rows of any other, and it is well scoped
because one of them is.
-/

namespace NexusVm.Circuit

open NexusVm.Builder

section Calls

variable {F G : Type} {R : F → G → Prop}

theorem like_setFieldVar {n : Var} {v : F} {v' : G} :
    Like R (setFieldVar n v) (setFieldVar n v') := by
  simp [setFieldVar, Op.Like]

theorem like_setLocalVar {n : Var} {reads : List Var} {f : (Var → F) → F} {f' : (Var → G) → G} :
    Like R (setLocalVar n reads f) (setLocalVar n reads f') := by
  simp [setLocalVar, Op.Like]

variable [Field F] [Field G]

theorem like_setVar {n : Var} {v v' : U32} : Like R (setVar n v) (setVar n v') :=
  like_setFieldVar

section Constants

variable (hR : Uniform R)
include hR

theorem like_powRow {c : F} {c' : G} {ns : List Var} (f : ∀ (K : Type) [Field K], K)
    (hc : f F = c) (hc' : f G = c') :
    List.Forall₂ (Term.Like R) (powRow c ns) (powRow c' ns) := by
  induction ns generalizing c c' f with
  | nil => exact List.Forall₂.nil
  | cons n ns ih =>
      subst hc
      subst hc'
      exact List.Forall₂.cons ⟨rfl, hR.of f⟩ (ih (fun K _ => f K * 2) rfl rfl)

theorem like_powOne {ns : List Var} :
    List.Forall₂ (Term.Like R) (powRow (1 : F) ns) (powRow (1 : G) ns) :=
  like_powRow hR (fun _ _ => 1) rfl rfl

theorem like_mul {a b c : Var} : (mul a b c : Op Var F).Like R (mul a b c) := by
  simp [mul, Op.Like, Term.Like, hR.one]

theorem like_add {a b c : Var} : (add a b c : Op Var F).Like R (add a b c) := by
  simp [add, Op.Like, Term.Like, hR.one]

theorem like_muli {a b : Var} (f : ∀ (K : Type) [Field K], K) :
    (muli a b (f F)).Like R (muli a b (f G)) := by
  simp [muli, Op.Like, Term.Like, hR.one, hR.of f]

theorem like_addi {a b : Var} (f : ∀ (K : Type) [Field K], K) :
    (addi a b (f F)).Like R (addi a b (f G)) := by
  simp [addi, Op.Like, Term.Like, hR.one, hR.of f]

theorem like_eqi {a : Var} (f : ∀ (K : Type) [Field K], K) :
    (eqi a (f F)).Like R (eqi a (f G)) := by
  simp [eqi, Op.Like, Term.Like, hR.one, hR.of f]

theorem like_sumRow {output : Var} {names : List Var} :
    (sumRow output names : Op Var F).Like R (sumRow output names) := by
  refine ⟨likeTerms_map fun n _ => ⟨rfl, hR.one⟩, ?_, ?_⟩ <;> simp [Term.Like, hR.one]

theorem like_setEq {n v : Var} : Like R (setEq n v : List (Op Var F)) (setEq n v) := by
  simp [setEq, Op.Like, Term.Like, hR.one]

theorem like_setBitFrom {n : Var} {reads : List Var} {q : (Var → F) → Bool}
    {q' : (Var → G) → Bool} : Like R (setBitFrom n reads q) (setBitFrom n reads q') := by
  simp [setBitFrom, Op.Like, Term.Like, hR.one, hR.neg_one]

theorem like_setBit {n : Var} {b b' : Bool} : Like R (setBit n b) (setBit n b') :=
  like_setBitFrom hR

theorem like_toBits {n : Var} {v v' : U32} : Like R (toBits n v) (toBits n v') := by
  refine (like_setVar.append (like_flatMap fun i _ => like_setBit hR)).append ?_
  simp only [like_cons, like_nil, and_true]
  refine ⟨likeTerms_map fun i _ => ⟨rfl, hR.natCast (2 ^ i)⟩, ?_, ?_⟩ <;>
    simp [Term.Like, hR.one]

end Constants

end Calls

section Arrays

variable {F G : Type} [Field F] [Field G] {R : F → G → Prop} (hR : Uniform R)
include hR

variable {wo : Bool}

theorem like_member {name : Var} {k k' : ℕ} {set : List ℕ} :
    Like R (member wo name k set) (member wo name k' set) := by
  have hcheck : Like R [(.check [] fun _ => set.contains k : Op Var F)]
      [.check [] fun _ => set.contains k'] := by
    simp [Op.Like]
  have hwitness : ∀ i ∈ List.range set.length,
      Like R (memberWitness name k set i : List (Op Var F)) (memberWitness name k' set i) :=
    fun i _ => (((like_setLocalVar.append like_setLocalVar).append like_setLocalVar).append
      like_setLocalVar).append like_setFieldVar
  have hrows : ∀ i ∈ List.range set.length,
      Like R (memberRows name set i : List (Op Var F)) (memberRows name set i) := by
    intro i _
    simp only [memberRows, like_cons, like_nil, and_true]
    refine ⟨like_addi hR fun K _ => 0 - (set.getD i 0 : K), ?_, ?_, ?_,
      like_muli hR fun K _ => 1 / memberC set (set.getD i 0)⟩
    all_goals
      split_ifs
      all_goals first | exact like_mul hR | exact like_muli hR fun _ _ => 1
  refine Like.append (((hcheck.append like_setFieldVar).append (like_flatMap hwitness)).append
    (like_ite (fun _ => like_nil) fun _ => Like.append ?_ (like_flatMap hrows))) ?_
  · simp only [like_cons, like_nil, and_true]
    exact ⟨like_eqi hR fun _ _ => 0, like_eqi hR fun _ _ => 0⟩
  · simp [Op.Like]

theorem like_selector {name : Var} {n k k' : ℕ} :
    Like R (selector wo name n k) (selector wo name n k') :=
  like_cons.mpr ⟨rfl, like_member hR⟩

theorem like_loadArray {input output : Var} {arr : ℕ → Var} {size rs rs' : ℕ} :
    Like R (loadArray wo input output arr size rs) (loadArray wo input output arr size rs') := by
  refine ((like_selector hR).append (((like_setFieldVar.append
    (like_flatMap fun i _ => like_setLocalVar)).append ?_).append
    (like_ite (fun _ => like_nil) fun _ => (like_map fun i _ => like_mul hR).append ?_))).append ?_
  · simp [Op.Like]
  · simpa using like_sumRow hR
  · simp [Op.Like]

theorem like_storeReg {input output : Var} {rs rs' : ℕ} :
    Like R (storeReg wo input output rs) (storeReg wo input output rs') := by
  refine ((like_selector hR).append (((like_setFieldVar.append ?_).append
    (like_flatMap fun i _ => (Like.append ?_ like_setLocalVar).append like_setLocalVar)).append
    (like_ite (fun _ => like_nil) fun _ => like_flatMap fun i _ => ?_))).append ?_
  · simp [Op.Like]
  · simp [Op.Like]
  · simp only [like_cons, like_nil, and_true]
    exact ⟨by simp [Op.Like, Term.Like, hR.one, hR.neg_one], like_mul hR, like_add hR⟩
  · simp [Op.Like]

end Arrays

/-! ## Gadgets of the step circuit and parts of the circuit -/

section Riscv

variable {p q : ℕ} [Fact p.Prime] [Fact q.Prime] {R : ZMod p → ZMod q → Prop} {P Q : Type}

/-- The terms of a sum, and of a sum of negated names. -/
theorem likeTerms_put {xs : List ℕ} {g : ℕ → Var} (f : ∀ (K : Type) [Field K], K)
    (hR : Uniform R) : List.Forall₂ (Term.Like R) (xs.map fun x => .put (g x) (f (ZMod p)))
      (xs.map fun x => .put (g x) (f (ZMod q))) :=
  likeTerms_map fun _ _ => ⟨rfl, hR.of f⟩

theorem like_initCs [MemoryProof P p] [MemoryProof Q q] (w : Witness P) (w' : Witness Q) :
    Like R (initCs w) (initCs w') := by
  have hproof : ∀ (pre : Var) (d : P) (d' : Q), Like R (addProof pre d) (addProof pre d') :=
    fun pre d d' => like_setFieldVar.append like_setFieldVar
  have hregs : ∀ (v : ℕ → Var), Like R
      ((List.range 32).flatMap fun i => setVar (v i) (w.regs.x (Fin.ofNat 32 i)))
      ((List.range 32).flatMap fun i => setVar (v i) (w'.regs.x (Fin.ofNat 32 i))) :=
    fun v => like_flatMap fun i _ => like_setVar
  exact (((((((like_setVar.append (hregs .x)).append like_setFieldVar).append like_setVar).append
    (hregs .x')).append like_setFieldVar).append (hproof _ _ _)).append (hproof _ _ _)).append
    (hproof _ _ _)

variable (hR : Uniform R)
include hR

variable {wo : Bool}

theorem like_parseOpcBody :
    Like R (parseOpcBody wo : Ops p) (parseOpcBody wo : Ops q) := by
  refine ((((like_setEq hR).append (like_setEq hR)).append (like_setEq hR)).append
    (like_setEq hR)).append (like_ite (fun _ => like_nil) fun _ => ?_)
  simp only [parseOpcRows, like_cons, like_nil, and_true]
  refine ⟨like_add hR, like_add hR, like_sumRow hR, ⟨like_powOne hR, ?_, ?_⟩,
    ⟨like_powOne hR, ?_, ?_⟩, ⟨like_powOne hR, ?_, ?_⟩, ⟨like_powOne hR, ?_, ?_⟩⟩
  all_goals simp [Term.Like, hR.one, hR.neg_one]

theorem like_immRow {ty : Ty} {names : List Var} (f g : ∀ (K : Type) [Field K], K) :
    (immRow ty (f (ZMod p)) names (g (ZMod p))).Like R
      (immRow ty (f (ZMod q)) names (g (ZMod q))) := by
  refine ⟨likeTerms_append (like_powRow hR f rfl rfl) ?_, ?_, ?_⟩
  · simp [Term.Like, hR.of g]
  · simp [Term.Like, hR.one]
  · simp [Term.Like, hR.one]

theorem like_parseImm {v v' : U32} :
    Like R (parseImm wo v : Ops p) (parseImm wo v' : Ops q) := by
  have hrows : Like R (parseImmRows : Ops p) (parseImmRows : Ops q) := by
    simp only [parseImmRows, like_cons, like_nil, and_true]
    refine ⟨like_add hR, like_mul hR, ?_, like_add hR, like_sumRow hR, ⟨like_powOne hR, ?_, ?_⟩,
      ⟨like_powOne hR, ?_, ?_⟩, ⟨like_powOne hR, ?_, ?_⟩, like_addi hR fun _ _ => 32,
      like_immRow hR (fun _ _ => 1) fun _ _ => 0xfffff800,
      like_immRow hR (fun _ _ => 1) fun _ _ => 0xfffff800,
      like_immRow hR (fun _ _ => 2) fun _ _ => 0xfffff000,
      ⟨like_powRow hR (fun _ _ => 2 ^ 12) rfl rfl, ?_, ?_⟩,
      like_immRow hR (fun _ _ => 2) fun _ _ => 0xfff00000⟩
    all_goals simp [Op.Like, Term.Like, hR.one, hR.neg_one]
  refine ((((((((((((like_setVar.append like_setVar).append like_setVar).append
    like_setVar).append like_setVar).append like_setVar).append like_setVar).append
    like_setVar).append ?_).append (like_selector hR)).append
    (((((like_flatMap fun ty _ => like_setLocalVar).append like_setLocalVar).append
      like_setLocalVar).append like_setLocalVar).append
      (like_ite (fun _ => like_nil) fun _ => hrows))).append ?_))
  all_goals simp [Op.Like]

theorem like_parseShamt {v v' : U32} :
    Like R (parseShamt wo v : Ops p) (parseShamt wo v' : Ops q) := by
  refine ((((like_setVar.append like_setLocalVar).append like_setLocalVar).append
    (like_ite (fun _ => like_nil) fun _ => ?_))).append ?_
  · simp only [like_cons, like_nil, and_true]
    exact ⟨⟨like_powOne hR, by simp [Term.Like, hR.one], by simp [Term.Like, hR.one]⟩,
      like_mul hR, like_mul hR, like_add hR⟩
  · simp [Op.Like]

theorem like_parseJ {j j' : ℕ} : Like R (parseJ j : Ops p) (parseJ j' : Ops q) := by
  have hsum : List.Forall₂ (Term.Like R)
      ((List.range' 1 RV32.maxJ).map fun j => .put (Var.is .J j) 1)
      ((List.range' 1 RV32.maxJ).map fun j => .put (Var.is .J j) 1) :=
    likeTerms_put (fun _ _ => 1) hR
  have hflags : Like R (parseJFlags : Ops p) (parseJFlags : Ops q) := by
    simp [parseJFlags, Op.Like, Term.Like, mul, hR.one, hR.neg_one]
  have hjumps : Like R (parseJJumps : Ops p) (parseJJumps : Ops q) := by
    simp [parseJJumps, setEqJ, mulJ, setEq, mul, nand, Op.Like, Term.Like, hR.one]
  have hmemory : Like R (parseJMemory : Ops p) (parseJMemory : Ops q) := by
    simp [parseJMemory, mulJ, mul, Op.Like, Term.Like, hR.one]
  have halui : Like R (parseJAlui : Ops p) (parseJAlui : Ops q) := by
    simp [parseJAlui, mulJ, nandJ, setVar, setFieldVar, mul, nand, Op.Like, Term.Like, hR.one]
  have halu : Like R (parseJAlu : Ops p) (parseJAlu : Ops q) := by
    simp [parseJAlu, mulJ, nandJ, mul, nand, Op.Like, Term.Like, hR.one]
  have hmisc : Like R (parseJMisc : Ops p) (parseJMisc : Ops q) := by
    refine ((like_setEq hR).append like_setLocalVar).append ?_
    simp only [like_cons, like_nil, and_true]
    exact ⟨by simp [Op.Like, Term.Like, hR.one, hR.neg_one], like_mul hR, like_mul hR,
      like_mul hR, hsum, by simp [Term.Like, hR.one], by simp [Term.Like, hR.one]⟩
  exact (((((((like_setFieldVar.append (like_flatMap fun j _ => like_setBit hR)).append
    hflags).append hjumps).append hmemory).append halui).append halu).append hmisc).append
    (by simp [Op.Like])

theorem like_addCir {z x y : Var} {a b a' b' : U32} :
    Like R (addCir z x y a b : Ops p) (addCir z x y a' b' : Ops q) := by
  refine ((like_setVar.append like_setLocalVar).append ?_).append ?_
  · have hO := hR.ofNat 0x100000000
    simp [Op.Like, Term.Like, hR.one, hO]
  · simp [Op.Like]

theorem like_subCir {z x y : Var} {a b a' b' : U32} :
    Like R (subCir z x y a b : Ops p) (subCir z x y a' b' : Ops q) := by
  have hO := hR.natCast 0x100000000
  have h2 := hR.neg_ofNat 2
  simp only [subCir, subCirFlags, subCirSigned, setBit, setBitFrom, setVar, setFieldVar,
    setLocalVar, mul, List.cons_append, List.nil_append, like_cons, like_nil, Op.Like, Term.Like,
    List.forall₂_cons, List.Forall₂.nil, hR.one, hR.neg_one, hO, h2, and_true]

variable {output : Var} {I I' : ℕ}

theorem like_shiftBody {value value' : ℕ → U32} {terms : ℕ → List (Term Var (ZMod p))}
    {terms' : ℕ → List (Term Var (ZMod q))}
    (h : ∀ amt, List.Forall₂ (Term.Like R) (terms amt) (terms' amt)) :
    Like R (shiftBody output I value terms ++ [Op.sealLocals])
      (shiftBody output I' value' terms' ++ [Op.sealLocals]) := by
  refine ((like_setVar.append (like_flatMap fun amt _ => ((like_ite ?_ ?_).append
    like_setLocalVar).append ?_)).append ?_).append ?_
  · exact fun _ => Like.append (by simp [Op.Like]) (like_setEq hR)
  · refine fun _ => like_setLocalVar.append ?_
    simp only [like_cons, like_nil, and_true]
    exact ⟨h amt, by simp [Term.Like, hR.one], by simp [Term.Like, hR.one]⟩
  · simpa using like_mul hR
  · simpa using like_sumRow hR
  · simp [Op.Like]

theorem like_shiftRight {x x' : U32} {arith : Bool} :
    Like R (shiftRight output x I arith) (shiftRight output x' I' arith) := by
  refine like_shiftBody hR fun amt => likeTerms_flatMap fun i _ => ?_
  split_ifs <;> simp [Term.Like, hR.of fun _ _ => 2 ^ i]

theorem like_shiftLeft {x x' : U32} :
    Like R (shiftLeft output x I) (shiftLeft output x' I') := by
  refine like_shiftBody hR fun amt => likeTerms_flatMap fun i _ => ?_
  split_ifs <;> simp [Term.Like, hR.of fun _ _ => 2 ^ i]

theorem like_bitop {output y : Var} {z z' : U32} {adj : ZMod p} {adj' : ZMod q}
    (h : R adj adj') : Like R (bitop output y z adj) (bitop output y z' adj') := by
  refine (like_toBits hR).append (like_flatMap fun i _ => (like_setBit hR).append ?_)
  simp [Op.Like, Term.Like, hR.one, h]

theorem like_bitops (w : Witness P) (w' : Witness Q) : Like R (bitops w) (bitops w') := by
  have hmul : ∀ a b c : Var, Like R [(mul a b c : Op Var (ZMod p))] [mul a b c] :=
    fun a b c => by simpa using like_mul hR
  have hand : ∀ v v' u u' : U32, Like R
      ((List.range 32).flatMap fun i =>
        setBit (.bit (.conj .X .Y) i) (v.getLsbD i) ++
          [mul (.bit (.conj .X .Y) i) (.bit .X i) (.bit .Y i)] ++
          setBit (.bit (.conj .X .I) i) (u.getLsbD i) ++
          [mul (.bit (.conj .X .I) i) (.bit .X i) (.bit .I i)])
      ((List.range 32).flatMap fun i =>
        setBit (.bit (.conj .X .Y) i) (v'.getLsbD i) ++
          [mul (.bit (.conj .X .Y) i) (.bit .X i) (.bit .Y i)] ++
          setBit (.bit (.conj .X .I) i) (u'.getLsbD i) ++
          [mul (.bit (.conj .X .I) i) (.bit .X i) (.bit .I i)]) :=
    fun _ _ _ _ => like_flatMap fun i _ =>
      (((like_setBit hR).append (hmul _ _ _)).append (like_setBit hR)).append (hmul _ _ _)
  have hor := hR.neg_one
  have hxor := hR.neg_ofNat 2
  exact ((((((((like_toBits hR).append (like_toBits hR)).append (hand _ _ _ _)).append
    (like_setEq hR)).append (like_setEq hR)).append (like_bitop hR hor)).append
    (like_bitop hR hor)).append (like_bitop hR hxor)).append (like_bitop hR hxor)

theorem like_alu (w : Witness P) (w' : Witness Q) :
    Like R (alu wo w) (alu wo w') := by
  have hslt : Like R (sltCs : Ops p) (sltCs : Ops q) :=
    (((like_setEq hR).append (like_setEq hR)).append (like_setEq hR)).append (like_setEq hR)
  have hshift : Like R (shift wo w) (shift wo w') :=
    ((((((like_selector hR).append (like_shiftLeft hR)).append (like_shiftRight hR)).append
      (like_shiftRight hR)).append (like_shiftLeft hR)).append (like_shiftRight hR)).append
      (like_shiftRight hR)
  exact (((((((((like_addCir hR).append (like_setEq hR)).append
    ((like_addCir hR).append (like_setEq hR))).append
    ((like_subCir hR).append (like_setEq hR))).append
    ((like_subCir hR).append (like_setEq hR))).append hslt).append hshift).append
    (like_bitops hR w w')).append (like_flatMap fun j _ => like_setEq hR))

theorem like_branch {J : ℕ} {cond inverse : Var} :
    Like R (branch J cond inverse : Ops p) (branch J cond inverse : Ops q) := by
  have hmul : ∀ a b c : Var, Like R [(mul a b c : Op Var (ZMod p))] [mul a b c] :=
    fun a b c => by simpa using like_mul hR
  refine ((((((((Like.append ?_ like_setLocalVar).append (hmul _ _ _)).append
    like_setLocalVar).append (hmul _ _ _)).append ?_).append like_setVar).append ?_)).append ?_
  · simp [Op.Like]
  · simp only [like_cons, like_nil, and_true]
    exact ⟨rfl, ⟨rfl, rfl⟩, like_add hR⟩
  · simp [Op.Like, Term.Like, hR.one]
  · simp [Op.Like]

theorem like_br : Like R (br : Ops p) (br : Ops q) :=
  (((((like_branch hR).append (like_branch hR)).append (like_branch hR)).append
    (like_branch hR)).append (like_branch hR)).append (like_branch hR)

theorem like_split128 {scalar : Var} {widths : List ℕ} :
    Like R (split128 scalar widths : Ops p) (split128 scalar widths : Ops q) := by
  refine ((Like.append ?_ (like_flatMap fun i _ => like_setBitFrom hR)).append ?_).append
    (like_flatMap fun width _ => like_flatMap fun i _ => ?_)
  · simp [Op.Like]
  all_goals
    simp only [like_cons, like_nil, and_true, Op.Like]
    simp [like_powOne hR, Term.Like, hR.one]

theorem like_loadWidths {addrName name : Var} {widths : List ℕ} {addr addr' count : ℕ} :
    Like R (loadWidths wo addrName name widths addr count : Ops p)
      (loadWidths wo addrName name widths addr' count : Ops q) := by
  induction widths generalizing addr addr' count with
  | nil => exact like_nil
  | cons width widths ih => exact (like_loadArray hR).append ih

theorem like_loadSelect {wo wordOnly : Bool} {addrName name : Var} {addr addr' : U32} :
    Like R (loadSelect wo addrName name addr wordOnly : Ops p)
      (loadSelect wo addrName name addr' wordOnly : Ops q) := by
  refine (Like.append (Like.append ?_ (like_ite (fun _ => like_nil) fun _ => ?_))
    (like_split128 hR)).append (like_ite (fun _ => like_loadWidths hR) fun _ =>
      like_loadWidths hR)
  · simp [Op.Like]
  · simp [Op.Like, Term.Like, hR.one, hR.neg_one]

theorem like_sx {n : ℕ} {output input : Var} :
    Like R (sx wo n output input : Ops p) (sx wo n output input : Ops q) := by
  refine ((like_setBitFrom hR).append ?_).append (like_ite (fun _ => like_nil) fun _ => ?_)
  · simp [Op.Like]
  · have hpow := hR.natCast (2 ^ n)
    have htop := hR.natCast (2 ^ 32 - 2 ^ n)
    simp only [like_cons, like_nil, and_true, Op.Like, List.forall₂_cons, List.Forall₂.nil,
      Term.Like, hR.one, hpow, htop]

theorem like_load (w : Witness P) (w' : Witness Q) :
    Like R (load wo w) (load wo w') :=
  (((((((((((like_toBits hR).append (like_loadSelect hR)).append (like_setEq hR)).append
    (like_setEq hR)).append (like_setEq hR)).append (like_setEq hR)).append
    (like_setEq hR)).append (like_setEq hR)).append (like_sx hR)).append (like_setEq hR)).append
    (like_sx hR)).append (like_setEq hR)

theorem like_storeUnit {J width : ℕ} {a b : List (Term Var (ZMod p))}
    {a' b' : List (Term Var (ZMod q))} (ha : List.Forall₂ (Term.Like R) a a')
    (hb : List.Forall₂ (Term.Like R) b b') :
    Like R (storeUnit wo J width a b) (storeUnit wo J width a' b') := by
  refine ((like_setVar.append (like_setEq hR)).append ?_).append
    (like_ite (fun _ => like_nil) fun _ => ?_)
  · simp [Op.Like]
  · simp only [like_cons, like_nil, and_true]
    exact ⟨like_mul hR, ha, hb, by simp [Term.Like, hR.one]⟩

theorem like_store (w : Witness P) (w' : Witness Q) :
    Like R (store wo w) (store wo w') := by
  have hput : ∀ n : Var, List.Forall₂ (Term.Like R) [.put n 1] [.put n 1] :=
    fun n => by simp [Term.Like, hR.one]
  exact (((like_loadSelect hR).append (like_storeUnit hR (hput _) (hput _))).append
    (like_storeUnit hR (like_powOne hR) (hput _))).append
    (like_storeUnit hR (like_powOne hR) (hput _))

theorem like_misc : Like R (misc : Ops p) (misc : Ops q) :=
  (((like_setVar.append (like_setEq hR)).append (like_setVar.append (like_setEq hR))).append
    like_setVar).append (like_setEq hR)

theorem like_selectJ (w : Witness P) (w' : Witness Q) : Like R (selectJ w) (selectJ w') := by
  have hmul : ∀ a b c : Var, Like R [(mul a b c : Op Var (ZMod p))] [mul a b c] :=
    fun a b c => by simpa using like_mul hR
  refine (like_flatMap fun j _ => ((like_setVar.append (hmul _ _ _)).append like_setVar).append
    (hmul _ _ _)).append ?_
  simp only [like_cons, like_nil, and_true]
  exact ⟨like_sumRow hR, like_sumRow hR⟩

end Riscv

section Parts

variable {p : ℕ} [Fact p.Prime] {P : Type}

/-- The calls before the format of the instruction is set. -/
def stepHead (w : Witness P) (wo : Bool) : Ops p :=
  selectXY wo w.rs1 w.rs2 ++ toBits .pc w.regs.pc ++ toBits .X w.X ++ toBits .Y w.Y ++
    toBits .I w.I ++ toBits .Z w.Z ++ toBits .PC w.PC ++ setVar .rd w.rd ++ setVar .rs1 w.rs1 ++
    setVar .rs2 w.rs2 ++ setVar .shamt w.shamt ++ toBits .inst w.inst

/-- The calls that set the format. -/
def stepType (w : Witness P) : Ops p := typeBits ++ setType (opcode w.inst).toNat

/-- The calls after the format is set. -/
def stepTail (w : Witness P) (wo : Bool) : Ops p :=
  member wo .opcode (opcode w.inst).toNat opcodes ++ (parseOpcBody wo ++ [Op.sealLocals]) ++
    parseImm wo w.inst ++ parseShamt wo w.Y ++ parseJ w.J ++ setVar .four 4 ++
    addCir .pc4 .pc .four w.regs.pc 4 ++ addCir (.plus .pc .I) .pc .I w.regs.pc w.I ++ alu wo w ++
    luiCs w ++ auipcCs ++ jalCs ++ jalrCs ++ br ++ load wo w ++ store wo w ++ ecall w ++ misc ++
    selectJ w ++ selectZ wo w.rd

theorem stepBody_eq (w : Witness P) (wo : Bool) :
    (stepBody w wo : Ops p) = stepHead w wo ++ (stepType w ++ stepTail w wo) := by
  unfold stepBody stepGadgets stepHead stepType stepTail parseOpc
  simp only [List.flatten_cons, List.flatten_nil, List.append_assoc, List.append_nil]

variable {q : ℕ} [Fact q.Prime] {Q : Type} {R : ZMod p → ZMod q → Prop}

theorem like_stepHead (hR : Uniform R) {wo : Bool} (w : Witness P) (w' : Witness Q) :
    Like R (stepHead w wo) (stepHead w' wo) :=
  ((((((((((((like_loadArray hR).append (like_loadArray hR)).append (like_toBits hR)).append
    (like_toBits hR)).append (like_toBits hR)).append (like_toBits hR)).append
    (like_toBits hR)).append (like_toBits hR)).append like_setVar).append like_setVar).append
    like_setVar).append like_setVar).append (like_toBits hR)

theorem like_stepTail (hR : Uniform R) {wo : Bool} (w : Witness P) (w' : Witness Q) :
    Like R (stepTail w wo) (stepTail w' wo) := by
  have hseal : Like R [(.sealLocals : Op Var (ZMod p))] [Op.sealLocals] := by simp [Op.Like]
  have hnew : Like R [(.newVar .Z : Op Var (ZMod p))] [.newVar .Z] := by simp [Op.Like]
  exact ((((((((((((((((((((like_member hR).append ((like_parseOpcBody hR).append hseal)).append
    (like_parseImm hR)).append (like_parseShamt hR)).append (like_parseJ hR)).append
    like_setVar).append (like_addCir hR)).append (like_addCir hR)).append
    (like_alu hR w w')).append (like_setVar.append (like_setEq hR))).append
    ((like_setEq hR).append (like_setEq hR))).append
    ((like_setEq hR).append (like_setEq hR))).append
    ((like_setEq hR).append (like_setEq hR))).append (like_br hR)).append
    (like_load hR w w')).append (like_store hR w w')).append
    (like_setVar.append (like_setEq hR))).append (like_misc hR)).append
    (like_selectJ hR w w')).append (hnew.append (like_storeReg hR)))

end Parts

end NexusVm.Circuit
