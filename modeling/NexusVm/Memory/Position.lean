import NexusVm.Memory.Merkle
import Mathlib.Tactic.LinearCombination

/-!
# What a path binds

A path of full height that verifies against a trie carries the line at its own
turns, as long as no two of the inputs that were hashed collide.

The turns leave out the top bit of the address, so what is bound is the line at half of it.  The
tries are those that updates reach from the empty one.  The assumption on the hashes is about
the finitely many inputs of the trie and of the path, not about all of them, so that a hash with
collisions elsewhere, as every hash has, meets it.
-/

namespace NexusVm

theorem leNat_lt (bs : List U8) : leNat bs < 256 ^ bs.length := by
  induction bs with
  | nil => decide
  | cons b bs ih =>
      have hb : b.toNat < 256 := b.isLt
      rw [leNat, List.length_cons, pow_succ]
      omega

theorem leNat_injective {bs bs' : List U8} (hlen : bs.length = bs'.length)
    (h : leNat bs = leNat bs') : bs = bs' := by
  induction bs generalizing bs' with
  | nil => exact (List.length_eq_zero_iff.mp hlen.symm).symm
  | cons b bs ih =>
      cases bs' with
      | nil => cases hlen
      | cons b' bs' =>
          have hb : b.toNat < 256 := b.isLt
          have hb' : b'.toNat < 256 := b'.isLt
          rw [leNat, leNat] at h
          have hhead : b = b' := BitVec.eq_of_toNat_eq (by omega)
          rw [hhead, ih (Nat.succ.inj hlen) (by omega)]

/-- Sixteen bytes fit into a scalar. -/
theorem cast_leNat_injective {p : ℕ} (hF : 2 ^ 128 ≤ p) {bs bs' : List U8}
    (hbs : bs.length = 16) (hbs' : bs'.length = 16)
    (h : (leNat bs : ZMod p) = (leNat bs' : ZMod p)) : bs = bs' := by
  have hlt := leNat_lt bs
  have hlt' := leNat_lt bs'
  have hpow : (256 : ℕ) ^ 16 = 2 ^ 128 := by norm_num
  rw [hbs, hpow] at hlt
  rw [hbs', hpow] at hlt'
  rw [ZMod.natCast_eq_natCast_iff', Nat.mod_eq_of_lt (by omega), Nat.mod_eq_of_lt (by omega)] at h
  exact leNat_injective (hbs.trans hbs'.symm) h

/-- The two scalars determine the line. -/
theorem scalars_injective {p : ℕ} (hF : 2 ^ 128 ≤ p) :
    Function.Injective (CacheLine.scalars p) := by
  intro cl cl' h
  obtain ⟨hlo, hhi⟩ := Prod.mk.inj h
  have hlo' := cast_leNat_injective hF (by simp) (by simp) hlo
  have hhi' := cast_leNat_injective hF (by simp) (by simp) hhi
  have hbyte : ∀ i < 32, cl.byte i = cl'.byte i := by
    intro i hi
    rcases Nat.lt_or_ge i 16 with hlt | hge
    · exact List.map_inj_left.mp hlo' i (List.mem_range'_1.mpr ⟨Nat.zero_le i, by omega⟩)
    · exact List.map_inj_left.mp hhi' i (List.mem_range'_1.mpr ⟨hge, by omega⟩)
  ext1
  funext i
  have hi := hbyte i i.isLt
  rw [CacheLine.byte, CacheLine.byte, Fin.ofNat_eq_cast, Fin.cast_val_eq_self] at hi
  exact hi

/-! ## Hashed inputs -/

namespace MerkleTrie

variable {p : ℕ} (t : MerkleTrie p)

/-- Two digests that are hashed together in the subtree of a node, stored or not. -/
def HashedPair : (h : ℕ) → Option (Node p h) → ZMod p × ZMod p → Prop
  | 0, _, _ => False
  | h + 1, node, ab =>
      ab = (t.digestAt h (Node.child node true), t.digestAt h (Node.child node false)) ∨
        ∃ left, HashedPair h (Node.child node left) ab

end MerkleTrie

/-- The scalars of a line in the subtree of a node. -/
def Node.HashedLine {p : ℕ} : (h : ℕ) → Option (Node p h) → ZMod p × ZMod p → Prop
  | 0, node, x => x = (Node.leafVal node).scalars p
  | h + 1, node, x => ∃ left, Node.HashedLine h (Node.child node left) x

namespace Path

variable {p : ℕ} (K : ZMod p → ZMod p → ZMod p)

/-- The two digests of a level, in the order in which they are hashed. -/
def level (y : ZMod p) (d : Bool × ZMod p) : ZMod p × ZMod p :=
  if d.1 then (y, d.2) else (d.2, y)

/-- The pairs that are hashed along an authentication list. -/
def pairs : ZMod p → List (Bool × ZMod p) → List (ZMod p × ZMod p)
  | _, [] => []
  | y, d :: auth => level y d :: pairs (K (level y d).1 (level y d).2) auth

/-- The digest that an authentication list leads to. -/
def top (y : ZMod p) (auth : List (Bool × ZMod p)) : ZMod p :=
  auth.foldl (fun y d => K (level y d).1 (level y d).2) y

variable {K} {params : Params p} {H : ZMod p × ZMod p → ZMod p}

theorem climb_eq_top (hp : params.Total H K) (y : ZMod p) (auth : List (Bool × ZMod p)) :
    climb params y auth = .ok (top K y auth) := by
  induction auth generalizing y with
  | nil => rfl
  | cons d auth ih =>
      obtain ⟨_ | _, s⟩ := d
      · show (params.compress s y >>= fun hash => climb params hash auth) = _
        rw [hp.compress]
        exact ih (K s y)
      · show (params.compress y s >>= fun hash => climb params hash auth) = _
        rw [hp.compress]
        exact ih (K y s)

theorem top_concat (y : ZMod p) (auth : List (Bool × ZMod p)) (d : Bool × ZMod p) :
    top K y (auth ++ [d]) = K (level (top K y auth) d).1 (level (top K y auth) d).2 := by
  rw [top, List.foldl_append]
  rfl

theorem pairs_concat (y : ZMod p) (auth : List (Bool × ZMod p)) (d : Bool × ZMod p) :
    pairs K y (auth ++ [d]) = pairs K y auth ++ [level (top K y auth) d] := by
  induction auth generalizing y with
  | nil => rfl
  | cons d' auth ih =>
      rw [List.cons_append, pairs, ih]
      rfl

/-- A path verifies if its list leads from the leaf to the root. -/
theorem verify_eq_ok (hp : params.Total H K) (path : Path p) :
    path.verify params = .ok true ↔ path.root = top K (H path.leaf) path.auth := by
  rw [verify, hp.hashLeaf]
  show (climb params (H path.leaf) path.auth >>= fun hash => pure (decide (path.root = hash))) = _
    ↔ _
  rw [climb_eq_top hp]
  show Except.ok (decide (path.root = top K (H path.leaf) path.auth)) = _ ↔ _
  rw [Except.ok.injEq, decide_eq_true_iff]

end Path

namespace MerkleTrie

variable {p : ℕ} {t : MerkleTrie p} {H : ZMod p × ZMod p → ZMod p}
  {K : ZMod p → ZMod p → ZMod p}

/-- No two different inputs among these have one digest.  This is asked of the inputs that occur
only, as no hash into a field is injective. -/
structure CollisionFree (H : ZMod p × ZMod p → ZMod p) (K : ZMod p → ZMod p → ZMod p)
    (lines pairs : Set (ZMod p × ZMod p)) : Prop where
  line : Set.InjOn H lines
  pair : Set.InjOn (fun ab => K ab.1 ab.2) pairs

/-- The lines that a trie hashes. -/
def hashedLines (t : MerkleTrie p) : Set (ZMod p × ZMod p) :=
  {x | Node.HashedLine cacheLog t.root x}

/-- The pairs of digests that a trie hashes. -/
def hashedPairs (t : MerkleTrie p) : Set (ZMod p × ZMod p) :=
  {ab | t.HashedPair cacheLog t.root ab}

/-- **Binding.**  An authentication list that leads to a node carries the line at
its turns. -/
theorem line_of_top (hz : t.ZerosCorrect H K) {h : ℕ} (hh : h ≤ cacheLog)
    {node : Option (Node p h)} (hn : t.Hashed H K h node) {x : ZMod p × ZMod p}
    {auth : List (Bool × ZMod p)} (hlen : auth.length = h)
    (htop : Path.top K (H x) auth = t.digestAt h node)
    (hline : ∀ y, Node.HashedLine h node y → H x = H y → x = y)
    (hpair : ∀ ab ∈ Path.pairs K (H x) auth, ∀ cd, t.HashedPair h node cd →
      K ab.1 ab.2 = K cd.1 cd.2 → ab = cd) :
    x = (Node.lineAt h node fun i => (auth.getD i (true, 0)).1).scalars p := by
  induction h generalizing auth with
  | zero =>
      obtain rfl := List.length_eq_zero_iff.mp hlen
      rw [digestAt_zero hz hn] at htop
      exact hline _ rfl htop
  | succ h ih =>
      rcases List.eq_nil_or_concat auth with rfl | ⟨auth', d, rfl⟩
      · cases hlen
      · rw [List.concat_eq_append] at *
        rw [List.length_append, List.length_singleton, Nat.add_right_cancel_iff] at hlen
        rw [Path.top_concat, digestAt_succ hz hh hn] at htop
        have hmem : Path.level (Path.top K (H x) auth') d ∈ Path.pairs K (H x) (auth' ++ [d]) := by
          rw [Path.pairs_concat]
          exact List.mem_append_right _ (List.mem_singleton_self _)
        have hlevel := hpair _ hmem _ (Or.inl rfl) htop
        have hchild : Path.top K (H x) auth' = t.digestAt h (Node.child node d.1) := by
          obtain ⟨_ | _, s⟩ := d
          · exact (Prod.mk.inj hlevel).2
          · exact (Prod.mk.inj hlevel).1
        have hrest := ih (Nat.le_of_succ_le hh) (hn.2 d.1) hlen hchild
          (fun y hy => hline y ⟨d.1, hy⟩)
          (fun ab hab cd hcd => hpair ab (by
            rw [Path.pairs_concat]
            exact List.mem_append_left _ hab) cd (Or.inr ⟨d.1, hcd⟩))
        have hlast : ((auth' ++ [d]).getD h (true, 0)).1 = d.1 := by
          rw [List.getD_append_right _ _ _ _ hlen.le, hlen, Nat.sub_self]
          rfl
        rw [hrest, Node.lineAt, hlast]
        congr 1
        apply Node.lineAt_congr
        intro i hi
        rw [List.getD_append _ _ _ _ (hlen ▸ hi)]

/-- The line that a query reads is hashed. -/
theorem hashedLine_lineAt (h : ℕ) (node : Option (Node p h)) (left : ℕ → Bool) :
    Node.HashedLine h node ((Node.lineAt h node left).scalars p) := by
  induction h with
  | zero => rfl
  | succ h ih => exact ⟨left h, ih _⟩

/-- The digests that a query reads are hashed together. -/
theorem hashedPair_authAt (hp : t.params.Total H K) (hz : t.ZerosCorrect H K) {h : ℕ}
    (hh : h ≤ cacheLog) {node : Option (Node p h)} (hn : t.Hashed H K h node) (left : ℕ → Bool) :
    ∀ ab ∈ Path.pairs K (H ((Node.lineAt h node left).scalars p)) (t.authAt h node left),
      t.HashedPair h node ab := by
  induction h with
  | zero =>
      intro ab hab
      cases hab
  | succ h ih =>
      intro ab hab
      have hclimb := climb_authAt hp hz (Nat.le_of_succ_le hh) (hn.2 (left h)) left
      rw [Path.climb_eq_top hp, Except.ok.injEq] at hclimb
      rw [authAt, Node.lineAt, Path.pairs_concat, hclimb, List.mem_append] at hab
      rcases hab with hab | hab
      · exact Or.inr ⟨left h, ih (Nat.le_of_succ_le hh) (hn.2 (left h)) ab hab⟩
      · obtain rfl := List.mem_singleton.mp hab
        left
        cases left h <;> rfl

end MerkleTrie

/-- The direction bits of a path are the line address of `addr`: the address
without the `CACHE_BITS` bits inside of the line. -/
structure Path.AtLine {p : ℕ} (path : Path p) (addr : U32) : Prop where
  height : path.auth.length = cacheLog
  direction : ∀ i < cacheLog,
    (path.auth.getD i (true, 0)).1 = !addr.getLsbD (cacheBits + i)

namespace MerkleTrie

variable {p : ℕ} {t : MerkleTrie p} {H : ZMod p × ZMod p → ZMod p}
  {K : ZMod p → ZMod p → ZMod p}

variable {h : ℕ}

theorem getD_authAt (node : Option (Node p h)) (left : ℕ → Bool) {i : ℕ} (hi : i < h) :
    ((t.authAt h node left).getD i (true, 0)).1 = left i := by
  induction h with
  | zero => cases hi
  | succ h ih =>
      rw [authAt]
      rcases Nat.lt_succ_iff_lt_or_eq.mp hi with hlt | rfl
      · rw [List.getD_append _ _ _ _ (by rw [length_authAt]; exact hlt)]
        exact ih _ hlt
      · rw [List.getD_append_right _ _ _ _ (length_authAt t _ _ _).le, length_authAt, Nat.sub_self]
        rfl

/-- The turns of half an address are the bits of its line address. -/
theorem turns_shift (addr : U32) {i : ℕ} (hi : i < cacheLog) :
    turns cacheLog (addr >>> 1).reverse i = !addr.getLsbD (cacheBits + i) := by
  have hidx : 1 + (4 + i) = cacheBits + i := by
    rw [← Nat.add_assoc]
    rfl
  rw [turns_reverse _ hi, BitVec.getLsbD_ushiftRight, hidx]

/-- A query of half the address has the path at the line of the address. -/
theorem atLine_query (addr : U32) : (t.query (addr >>> 1)).2.AtLine addr := by
  rw [query_eq]
  constructor
  · exact length_authAt t cacheLog t.root _
  · intro i hi
    rw [← turns_shift addr hi]
    exact getD_authAt t.root _ hi

/-- The leaf of a query is hashed. -/
theorem leaf_query_mem (addr : U32) : (t.query addr).2.leaf ∈ t.hashedLines := by
  have hline := hashedLine_lineAt cacheLog t.root (turns cacheLog addr.reverse)
  rw [query_eq]
  exact hline

/-- The digests along the path of a query are hashed together. -/
theorem pairs_query_subset {params : Params p} (hp : params.Total H K)
    (ht : Consistent params H K t) (addr : U32) :
    {ab | ab ∈ Path.pairs K (H (t.query addr).2.leaf) (t.query addr).2.auth} ⊆ t.hashedPairs := by
  have htotal : t.params.Total H K := ht.params_eq ▸ hp
  have hpair := hashedPair_authAt htotal ht.zeros le_rfl ht.hashed (turns cacheLog addr.reverse)
  intro ab hab
  rw [Set.mem_ofPred_eq, query_eq] at hab
  exact hpair ab hab

/-- **Paths bind the line of half the address.**  The trie goes by the address
bits from `4` to `30` and the line address has those from `5` to `31`, so paths at
a line address bind what a query of the address reads exactly if that is the line
of half the address. -/
theorem position_binding_iff {params : Params p} (hp : params.Total H K) (hF : 2 ^ 128 ≤ p)
    (ht : Reached params t) (hfree : CollisionFree H K t.hashedLines t.hashedPairs)
    (addr : U32) :
    Function.Injective (CacheLine.scalars p) ∧
      ((∀ path : Path p, path.AtLine addr → path.root = t.rootDigest →
        path.verify params = .ok true →
        CollisionFree H K (insert path.leaf t.hashedLines)
          ({ab | ab ∈ Path.pairs K (H path.leaf) path.auth} ∪ t.hashedPairs) →
        path.leaf = (t.query addr).1.scalars p) ↔
      (t.query addr).1 = (t.query (addr >>> 1)).1) := by
  have hcons := consistent_of_reached hp ht
  have hinj := scalars_injective hF
  refine ⟨hinj, ?_, ?_⟩
  · intro hbind
    apply hinj
    symm
    apply hbind (t.query (addr >>> 1)).2 (atLine_query addr) rfl (verify_query hp hcons _)
    rw [Set.insert_eq_of_mem (leaf_query_mem _),
      Set.union_eq_self_of_subset_left (pairs_query_subset hp hcons _)]
    exact hfree
  · intro heq path hat hroot hverify hcol
    have hdigest : t.digestAt cacheLog t.root = t.rootDigest := by
      rw [digestAt, Nat.sub_self]
      rfl
    have htop := (Path.verify_eq_ok hp path).mp hverify
    rw [hroot, ← hdigest] at htop
    rw [heq, line_of_top hcons.zeros le_rfl hcons.hashed hat.height htop.symm
      (fun y hy => hcol.line (Set.mem_insert _ _) (Set.mem_insert_of_mem _ hy))
      (fun ab hab cd hcd => hcol.pair (Set.mem_union_left _ hab) (Set.mem_union_right _ hcd)),
      query_eq]
    congr 1
    apply Node.lineAt_congr
    intro i hi
    rw [hat.direction i hi, turns_shift addr hi]

/-! ## A trie with one line -/

/-- The order of the scalar field of the commitment curve. -/
def bn254 : ℕ :=
  21888242871839275222246405745257275088548364400416034343698204186575808495617

/-- Line with the byte one at its start. -/
def lineOne : CacheLine := CacheLine.zero.setByte 0 1

/-- The nodes on the way to the leftmost line, with one line and the sums as digests. -/
def spine (p : ℕ) (d : ℕ → ZMod p) : (h : ℕ) → Node p h
  | 0 => (⟨d 0, lineOne⟩ : LeafNode p)
  | h + 1 => (⟨d (h + 1), some (spine p d h), none⟩ : BranchNode p (Node p h))

/-- The sums of an empty subtree. -/
def sumZero : ℕ → ℕ
  | 0 => 1
  | h + 1 => 3 * sumZero h + 1

theorem sumZero_lt (h : ℕ) : sumZero h < 3 ^ (h + 1) := by
  induction h with
  | zero => decide
  | succ h ih =>
      rw [sumZero, pow_succ]
      omega

theorem scalars_lineOne (p : ℕ) : lineOne.scalars p = (1, 0) := by
  have hnat : leNat ((List.range' 0 16).map lineOne.byte) = 1 := by decide
  have hnat' : leNat ((List.range' 16 16).map lineOne.byte) = 0 := by decide
  rw [CacheLine.scalars, hnat, hnat', Nat.cast_zero, Nat.cast_one]

theorem scalars_zero (p : ℕ) : CacheLine.zero.scalars p = (0, 0) := by
  have hnat : leNat ((List.range' 0 16).map CacheLine.zero.byte) = 0 := by decide
  have hnat' : leNat ((List.range' 16 16).map CacheLine.zero.byte) = 0 := by decide
  rw [CacheLine.scalars, hnat, hnat', Nat.cast_zero]

theorem zeroDigest_sum (p h : ℕ) :
    zeroDigest (fun x : ZMod p × ZMod p => x.1 + 2 * x.2 + 1) (fun a b => a + 2 * b + 1) h =
      (sumZero h : ℕ) := by
  induction h with
  | zero =>
      rw [zeroDigest, scalars_zero, sumZero]
      push_cast
      ring
  | succ h ih =>
      rw [zeroDigest, ih, sumZero]
      push_cast
      ring

/-- The hash of two scalars as a sum. -/
abbrev sumLeaf (p : ℕ) (x : ZMod p × ZMod p) : ZMod p := x.1 + 2 * x.2 + 1

/-- The hash of two digests as a sum. -/
abbrev sumPair (p : ℕ) (a b : ZMod p) : ZMod p := a + 2 * b + 1

/-- The digests on the way to the leftmost line. -/
def spineDigest (p h : ℕ) : ZMod p := (sumZero h + 1 : ℕ)

variable {p : ℕ}

variable {t : MerkleTrie p}

/-- A byte stored at address zero of an empty subtree. -/
theorem updateInner_spine (hparams : t.params = sumParams p)
    (hz : t.ZerosCorrect (sumLeaf p) (sumPair p)) (hh : h ≤ cacheLog) :
    ∃ cl auth, t.updateInner (fun cl => cl.sb 0 1) h (Node.new h) 0 =
      (.ok (cl, auth), spine p (spineDigest p) h) := by
  have hp : t.params.Total (sumLeaf p) (sumPair p) := hparams ▸ sumParams_total p
  induction h with
  | zero =>
      have hhash : t.params.hashMemory lineOne = .ok (spineDigest p 0) := by
        rw [Params.hashMemory, hp.hashLeaf, scalars_lineOne]
        congr 1
        rw [sumLeaf, spineDigest, sumZero]
        push_cast
        ring
      refine ⟨lineOne.scalars p, [], ?_⟩
      show t.updateInner _ 0 (⟨0, CacheLine.zero⟩ : LeafNode p) 0 = _
      rw [updateInner]
      have hsb : CacheLine.zero.sb 0 1 = (.ok (), lineOne) := rfl
      simp only [hsb, hhash]
      rfl
  | succ h ih =>
      obtain ⟨cl, auth, hrun⟩ := ih (Nat.le_of_succ_le hh)
      have hzero : t.digestAt h none = (sumZero h : ℕ) := by
        rw [← zeroDigest_sum p h]
        exact hz h (Nat.le_of_succ_le hh)
      have hleft : turns (h + 1) 0 h = true := by
        rw [turns_self_succ]
        decide
      rw [updateInner_succ hp, hleft]
      have hshift : (0 : U32) >>> 1 = 0 := by decide
      have hchild : (Node.child (some (Node.new (h + 1) : Node p (h + 1))) true).getD (Node.new h) =
        Node.new h := rfl
      dsimp only
      rw [hshift, hchild, hrun]
      refine ⟨cl, _, Prod.ext rfl ?_⟩
      have hsome : t.digestAt h (some (spine p (spineDigest p) h)) = spineDigest p h := by
        cases h <;> rfl
      have hsum : sumPair p (spineDigest p h) (sumZero h : ℕ) = spineDigest p (h + 1) := by
        rw [sumPair, spineDigest, spineDigest, sumZero]
        push_cast
        ring
      show setChild _ true _ (sumPair p (t.digestAt h (some (spine p (spineDigest p) h)))
        (t.digestAt h none)) = _
      rw [hsome, hzero, hsum]
      rfl

/-- The empty trie with its default digests. -/
def emptyTrie (p : ℕ) : MerkleTrie p where
  root := none
  zeros := ((List.range (cacheLog + 1)).map (zeroDigest (sumLeaf p) (sumPair p))).reverse
  params := sumParams p

/-- The trie with one line. -/
def spineTrie (p : ℕ) : MerkleTrie p :=
  { emptyTrie p with root := some (spine p (spineDigest p) cacheLog) }

theorem reached_spineTrie (p : ℕ) : Reached (sumParams p) (spineTrie p) := by
  have hdefault : MerkleTrie.default (sumParams p) = .ok (emptyTrie p) :=
    default_eq (sumParams_total p)
  have hempty := Consistent.default (sumParams_total p) hdefault
  obtain ⟨cl, auth, hrun⟩ := updateInner_spine (t := emptyTrie p) rfl hempty.zeros le_rfl
  have hreverse : (0 : U32).reverse = 0 := by decide +kernel
  have hroot : (emptyTrie p).root = none := rfl
  have hinner : (emptyTrie p).updateInner (fun cl => cl.sb 0 1) cacheLog
      ((emptyTrie p).root.getD (Node.new cacheLog)) (0 : U32).reverse =
      (.ok (cl, auth), spine p (spineDigest p) cacheLog) := by
    rw [hroot, Option.getD_none, hreverse]
    exact hrun
  exact .update (.default hdefault) (update_eq_ok.mpr ⟨cl, auth, _, hinner, rfl, rfl⟩)

/-- A sum and its summand, or the summand twice. -/
def SumPair (p : ℕ) (ab : ZMod p × ZMod p) : Prop :=
  ∃ z c : ℕ, z < 3 ^ 28 ∧ c < 2 ∧ ab = (((z + c : ℕ) : ZMod p), ((z : ℕ) : ZMod p))

theorem sumPair_injOn (hF : 2 ^ 128 ≤ p) :
    Set.InjOn (fun ab : ZMod p × ZMod p => sumPair p ab.1 ab.2) {ab | SumPair p ab} := by
  rintro _ ⟨z, c, hz, hc, rfl⟩ _ ⟨z', c', hz', hc', rfl⟩ h
  have hnat : ((3 * z + c + 1 : ℕ) : ZMod p) = ((3 * z' + c' + 1 : ℕ) : ZMod p) := by
    have hsum : sumPair p (z + c : ℕ) (z : ℕ) = sumPair p (z' + c' : ℕ) (z' : ℕ) := h
    rw [sumPair, sumPair] at hsum
    push_cast at hsum ⊢
    linear_combination hsum
  have hsmall : (3 : ℕ) ^ 28 * 3 + 3 < 2 ^ 128 := by norm_num
  rw [ZMod.natCast_eq_natCast_iff', Nat.mod_eq_of_lt (by omega),
    Nat.mod_eq_of_lt (by omega)] at hnat
  have hzz : z = z' := by omega
  have hcc : c = c' := by omega
  rw [hzz, hcc]

variable {ab : ZMod p × ZMod p}

/-- The pairs of an empty subtree. -/
theorem hashedPair_none (hz : t.ZerosCorrect (sumLeaf p) (sumPair p)) (hh : h ≤ cacheLog)
    (hab : t.HashedPair h none ab) :
    SumPair p ab := by
  induction h with
  | zero => cases hab
  | succ h ih =>
      rcases hab with rfl | ⟨left, hab⟩
      · have hzero : t.digestAt h none = (sumZero h : ℕ) := by
          rw [← zeroDigest_sum p h]
          exact hz h (Nat.le_of_succ_le hh)
        have hlt : 3 ^ (h + 1) ≤ 3 ^ 28 := Nat.pow_le_pow_right (by decide) (Nat.succ_le_succ
          (Nat.le_of_succ_le hh))
        refine ⟨sumZero h, 0, (sumZero_lt h).trans_le hlt, by decide, ?_⟩
        rw [Node.child_none, Node.child_none, hzero, Nat.add_zero]
      · exact ih (Nat.le_of_succ_le hh) hab

/-- The pairs of the spine. -/
theorem hashedPair_spine (hz : t.ZerosCorrect (sumLeaf p) (sumPair p)) (hh : h ≤ cacheLog)
    (hab : t.HashedPair h (some (spine p (spineDigest p) h)) ab) :
    SumPair p ab := by
  induction h with
  | zero => cases hab
  | succ h ih =>
      have hleft : Node.child (some (spine p (spineDigest p) (h + 1))) true =
        some (spine p (spineDigest p) h) := rfl
      have hright : Node.child (some (spine p (spineDigest p) (h + 1))) false = none := rfl
      rcases hab with rfl | ⟨_ | _, hab⟩
      · have hzero : t.digestAt h none = (sumZero h : ℕ) := by
          rw [← zeroDigest_sum p h]
          exact hz h (Nat.le_of_succ_le hh)
        have hsome : t.digestAt h (some (spine p (spineDigest p) h)) = spineDigest p h := by
          cases h <;> rfl
        have hlt : 3 ^ (h + 1) ≤ 3 ^ 28 := Nat.pow_le_pow_right (by decide) (Nat.succ_le_succ
          (Nat.le_of_succ_le hh))
        refine ⟨sumZero h, 1, (sumZero_lt h).trans_le hlt, by decide, ?_⟩
        rw [hleft, hright, hzero, hsome, spineDigest]
      · exact hashedPair_none hz (Nat.le_of_succ_le hh) (hright ▸ hab)
      · exact ih (Nat.le_of_succ_le hh) (hleft ▸ hab)

/-- The lines of the spine. -/
theorem hashedLine_spine {p h : ℕ} {x : ZMod p × ZMod p}
    (hx : Node.HashedLine h (some (spine p (spineDigest p) h)) x) : x = (0, 0) ∨ x = (1, 0) := by
  have hnone : ∀ k, Node.HashedLine k (none : Option (Node p k)) x → x = (0, 0) := by
    intro k hk
    induction k with
    | zero => exact hk.trans (scalars_zero p)
    | succ k ih =>
        obtain ⟨left, hk⟩ := hk
        exact ih hk
  induction h with
  | zero => exact Or.inr (hx.trans (scalars_lineOne p))
  | succ h ih =>
      obtain ⟨_ | _, hx⟩ := hx
      · exact Or.inl (hnone h hx)
      · exact ih hx

theorem sumLeaf_injOn (hF : 2 ^ 128 ≤ p) :
    Set.InjOn (sumLeaf p) {x | x = (0, 0) ∨ x = (1, 0)} := by
  have hne : sumLeaf p (0, 0) ≠ sumLeaf p (1, 0) := by
    intro h
    have hone : ((1 : ℕ) : ZMod p) = ((2 : ℕ) : ZMod p) := by
      rw [sumLeaf, sumLeaf] at h
      push_cast
      linear_combination h
    rw [ZMod.natCast_eq_natCast_iff', Nat.mod_eq_of_lt (by omega),
      Nat.mod_eq_of_lt (by omega)] at hone
    cases hone
  rintro x (rfl | rfl) y (rfl | rfl) h
  · rfl
  · exact absurd h hne
  · exact absurd h.symm hne
  · rfl

/-- Nothing that the trie hashes collides. -/
theorem collisionFree_spineTrie (hF : 2 ^ 128 ≤ p) :
    CollisionFree (sumLeaf p) (sumPair p) (spineTrie p).hashedLines (spineTrie p).hashedPairs := by
  have hz := (consistent_of_reached (sumParams_total p) (reached_spineTrie p)).zeros
  constructor
  · exact (sumLeaf_injOn hF).mono fun x hx => hashedLine_spine hx
  · exact (sumPair_injOn hF).mono fun ab hab => hashedPair_spine hz le_rfl hab

theorem lineAt_spine (p h : ℕ) (left : ℕ → Bool) :
    Node.lineAt h (some (spine p (spineDigest p) h)) left =
      if ∀ i < h, left i = true then lineOne else CacheLine.zero := by
  induction h with
  | zero =>
      rw [if_pos fun i hi => absurd hi (Nat.not_lt_zero i)]
      rfl
  | succ h ih =>
      rw [Node.lineAt]
      rcases hlast : left h with _ | _
      · have hright : Node.child (some (spine p (spineDigest p) (h + 1))) false = none := rfl
        rw [hright, Node.lineAt_none, if_neg]
        intro hall
        rw [hall h (Nat.lt_succ_self h)] at hlast
        cases hlast
      · have hleft : Node.child (some (spine p (spineDigest p) (h + 1))) true =
          some (spine p (spineDigest p) h) := rfl
        have hiff : (∀ i < h + 1, left i = true) ↔ ∀ i < h, left i = true := by
          constructor
          · intro hall i hi
            exact hall i (Nat.lt_succ_of_lt hi)
          · intro hall i hi
            rcases Nat.lt_succ_iff_lt_or_eq.mp hi with hi | rfl
            · exact hall i hi
            · exact hlast
        rw [hleft, ih]
        simp only [hiff]

/-- What a query of the trie with one line reads. -/
theorem query_spineTrie (p : ℕ) (addr : U32) :
    ((spineTrie p).query addr).1 =
      if ∀ i < cacheLog, addr.getLsbD (4 + i) = false then lineOne else CacheLine.zero := by
  have hline := lineAt_spine p cacheLog (turns cacheLog addr.reverse)
  have hiff : (∀ i < cacheLog, turns cacheLog addr.reverse i = true) ↔
      ∀ i < cacheLog, addr.getLsbD (4 + i) = false := by
    apply forall_congr'
    intro i
    apply forall_congr'
    intro hi
    rw [turns_reverse addr hi, Bool.not_eq_true']
  rw [query_eq]
  simp only [hiff] at hline
  exact hline

theorem bn254_large : 2 ^ 128 ≤ bn254 := by
  rw [bn254]
  norm_num

/-- The path that the query of address 32 returns lies at the line of address 64 and
carries what is read there. -/
theorem position_binding_iff_spine :
    ((spineTrie bn254).query 32).2.leaf = ((spineTrie bn254).query 64).1.scalars bn254 := by
  have hp := sumParams_total bn254
  have hcons := consistent_of_reached hp (reached_spineTrie bn254)
  have hcol := collisionFree_spineTrie bn254_large
  have hshift : (64 : U32) >>> 1 = 32 := by decide
  have hat := atLine_query (t := spineTrie bn254) 64
  rw [hshift] at hat
  have hbind := (position_binding_iff hp bn254_large (reached_spineTrie bn254) hcol 64).2
  apply hbind.mpr ?_ ((spineTrie bn254).query 32).2 hat rfl (verify_query hp hcons 32)
  · rw [Set.insert_eq_of_mem (leaf_query_mem 32),
      Set.union_eq_self_of_subset_left (pairs_query_subset hp hcons 32)]
    exact hcol
  · rw [query_spineTrie, query_spineTrie, if_neg (by decide), if_neg (by decide)]

/-- **A path at the line of address 16 carries the line at address 0.**  The
query of address 16 reads the default line. -/
theorem position_not_bound : ∃ (t : MerkleTrie bn254) (path : Path bn254),
    Reached (sumParams bn254) t ∧ path.AtLine 16 ∧ path.root = t.rootDigest ∧
      path.verify (sumParams bn254) = .ok true ∧
      CollisionFree (sumLeaf bn254) (sumPair bn254) (insert path.leaf t.hashedLines)
        ({ab | ab ∈ Path.pairs (sumPair bn254) (sumLeaf bn254 path.leaf) path.auth} ∪
          t.hashedPairs) ∧
      path.leaf ≠ (t.query 16).1.scalars bn254 := by
  have hp := sumParams_total bn254
  have hreached := reached_spineTrie bn254
  have hcons := consistent_of_reached hp hreached
  have hshift : (16 : U32) >>> 1 = 8 := by decide
  have hat := atLine_query (t := spineTrie bn254) 16
  rw [hshift] at hat
  refine ⟨spineTrie bn254, ((spineTrie bn254).query 8).2, hreached, hat, rfl,
    verify_query hp hcons 8, ?_, ?_⟩
  · rw [Set.insert_eq_of_mem (leaf_query_mem 8),
      Set.union_eq_self_of_subset_left (pairs_query_subset hp hcons 8)]
    exact collisionFree_spineTrie bn254_large
  · intro h
    have hleaf : ((spineTrie bn254).query 8).2.leaf =
        ((spineTrie bn254).query 8).1.scalars bn254 := by
      rw [query_eq]
    rw [hleaf, query_spineTrie, query_spineTrie, if_pos (by decide), if_neg (by decide)] at h
    have hlines := congrArg (CacheLine.byte · 0) (scalars_injective bn254_large h)
    exact absurd hlines (by decide)

end MerkleTrie

end NexusVm
