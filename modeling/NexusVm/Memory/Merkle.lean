import NexusVm.Memory.Trie
import Mathlib.Data.List.GetD

/-!
# Hashes of the Merkle trie

Queries and updates of the trie in terms of the turns that they take at each
height, and the invariant of the digests.  The hash functions are any two that
never fail.
-/

namespace NexusVm

/-- The hashes of these parameters never fail. -/
structure Params.Total {p : ℕ} (params : Params p) (H : ZMod p × ZMod p → ZMod p)
    (K : ZMod p → ZMod p → ZMod p) : Prop where
  hashLeaf : ∀ x, params.hashLeaf x = .ok (H x)
  compress : ∀ a b, params.compress a b = .ok (K a b)

namespace Node

variable {p : ℕ}

/-- The line below a node; `left i` tells which child is taken at height `i + 1`. -/
def lineAt : (h : ℕ) → Option (Node p h) → (ℕ → Bool) → CacheLine
  | 0, node, _ => leafVal node
  | h + 1, node, left => lineAt h (child node (left h)) left

variable {h : ℕ}

theorem lineAt_congr {node : Option (Node p h)} {left left' : ℕ → Bool}
    (hleft : ∀ i < h, left i = left' i) : lineAt h node left = lineAt h node left' := by
  induction h with
  | zero => rfl
  | succ h ih =>
      rw [lineAt, lineAt, hleft h (Nat.lt_succ_self h)]
      exact ih fun i hi => hleft i (Nat.lt_succ_of_lt hi)

theorem child_none (left : Bool) : child (none : Option (Node p (h + 1))) left = none :=
  rfl

theorem lineAt_none (left : ℕ → Bool) :
    lineAt h (none : Option (Node p h)) left = CacheLine.zero := by
  induction h with
  | zero => rfl
  | succ h ih => exact ih

/-- A new node has no line of its own. -/
theorem lineAt_new (h : ℕ) (left : ℕ → Bool) :
    lineAt h (some (Node.new h : Node p h)) left = CacheLine.zero := by
  cases h with
  | zero => rfl
  | succ h =>
      have hchild : child (some (Node.new (h + 1) : Node p (h + 1))) (left h) = none := by
        cases hl : left h <;> rfl
      rw [lineAt, hchild, lineAt_none]

/-- Allocating a node does not change the line. -/
theorem lineAt_getD_new (node : Option (Node p h)) (left : ℕ → Bool) :
    lineAt h (some (node.getD (Node.new h))) left = lineAt h node left := by
  cases node with
  | none => rw [Option.getD_none, lineAt_new, lineAt_none]
  | some n => rfl

end Node

namespace MerkleTrie

variable {p : ℕ} (t : MerkleTrie p)

/-- The turn at height `i` on the way down from height `h`. -/
def turns (h : ℕ) (addr : U32) (i : ℕ) : Bool := isLeft (addr >>> (h - i))

theorem turns_self_succ (h : ℕ) (addr : U32) : turns (h + 1) addr h = isLeft (addr >>> 1) := by
  rw [turns, Nat.add_sub_cancel_left]

theorem turns_succ {h i : ℕ} (hi : i ≤ h) (addr : U32) :
    turns (h + 1) addr i = turns h (addr >>> 1) i := by
  have hsub : h + 1 - i = 1 + (h - i) := by omega
  rw [turns, turns, hsub, BitVec.shiftRight_add]

/-- The authentication list of the turns. -/
def authAt : (h : ℕ) → Option (Node p h) → (ℕ → Bool) → List (Bool × ZMod p)
  | 0, _, _ => []
  | h + 1, node, left =>
      authAt h (Node.child node (left h)) left ++
        [(left h, t.nodeDigest (cacheLog - h) (Node.child node (!left h)))]

theorem authAt_congr {h : ℕ} {node : Option (Node p h)} {left left' : ℕ → Bool}
    (hleft : ∀ i < h, left i = left' i) : t.authAt h node left = t.authAt h node left' := by
  induction h with
  | zero => rfl
  | succ h ih =>
      rw [authAt, authAt, hleft h (Nat.lt_succ_self h),
        ih fun i hi => hleft i (Nat.lt_succ_of_lt hi)]

theorem length_authAt (h : ℕ) (node : Option (Node p h)) (left : ℕ → Bool) :
    (t.authAt h node left).length = h := by
  induction h with
  | zero => rfl
  | succ h ih => rw [authAt, List.length_append, ih, List.length_singleton]

/-- A query takes the turns of its address. -/
theorem queryInner_eq (h : ℕ) (node : Option (Node p h)) (addr : U32) :
    t.queryInner h node addr =
      (Node.lineAt h node (turns h addr), t.authAt h node (turns h addr)) := by
  induction h generalizing addr with
  | zero => rfl
  | succ h ih =>
      have hturns : ∀ i < h, turns (h + 1) addr i = turns h (addr >>> 1) i :=
        fun i hi => turns_succ hi.le addr
      rw [Node.lineAt, authAt, Node.lineAt_congr hturns, authAt_congr t hturns, turns_self_succ]
      show ((t.queryInner h _ (addr >>> 1)).1, (t.queryInner h _ (addr >>> 1)).2 ++ _) = _
      rw [ih]

variable (H : ZMod p × ZMod p → ZMod p) (K : ZMod p → ZMod p → ZMod p)

/-- The digest of an empty subtree. -/
def zeroDigest : ℕ → ZMod p
  | 0 => H (CacheLine.zero.scalars p)
  | h + 1 => K (zeroDigest h) (zeroDigest h)

/-- The digest of a node at height `h`, or default if not present. -/
def digestAt (h : ℕ) (node : Option (Node p h)) : ZMod p := t.nodeDigest (cacheLog - h) node

/-- Every node that is stored has the digest of its children or of its line. -/
def Hashed : (h : ℕ) → Option (Node p h) → Prop
  | 0, node => ∀ n : LeafNode p, node = some n → n.digest = H (n.val.scalars p)
  | h + 1, node =>
      (∀ n : BranchNode p (Node p h), node = some n →
        n.digest = K (t.digestAt h n.left) (t.digestAt h n.right)) ∧
      ∀ left, Hashed h (Node.child node left)

/-- The table of default digests. -/
def ZerosCorrect : Prop := ∀ h ≤ cacheLog, t.zeros.getD (cacheLog - h) 0 = zeroDigest H K h

variable {t H K}

theorem hashed_none (h : ℕ) : t.Hashed H K h none := by
  induction h with
  | zero =>
      intro n hn
      cases hn
  | succ h ih =>
      constructor
      · intro n hn
        cases hn
      · intro left
        exact ih

/-- The digest of a leaf. -/
theorem digestAt_zero (hz : t.ZerosCorrect H K) {node : Option (Node p 0)}
    (hn : t.Hashed H K 0 node) : t.digestAt 0 node = H ((Node.leafVal node).scalars p) := by
  cases node with
  | none => exact hz 0 (Nat.zero_le _)
  | some n => exact hn n rfl

/-- The digest of a node in terms of its children. -/
theorem digestAt_succ (hz : t.ZerosCorrect H K) {h : ℕ} (hh : h < cacheLog)
    {node : Option (Node p (h + 1))} (hn : t.Hashed H K (h + 1) node) :
    t.digestAt (h + 1) node =
      K (t.digestAt h (Node.child node true)) (t.digestAt h (Node.child node false)) := by
  cases node with
  | none =>
      have hzero := hz h hh.le
      show t.zeros.getD (cacheLog - (h + 1)) 0 =
        K (t.zeros.getD (cacheLog - h) 0) (t.zeros.getD (cacheLog - h) 0)
      rw [hz (h + 1) hh, hzero]
      rfl
  | some n => exact hn.1 n rfl

/-- The children on a turn, in the order in which they are hashed. -/
theorem digestAt_turn (hz : t.ZerosCorrect H K) {h : ℕ} (hh : h < cacheLog)
    {node : Option (Node p (h + 1))} (hn : t.Hashed H K (h + 1) node) (left : Bool) :
    t.digestAt (h + 1) node =
      if left then K (t.digestAt h (Node.child node left)) (t.digestAt h (Node.child node (!left)))
      else K (t.digestAt h (Node.child node (!left))) (t.digestAt h (Node.child node left)) := by
  rw [digestAt_succ hz hh hn]
  cases left <;> rfl

end MerkleTrie

namespace Path

variable {p : ℕ} {params : Params p}

theorem climb_append (x : ZMod p) (as bs : List (Bool × ZMod p)) :
    climb params x (as ++ bs) = climb params x as >>= fun y => climb params y bs := by
  induction as generalizing x with
  | nil => rfl
  | cons a as ih =>
      obtain ⟨isLeft, s⟩ := a
      cases isLeft
      · show (params.compress s x >>= fun y => climb params y (as ++ bs)) =
          ((params.compress s x >>= fun y => climb params y as) >>= fun y => climb params y bs)
        rw [bind_assoc]
        simp only [ih]
      · show (params.compress x s >>= fun y => climb params y (as ++ bs)) =
          ((params.compress x s >>= fun y => climb params y as) >>= fun y => climb params y bs)
        rw [bind_assoc]
        simp only [ih]

/-- One level of a path. -/
theorem climb_concat {H : ZMod p × ZMod p → ZMod p} {K : ZMod p → ZMod p → ZMod p}
    (hp : params.Total H K) {x y : ZMod p} {as : List (Bool × ZMod p)}
    (h : climb params x as = .ok y) (left : Bool) (s : ZMod p) :
    climb params x (as ++ [(left, s)]) = .ok (if left then K y s else K s y) := by
  rw [climb_append, h]
  cases left
  · show (params.compress s y >>= fun hash => climb params hash []) = _
    rw [hp.compress]
    rfl
  · show (params.compress y s >>= fun hash => climb params hash []) = _
    rw [hp.compress]
    rfl

end Path

namespace MerkleTrie

variable {p : ℕ} {t : MerkleTrie p} {H : ZMod p × ZMod p → ZMod p}
  {K : ZMod p → ZMod p → ZMod p}

variable {h : ℕ}

variable {node : Option (Node p h)}

/-- **The list of any turns leads from the line to the node.** -/
theorem climb_authAt (hp : t.params.Total H K) (hz : t.ZerosCorrect H K) (hh : h ≤ cacheLog)
    (hn : t.Hashed H K h node) (left : ℕ → Bool) :
    Path.climb t.params (H ((Node.lineAt h node left).scalars p)) (t.authAt h node left) =
      .ok (t.digestAt h node) := by
  induction h with
  | zero =>
      rw [digestAt_zero hz hn]
      rfl
  | succ h ih =>
      have hlt : h < cacheLog := hh
      rw [digestAt_turn hz hlt hn (left h)]
      exact Path.climb_concat hp (ih hlt.le (hn.2 (left h))) (left h) _

/-! ## Updates -/

/-- The nodes below a node are hashed; its own digest may be out of date. -/
def HashedBelow (t : MerkleTrie p) (H : ZMod p × ZMod p → ZMod p) (K : ZMod p → ZMod p → ZMod p) :
    (h : ℕ) → Node p h → Prop
  | 0, _ => True
  | h + 1, n => ∀ left, t.Hashed H K h (Node.child (some n) left)

theorem Hashed.below {n : Node p h} (hn : t.Hashed H K h (some n)) :
    t.HashedBelow H K h n := by
  cases h with
  | zero => trivial
  | succ h => exact hn.2

/-- A node that is allocated if it is not present. -/
theorem Hashed.getD_new (hn : t.Hashed H K h node) :
    t.HashedBelow H K h (node.getD (Node.new h)) := by
  cases node with
  | none =>
      cases h with
      | zero => trivial
      | succ h =>
          intro left
          have hnone : Node.child (some (Node.new (h + 1) : Node p (h + 1))) left = none := by
            cases left <;> rfl
          rw [Option.getD_none, hnone]
          exact hashed_none h
  | some n => exact hn.below

/-- What a successful update of a node leaves. -/
structure Updated (t : MerkleTrie p) (H : ZMod p × ZMod p → ZMod p) (K : ZMod p → ZMod p → ZMod p)
    (f : UpdateFn) (h : ℕ) (n : Node p h) (addr : U32) (cl : ZMod p × ZMod p)
    (auth : List (Bool × ZMod p)) (n' : Node p h) : Prop where
  hashed : t.Hashed H K h (some n')
  auth_eq : auth = t.authAt h (some n') (turns h addr)
  line : ∃ val', f (Node.lineAt h (some n) (turns h addr)) = (.ok (), val') ∧
    cl = val'.scalars p ∧
    ∀ left, Node.lineAt h (some n') left =
      if ∀ i < h, left i = turns h addr i then val' else Node.lineAt h (some n) left

/-- A branch with one child replaced. -/
def setChild {h : ℕ} (n : Node p (h + 1)) (left : Bool) (c : Node p h) (d : ZMod p) :
    Node p (h + 1) :=
  let n : BranchNode p (Node p h) := n
  (⟨d, if left then some c else n.left, if left then n.right else some c⟩ :
    BranchNode p (Node p h))

theorem child_setChild_self (n : Node p (h + 1)) (left : Bool) (c : Node p h) (d : ZMod p) :
    Node.child (some (setChild n left c d)) left = some c := by
  cases left <;> rfl

theorem child_setChild_other (n : Node p (h + 1)) (left : Bool) (c : Node p h) (d : ZMod p) :
    Node.child (some (setChild n left c d)) (!left) = Node.child (some n) (!left) := by
  cases left <;> rfl

/-- The recursion of an update, whether the hashes fail or not. -/
theorem updateInner_branch (t : MerkleTrie p) (f : UpdateFn) (n : Node p (h + 1)) (addr : U32) :
    t.updateInner f (h + 1) n addr =
      (let left := turns (h + 1) addr h
       let (res, c) := t.updateInner f h ((Node.child (some n) left).getD (Node.new h)) (addr >>> 1)
       let n' := setChild n left c (Node.digest n)
       match res with
       | .error e => (.error e, n')
       | .ok (cl, auth) =>
           match t.params.compress (t.digestAt h (Node.child (some n') true))
               (t.digestAt h (Node.child (some n') false)) with
           | .error e => (.error e, n')
           | .ok d' => (.ok (cl, auth ++ [(left, t.digestAt h (Node.child (some n) (!left)))]),
               setChild n left c d')) := by
  obtain ⟨d, l, r⟩ : BranchNode p (Node p h) := n
  rw [turns_self_succ, updateInner]
  cases isLeft (addr >>> 1) with
  | false =>
      have hchild : Node.child (some (⟨d, l, r⟩ : BranchNode p (Node p h)) :
          Option (Node p (h + 1))) false = r := rfl
      simp only [Bool.false_eq_true, if_false, hchild]
      generalize t.updateInner f h (r.getD (Node.new h)) (addr >>> 1) = out
      obtain ⟨res | ⟨cl, auth⟩, c⟩ := out
      · rfl
      · rfl
  | true =>
      have hchild : Node.child (some (⟨d, l, r⟩ : BranchNode p (Node p h)) :
          Option (Node p (h + 1))) true = l := rfl
      simp only [if_true, hchild]
      generalize t.updateInner f h (l.getD (Node.new h)) (addr >>> 1) = out
      obtain ⟨res | ⟨cl, auth⟩, c⟩ := out
      · rfl
      · rfl

/-- The recursion of an update whose hashes do not fail. -/
theorem updateInner_succ (hp : t.params.Total H K) (f : UpdateFn) (n : Node p (h + 1)) (addr : U32) :
    t.updateInner f (h + 1) n addr =
      (let left := turns (h + 1) addr h
       let (res, c) := t.updateInner f h ((Node.child (some n) left).getD (Node.new h)) (addr >>> 1)
       match res with
       | .error e => (.error e, setChild n left c (Node.digest n))
       | .ok (cl, auth) =>
           let n' := setChild n left c 0
           (.ok (cl, auth ++ [(left, t.digestAt h (Node.child (some n) (!left)))]),
             setChild n left c
               (K (t.digestAt h (Node.child (some n') true))
                 (t.digestAt h (Node.child (some n') false))))) := by
  rw [updateInner_branch]
  dsimp only
  generalize t.updateInner f h _ (addr >>> 1) = out
  obtain ⟨res | ⟨cl, auth⟩, c⟩ := out
  · rfl
  · simp only [hp.compress]
    cases turns (h + 1) addr h with
    | false => rfl
    | true => rfl

variable {addr : U32} {f : UpdateFn}

/-- **An update** changes the line at the turns of its address only, renews the
digests on the way and returns the path of the new trie. -/
theorem updated_of_updateInner (hp : t.params.Total H K) {n n' : Node p h} {cl : ZMod p × ZMod p}
    {auth : List (Bool × ZMod p)} (hn : t.HashedBelow H K h n)
    (hrun : t.updateInner f h n addr = (.ok (cl, auth), n')) :
    Updated t H K f h n addr cl auth n' := by
  induction h generalizing addr cl auth with
  | zero =>
      obtain ⟨d, val⟩ : LeafNode p := n
      rw [updateInner] at hrun
      rcases hf : f val with ⟨_ | ⟨⟩, val'⟩
      · rw [hf] at hrun
        cases hrun
      · rw [hf] at hrun
        have hhash : t.params.hashMemory val' = .ok (H (val'.scalars p)) := hp.hashLeaf _
        simp only [hhash] at hrun
        cases hrun
        constructor
        · intro m hm
          obtain rfl := Option.some.inj hm
          rfl
        · rfl
        · refine ⟨val', hf, rfl, ?_⟩
          intro left
          rw [if_pos fun i hi => absurd hi (Nat.not_lt_zero i)]
          rfl
  | succ h ih =>
      rw [updateInner_succ hp] at hrun
      have hturns : ∀ i < h, turns (h + 1) addr i = turns h (addr >>> 1) i :=
        fun i hi => turns_succ hi.le addr
      generalize hleft : turns (h + 1) addr h = left at hrun
      dsimp only at hrun
      rcases hout : t.updateInner f h ((Node.child (some n) left).getD (Node.new h))
        (addr >>> 1) with ⟨_ | ⟨cl', auth'⟩, c⟩
      · rw [hout] at hrun
        cases hrun
      · rw [hout] at hrun
        cases hrun
        have hc := ih (hn left).getD_new hout
        constructor
        · constructor
          · intro m hm
            obtain rfl := Option.some.inj hm
            rfl
          · intro side
            rcases Bool.eq_or_eq_not side left with rfl | rfl
            · rw [child_setChild_self]
              exact hc.hashed
            · rw [child_setChild_other]
              exact hn _
        · rw [authAt, hleft, authAt_congr t hturns, child_setChild_self, child_setChild_other,
            ← hc.auth_eq]
          rfl
        · obtain ⟨val', hf, hcl, hline⟩ := hc.line
          rw [Node.lineAt_getD_new] at hf
          refine ⟨val', ?_, hcl, ?_⟩
          · rw [Node.lineAt, hleft, Node.lineAt_congr hturns]
            exact hf
          · intro side
            have hiff : (∀ i < h + 1, side i = turns (h + 1) addr i) ↔
                side h = left ∧ ∀ i < h, side i = turns h (addr >>> 1) i := by
              constructor
              · intro hall
                refine ⟨(hall h (Nat.lt_succ_self h)).trans hleft, fun i hi => ?_⟩
                rw [hall i (Nat.lt_succ_of_lt hi), hturns i hi]
              · rintro ⟨hlast, hall⟩ i hi
                rcases Nat.lt_succ_iff_lt_or_eq.mp hi with hi | rfl
                · rw [hall i hi, hturns i hi]
                · rw [hlast, hleft]
            simp only [hiff, Node.lineAt]
            rcases Bool.eq_or_eq_not (side h) left with hside | hside
            · simp only [hside, child_setChild_self, hline, Node.lineAt_getD_new, true_and]
            · have hne : (!left) ≠ left := by cases left <;> decide
              simp only [hside, child_setChild_other, hne, false_and, if_false]

/-- An update succeeds if its callback does. -/
theorem exists_updateInner (hp : t.params.Total H K) {n : Node p h} {val' : CacheLine}
    (hf : f (Node.lineAt h (some n) (turns h addr)) = (.ok (), val')) :
    ∃ cl auth n', t.updateInner f h n addr = (.ok (cl, auth), n') := by
  induction h generalizing addr with
  | zero =>
      obtain ⟨d, val⟩ : LeafNode p := n
      have hval : f val = (.ok (), val') := hf
      have hhash : t.params.hashMemory val' = .ok (H (val'.scalars p)) := hp.hashLeaf _
      refine ⟨val'.scalars p, [], (⟨H (val'.scalars p), val'⟩ : LeafNode p), ?_⟩
      rw [updateInner]
      simp only [hval, hhash]
  | succ h ih =>
      rw [Node.lineAt, Node.lineAt_congr fun i hi => turns_succ (Nat.le_of_lt hi) addr,
        ← Node.lineAt_getD_new] at hf
      obtain ⟨cl, auth, c, hout⟩ := ih hf
      rw [updateInner_succ hp]
      dsimp only
      rw [hout]
      exact ⟨_, _, _, rfl⟩

/-! ## Reachable tries, positions and a small instance -/

/-- The tries that successful updates make of the empty one. -/
inductive Reached (params : Params p) : MerkleTrie p → Prop
  | default {t : MerkleTrie p} : MerkleTrie.default params = .ok t → Reached params t
  | update {t t' : MerkleTrie p} {addr : U32} {f : UpdateFn} {path : Path p} :
      Reached params t → t.update addr f = (.ok path, t') → Reached params t'

/-- What every reachable trie fulfills: its digests are those of the whole memory, where what is not
stored counts as zero. -/
structure Consistent (params : Params p) (H : ZMod p × ZMod p → ZMod p)
    (K : ZMod p → ZMod p → ZMod p) (t : MerkleTrie p) : Prop where
  params_eq : t.params = params
  zeros : t.ZerosCorrect H K
  hashed : t.Hashed H K cacheLog t.root

variable {params : Params p}

theorem zerosOfHeight_eq (hp : params.Total H K) (h : ℕ) :
    params.zerosOfHeight h [] = .ok (zeroDigest H K h, (List.range h).map (zeroDigest H K)) := by
  induction h with
  | zero =>
      have hhash : params.hashMemory CacheLine.zero = .ok (H (CacheLine.zero.scalars p)) :=
        hp.hashLeaf _
      rw [Params.zerosOfHeight, hhash]
      rfl
  | succ h ih =>
      rw [Params.zerosOfHeight, ih]
      show (params.compress _ _ >>= _) = _
      rw [hp.compress, List.range_succ, List.map_append]
      rfl

/-- The empty trie. -/
theorem default_eq (hp : params.Total H K) :
    MerkleTrie.default params =
      .ok ⟨none, ((List.range (cacheLog + 1)).map (zeroDigest H K)).reverse, params⟩ := by
  rw [MerkleTrie.default, Params.computeZeros, zerosOfHeight_eq hp, List.range_succ,
    List.map_append]
  rfl

theorem Consistent.default (hp : params.Total H K) {t : MerkleTrie p}
    (ht : MerkleTrie.default params = .ok t) : Consistent params H K t := by
  rw [default_eq hp] at ht
  obtain rfl := Except.ok.inj ht
  constructor
  · rfl
  · intro h hh
    have hlen : cacheLog - h <
        ((List.range (cacheLog + 1)).map (zeroDigest H K)).reverse.length := by
      rw [List.length_reverse, List.length_map, List.length_range]
      omega
    have hidx : cacheLog + 1 - 1 - (cacheLog - h) = h := by omega
    show List.getD _ (cacheLog - h) 0 = _
    rw [List.getD_eq_getElem _ _ hlen, List.getElem_reverse, List.getElem_map, List.getElem_range,
      List.length_map, List.length_range, hidx]
  · exact hashed_none cacheLog

theorem digestAt_setRoot (root : Option (Node p cacheLog)) (h : ℕ) (node : Option (Node p h)) :
    ({ t with root := root } : MerkleTrie p).digestAt h node = t.digestAt h node := by
  cases node <;> rfl

theorem hashed_setRoot (root : Option (Node p cacheLog)) :
    ({ t with root := root } : MerkleTrie p).Hashed H K h node ↔ t.Hashed H K h node := by
  induction h with
  | zero => exact Iff.rfl
  | succ h ih => simp only [Hashed, digestAt_setRoot, ih]

theorem authAt_setRoot (root : Option (Node p cacheLog)) (h : ℕ) (node : Option (Node p h))
    (left : ℕ → Bool) :
    ({ t with root := root } : MerkleTrie p).authAt h node left = t.authAt h node left := by
  induction h with
  | zero => rfl
  | succ h ih =>
      rw [authAt, authAt, ih]
      congr 3

variable {t' : MerkleTrie p}

variable {path : Path p}

/-- A successful update in terms of the one below the root. -/
theorem update_eq_ok :
    t.update addr f = (.ok path, t') ↔
      ∃ cl auth root', t.updateInner f cacheLog (t.root.getD (Node.new cacheLog)) addr.reverse =
          (.ok (cl, auth), root') ∧ t' = { t with root := some root' } ∧
        path = ⟨t'.rootDigest, cl, auth⟩ := by
  rw [MerkleTrie.update]
  dsimp only
  rcases t.updateInner f cacheLog (t.root.getD (Node.new cacheLog)) addr.reverse with
    ⟨e | ⟨cl, auth⟩, root'⟩
  · constructor
    · intro h
      cases h
    · rintro ⟨cl, auth, root'', h, -⟩
      cases h
  · constructor
    · intro h
      cases h
      exact ⟨cl, auth, root', rfl, rfl, rfl⟩
    · rintro ⟨cl', auth', root'', h, rfl, rfl⟩
      cases h
      rfl

/-- A query of a trie. -/
theorem query_eq (addr : U32) :
    t.query addr =
      (Node.lineAt cacheLog t.root (turns cacheLog addr.reverse),
        ⟨t.rootDigest, (Node.lineAt cacheLog t.root (turns cacheLog addr.reverse)).scalars p,
          t.authAt cacheLog t.root (turns cacheLog addr.reverse)⟩) := by
  rw [MerkleTrie.query, queryInner_eq]

/-- **A successful update** of a reachable trie leaves a consistent one, and
returns the path that a query of it would. -/
theorem Consistent.update (hp : params.Total H K) (ht : Consistent params H K t)
    (hrun : t.update addr f = (.ok path, t')) :
    Consistent params H K t' ∧ path = (t'.query addr).2 := by
  obtain ⟨cl, auth, root', hinner, rfl, rfl⟩ := update_eq_ok.mp hrun
  have htotal : t.params.Total H K := ht.params_eq ▸ hp
  have hupd := updated_of_updateInner htotal ht.hashed.getD_new hinner
  constructor
  · constructor
    · exact ht.params_eq
    · exact ht.zeros
    · exact (hashed_setRoot _).mpr hupd.hashed
  · obtain ⟨val', -, hcl, hline⟩ := hupd.line
    rw [query_eq]
    show (⟨_, cl, auth⟩ : Path p) = ⟨_, (Node.lineAt cacheLog (some root') _).scalars p,
      authAt _ cacheLog (some root') _⟩
    rw [hline, if_pos fun _ _ => rfl, hcl, authAt_setRoot, hupd.auth_eq]

theorem consistent_of_reached (hp : params.Total H K) (ht : Reached params t) :
    Consistent params H K t := by
  induction ht with
  | default h => exact Consistent.default hp h
  | update _ hrun ih => exact (ih.update hp hrun).1

/-- The path of a query verifies. -/
theorem verify_query (hp : params.Total H K) (ht : Consistent params H K t) (addr : U32) :
    (t.query addr).2.verify params = .ok true := by
  have htotal : t.params.Total H K := ht.params_eq ▸ hp
  have hclimb := climb_authAt htotal ht.zeros le_rfl ht.hashed (turns cacheLog addr.reverse)
  rw [ht.params_eq] at hclimb
  have hroot : t.digestAt cacheLog t.root = t.rootDigest := by
    rw [digestAt, Nat.sub_self]
    rfl
  rw [hroot] at hclimb
  rw [query_eq]
  generalize Node.lineAt cacheLog t.root (turns cacheLog addr.reverse) = cl at hclimb ⊢
  generalize t.authAt cacheLog t.root (turns cacheLog addr.reverse) = auth at hclimb ⊢
  rw [Path.verify, hp.hashLeaf]
  show (Path.climb params (H (cl.scalars p)) auth >>= fun hash =>
    pure (decide (t.rootDigest = hash))) = _
  rw [hclimb]
  show Except.ok (decide (t.rootDigest = t.rootDigest)) = _
  rw [decide_eq_true rfl]

/-- **The trie is consistent.**  After any successful updates every stored node
has the digest of its children or of its line, with the right default digests,
and the paths of queries and updates verify against the root. -/
theorem merkle_consistent (hp : params.Total H K) (ht : Reached params t) :
    t.ZerosCorrect H K ∧ t.Hashed H K cacheLog t.root ∧
      (∀ addr, (t.query addr).2.verify params = .ok true ∧
        (t.query addr).2.root = t.rootDigest) ∧
      ∀ addr f path t', t.update addr f = (.ok path, t') →
        path.verify params = .ok true ∧ path.root = t'.rootDigest := by
  have hcons := consistent_of_reached hp ht
  refine ⟨hcons.zeros, hcons.hashed, ?_, ?_⟩
  · intro addr
    exact ⟨verify_query hp hcons addr, rfl⟩
  · intro addr f path t' hrun
    obtain ⟨hcons', rfl⟩ := hcons.update hp hrun
    exact ⟨verify_query hp hcons' addr, rfl⟩

/-- An update succeeds if its callback does. -/
theorem exists_update (hp : params.Total H K) (ht : Consistent params H K t) {val' : CacheLine}
    (hf : f (t.query addr).1 = (.ok (), val')) :
    ∃ path t', t.update addr f = (.ok path, t') := by
  have htotal : t.params.Total H K := ht.params_eq ▸ hp
  rw [query_eq, ← Node.lineAt_getD_new] at hf
  obtain ⟨cl, auth, root', hinner⟩ := exists_updateInner htotal hf
  exact ⟨_, _, update_eq_ok.mpr ⟨cl, auth, root', hinner, rfl, rfl⟩⟩

theorem isLeft_eq (addr : U32) : isLeft addr = !addr.getLsbD 0 := by
  have hand : addr &&& 1 = (BitVec.ofBool (addr.getLsbD 0)).setWidth 32 :=
    BitVec.and_one_eq_setWidth_ofBool_getLsbD
  rw [isLeft, hand]
  cases addr.getLsbD 0 <;> rfl

/-- The turns of an address: a path goes by the address bits from `4` to `30`. -/
theorem turns_reverse (addr : U32) {i : ℕ} (hi : i < cacheLog) :
    turns cacheLog addr.reverse i = !addr.getLsbD (4 + i) := by
  have hlog : cacheLog = 27 := rfl
  have hidx : 32 - 1 - (cacheLog - i) = 4 + i := by omega
  have hlt : cacheLog - i < 32 := by omega
  rw [turns, isLeft_eq, BitVec.getLsbD_ushiftRight, Nat.add_zero, BitVec.getLsbD_reverse,
    BitVec.getMsbD_eq_getLsbD, decide_eq_true hlt, Bool.true_and, hidx]

/-- Two addresses that take the same turns. -/
def SameTurns (addr addr' : U32) : Prop :=
  ∀ i < cacheLog, addr'.getLsbD (4 + i) = addr.getLsbD (4 + i)

instance (addr addr' : U32) : Decidable (SameTurns addr addr') := by
  unfold SameTurns
  infer_instance

/-- **A successful update replaces one line**, which all addresses with the same
turns read. -/
theorem query_update (hp : params.Total H K) (ht : Consistent params H K t)
    (hrun : t.update addr f = (.ok path, t')) :
    ∃ val', f (t.query addr).1 = (.ok (), val') ∧
      ∀ addr', (t'.query addr').1 = if SameTurns addr addr' then val' else (t.query addr').1 := by
  obtain ⟨cl, auth, root', hinner, rfl, rfl⟩ := update_eq_ok.mp hrun
  have htotal : t.params.Total H K := ht.params_eq ▸ hp
  obtain ⟨val', hf, -, hline⟩ := (updated_of_updateInner htotal ht.hashed.getD_new hinner).line
  rw [Node.lineAt_getD_new] at hf
  refine ⟨val', ?_, ?_⟩
  · rw [query_eq]
    exact hf
  · intro addr'
    have hiff : (∀ i < cacheLog, turns cacheLog addr'.reverse i = turns cacheLog addr.reverse i) ↔
        SameTurns addr addr' := by
      apply forall_congr'
      intro i
      apply forall_congr'
      intro hi
      rw [turns_reverse addr' hi, turns_reverse addr hi, Bool.not_inj_iff]
    rw [query_eq, query_eq]
    show Node.lineAt cacheLog (some root') (turns cacheLog addr'.reverse) = _
    rw [hline, Node.lineAt_getD_new]
    simp only [hiff]

/-- Hashes that are sums. -/
def sumParams (p : ℕ) : Params p where
  hashLeaf x := .ok (x.1 + 2 * x.2 + 1)
  compress a b := .ok (a + 2 * b + 1)

theorem sumParams_total (p : ℕ) :
    (sumParams p).Total (fun x => x.1 + 2 * x.2 + 1) fun a b => a + 2 * b + 1 :=
  ⟨fun _ => rfl, fun _ _ => rfl⟩

/-- The trie after a byte is stored, and a path of it. -/
theorem merkle_consistent_sum : ∃ t : MerkleTrie 7, (t.query 5).1.byte 5 = 1 ∧
    t.Hashed (fun x => x.1 + 2 * x.2 + 1) (fun a b => a + 2 * b + 1) cacheLog t.root ∧
    (t.query 9).2.verify (sumParams 7) = .ok true := by
  have htotal := sumParams_total 7
  obtain ⟨t₀, hdefault⟩ : ∃ t₀, MerkleTrie.default (sumParams 7) = .ok t₀ := ⟨_, default_eq htotal⟩
  have hempty := Consistent.default htotal hdefault
  obtain ⟨path, t, hrun⟩ : ∃ path t, t₀.update 5 (fun cl => cl.sb 5 1) = (.ok path, t) :=
    exists_update htotal hempty rfl
  obtain ⟨val', hval, hline⟩ := query_update htotal hempty hrun
  have h := merkle_consistent htotal (.update (.default hdefault) hrun)
  refine ⟨t, ?_, h.2.1, (h.2.2.1 9).1⟩
  have hsame : SameTurns 5 5 := fun _ _ => rfl
  have hval' : _ = val' := congrArg Prod.snd hval
  rw [hline, if_pos hsame, ← hval']
  simp [CacheLine.sb, CacheLine.setByte, CacheLine.byte]

end MerkleTrie

end NexusVm
