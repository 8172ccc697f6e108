import NexusVm.Memory.Position

/-!
# Failed updates of the trie

An update allocates the nodes of its path on the way down, with digest `0`.  When the
callback fails they remain, and nothing computes their digests.
-/

namespace NexusVm

namespace MerkleTrie

variable {p : ℕ} (t : MerkleTrie p)

/-- The trie after some updates, successful or not. -/
def after (t : MerkleTrie p) (calls : List (U32 × UpdateFn)) : MerkleTrie p :=
  calls.foldl (fun t call => (t.update call.1 call.2).2) t

/-- An update that returns a path which verifies. -/
def ReturnsValid (params : Params p) (res : Except NexusVMError (Path p)) : Prop :=
  ∃ path, res = .ok path ∧ path.verify params = .ok true

/-- **As if the call that made `t'` of `t` had never been made**: the same root, the same
queries, and the same validity of each path that is returned later. -/
structure AsBefore (t t' : MerkleTrie p) : Prop where
  root : t'.rootDigest = t.rootDigest
  query : ∀ addr, t'.query addr = t.query addr
  update : ∀ calls addr f, ReturnsValid t.params ((t'.after calls).update addr f).1 ↔
    ReturnsValid t.params ((t.after calls).update addr f).1
  path : ∀ calls addr, ((t'.after calls).query addr).2.verify t.params = .ok true ↔
    ((t.after calls).query addr).2.verify t.params = .ok true

/-- A path on which a failed update shows nowhere: each node is there already, or has
the digest of a new node by default. -/
def QuietBelow : (h : ℕ) → Option (Node p h) → (ℕ → Bool) → Prop
  | 0, node, _ => node = none → t.digestAt 0 (none : Option (Node p 0)) = 0
  | h + 1, node, left =>
      (node = none → t.digestAt (h + 1) (none : Option (Node p (h + 1))) = 0) ∧
        QuietBelow h (Node.child node (left h)) left

variable {h : ℕ}

variable {node : Option (Node p h)}

theorem quietBelow_congr {left left' : ℕ → Bool} (hleft : ∀ i < h, left i = left' i) :
    t.QuietBelow h node left ↔ t.QuietBelow h node left' := by
  induction h with
  | zero => exact Iff.rfl
  | succ h ih =>
      rw [QuietBelow, QuietBelow, hleft h (Nat.lt_succ_self h),
        ih fun i hi => hleft i (Nat.lt_succ_of_lt hi)]

/-- The path of an address shows no failed update. -/
def Quiet (addr : U32) : Prop := t.QuietBelow cacheLog t.root (turns cacheLog addr.reverse)

/-- The digest that a node has after a failed update. -/
def keptDigest {h : ℕ} (node : Option (Node p h)) : ZMod p := (node.getD (Node.new h)).digest

theorem keptDigest_none (h : ℕ) : keptDigest (none : Option (Node p h)) = 0 := by
  cases h <;> rfl

/-- Subtries that no call tells apart: they have the same digests, also after a failed
update, and the same lines. -/
def Alike : (h : ℕ) → Option (Node p h) → Option (Node p h) → Prop
  | 0, node, node' => t.digestAt 0 node = t.digestAt 0 node' ∧ keptDigest node = keptDigest node' ∧
      Node.leafVal node = Node.leafVal node'
  | h + 1, node, node' => t.digestAt (h + 1) node = t.digestAt (h + 1) node' ∧
      keptDigest node = keptDigest node' ∧
        ∀ left, Alike h (Node.child node left) (Node.child node' left)

variable {t}

theorem Alike.refl (h : ℕ) (node : Option (Node p h)) : t.Alike h node node := by
  induction h with
  | zero => exact ⟨rfl, rfl, rfl⟩
  | succ h ih => exact ⟨rfl, rfl, fun _ => ih _⟩

variable {node node' : Option (Node p h)}

theorem Alike.digest (hn : t.Alike h node node') :
    t.digestAt h node = t.digestAt h node' := by
  cases h with
  | zero => exact hn.1
  | succ h => exact hn.1

theorem Alike.kept (hn : t.Alike h node node') :
    keptDigest node = keptDigest node' := by
  cases h with
  | zero => exact hn.2.1
  | succ h => exact hn.2.1

theorem Alike.lineAt (hn : t.Alike h node node') (left : ℕ → Bool) :
    Node.lineAt h node left = Node.lineAt h node' left := by
  induction h with
  | zero => exact hn.2.2
  | succ h ih => exact ih (hn.2.2 (left h))

theorem Alike.authAt (hn : t.Alike h node node') (left : ℕ → Bool) :
    t.authAt h node left = t.authAt h node' left := by
  induction h with
  | zero => rfl
  | succ h ih =>
      rw [MerkleTrie.authAt, MerkleTrie.authAt, ih (hn.2.2 (left h))]
      have hsibling := (hn.2.2 (!left h)).digest
      rw [digestAt, digestAt] at hsibling
      rw [hsibling]

/-! ## Updates of tries that look alike and whole tries -/

theorem child_getD_new (node : Option (Node p (h + 1))) (left : Bool) :
    Node.child (some (node.getD (Node.new (h + 1)))) left = Node.child node left := by
  cases node with
  | none => cases left <;> rfl
  | some n => rfl

/-- Branches whose children look alike, with one child replaced. -/
theorem Alike.setChild {n n' : Node p (h + 1)} {c c' : Node p h}
    (hn : ∀ left, t.Alike h (Node.child (some n) left) (Node.child (some n') left))
    (hc : t.Alike h (some c) (some c')) (side left : Bool) (d d' : ZMod p) :
    t.Alike h (Node.child (some (setChild n side c d)) left)
      (Node.child (some (setChild n' side c' d')) left) := by
  rcases Bool.eq_or_eq_not left side with rfl | rfl
  · rw [child_setChild_self, child_setChild_self]
    exact hc
  · rw [child_setChild_other, child_setChild_other]
    exact hn _

/-- **An update does not tell subtries apart** that look alike, and leaves them so. -/
theorem Alike.updateInner (hn : t.Alike h node node') (f : UpdateFn) (addr : U32) :
    (t.updateInner f h (node.getD (Node.new h)) addr).1 =
        (t.updateInner f h (node'.getD (Node.new h)) addr).1 ∧
      t.Alike h (some (t.updateInner f h (node.getD (Node.new h)) addr).2)
        (some (t.updateInner f h (node'.getD (Node.new h)) addr).2) := by
  induction h generalizing addr with
  | zero =>
      have hleaf : ∀ node : Option (Node p 0),
          node.getD (Node.new 0) = (⟨keptDigest node, Node.leafVal node⟩ : LeafNode p) := by
        intro node
        cases node <;> rfl
      have heq : node.getD (Node.new 0) = node'.getD (Node.new 0) := by
        rw [hleaf, hleaf, hn.kept, hn.2.2]
      rw [heq]
      exact ⟨rfl, Alike.refl 0 _⟩
  | succ h ih =>
      have hdigest : Node.digest (node.getD (Node.new (h + 1))) =
          Node.digest (node'.getD (Node.new (h + 1))) := hn.kept
      have hchild : ∀ left, t.Alike h (Node.child (some (node.getD (Node.new (h + 1)))) left)
          (Node.child (some (node'.getD (Node.new (h + 1)))) left) := by
        intro left
        rw [child_getD_new, child_getD_new]
        exact hn.2.2 left
      generalize node.getD (Node.new (h + 1)) = n at hdigest hchild ⊢
      generalize node'.getD (Node.new (h + 1)) = n' at hdigest hchild ⊢
      obtain ⟨hres, hc⟩ := ih (hchild (turns (h + 1) addr h)) (addr >>> 1)
      rw [updateInner_branch, updateInner_branch]
      dsimp only
      generalize t.updateInner f h _ (addr >>> 1) = out at hres hc ⊢
      generalize t.updateInner f h _ (addr >>> 1) = out' at hres hc ⊢
      obtain ⟨res, c⟩ := out
      obtain ⟨res', c'⟩ := out'
      obtain rfl : res = res' := hres
      have hset : ∀ side d d', d = d' → t.Alike (h + 1) (some (MerkleTrie.setChild n side c d))
          (some (MerkleTrie.setChild n' side c' d')) := by
        rintro side d d' rfl
        exact ⟨rfl, rfl, fun left => Alike.setChild hchild hc side left d d⟩
      cases res with
      | error e => exact ⟨rfl, hset _ _ _ hdigest⟩
      | ok out =>
          have hleft := (Alike.setChild hchild hc (turns (h + 1) addr h) true
            (Node.digest n) (Node.digest n')).digest
          have hright := (Alike.setChild hchild hc (turns (h + 1) addr h) false
            (Node.digest n) (Node.digest n')).digest
          have hsibling := (hchild (!turns (h + 1) addr h)).digest
          dsimp only
          rw [hleft, hright, hsibling]
          cases t.params.compress _ _ with
          | error e => exact ⟨rfl, hset _ _ _ hdigest⟩
          | ok d' => exact ⟨rfl, hset _ _ _ rfl⟩

theorem alike_setRoot (root : Option (Node p cacheLog)) :
    ({ t with root := root } : MerkleTrie p).Alike h node node' ↔ t.Alike h node node' := by
  induction h with
  | zero => simp only [Alike, digestAt_setRoot]
  | succ h ih => simp only [Alike, digestAt_setRoot, ih]

theorem updateInner_setRoot (root : Option (Node p cacheLog)) (f : UpdateFn) (n : Node p h)
    (addr : U32) :
    ({ t with root := root } : MerkleTrie p).updateInner f h n addr = t.updateInner f h n addr := by
  induction h generalizing addr with
  | zero => rfl
  | succ h ih =>
      rw [updateInner_branch, updateInner_branch]
      dsimp only
      rw [ih]
      simp only [digestAt_setRoot]

theorem rootDigest_eq (t : MerkleTrie p) : t.rootDigest = t.digestAt cacheLog t.root := by
  rw [rootDigest, digestAt, Nat.sub_self]

variable {root : Option (Node p cacheLog)}

/-- A query does not tell tries apart that look alike. -/
theorem Alike.query (hn : t.Alike cacheLog t.root root) (addr : U32) :
    ({ t with root := root } : MerkleTrie p).query addr = t.query addr := by
  rw [query_eq, query_eq, rootDigest_eq, rootDigest_eq, digestAt_setRoot, authAt_setRoot,
    ← hn.digest, ← hn.authAt, ← hn.lineAt]

variable {f : UpdateFn} {addr : U32}

/-- An update in terms of the one below the root. -/
theorem update_eq {res : Except NexusVMError ((ZMod p × ZMod p) × List (Bool × ZMod p))}
    {root : Node p cacheLog}
    (hrun : t.updateInner f cacheLog (t.root.getD (Node.new cacheLog)) addr.reverse = (res, root)) :
    t.update addr f = (res.map fun out =>
      (⟨({ t with root := some root } : MerkleTrie p).rootDigest, out.1, out.2⟩ : Path p),
      { t with root := some root }) := by
  rw [MerkleTrie.update]
  dsimp only
  rw [hrun]

/-- Nor does an update. -/
theorem Alike.update (hn : t.Alike cacheLog t.root root) (addr : U32) (f : UpdateFn) :
    (({ t with root := root } : MerkleTrie p).update addr f).1 = (t.update addr f).1 ∧
      ∃ root', (({ t with root := root } : MerkleTrie p).update addr f).2 =
          { (t.update addr f).2 with root := root' } ∧
        (t.update addr f).2.Alike cacheLog (t.update addr f).2.root root' := by
  obtain ⟨hres, hnext⟩ := hn.updateInner f addr.reverse
  rcases hout : t.updateInner f cacheLog (t.root.getD (Node.new cacheLog)) addr.reverse with
    ⟨res, n⟩
  rcases hout' : t.updateInner f cacheLog (root.getD (Node.new cacheLog)) addr.reverse with
    ⟨res', n'⟩
  rw [hout, hout'] at hres hnext
  obtain rfl : res = res' := hres
  have hrun' := (updateInner_setRoot root f _ _).trans hout'
  rw [update_eq hout, update_eq hrun']
  have hroot : ({ t with root := some n' } : MerkleTrie p).rootDigest =
      ({ t with root := some n } : MerkleTrie p).rootDigest := by
    rw [rootDigest_eq, rootDigest_eq, digestAt_setRoot, digestAt_setRoot]
    exact hnext.digest.symm
  dsimp only
  rw [hroot]
  exact ⟨rfl, some n', rfl, (alike_setRoot _).mpr hnext⟩

theorem Alike.after (hn : t.Alike cacheLog t.root root) (calls : List (U32 × UpdateFn)) :
    ∃ root', ({ t with root := root } : MerkleTrie p).after calls =
        { t.after calls with root := root' } ∧
      (t.after calls).Alike cacheLog (t.after calls).root root' := by
  induction calls generalizing t root with
  | nil => exact ⟨root, rfl, hn⟩
  | cons call calls ih =>
      obtain ⟨-, root₁, hstep, hn₁⟩ := hn.update call.1 call.2
      obtain ⟨root', hrun, hn'⟩ := ih hn₁
      refine ⟨root', ?_, hn'⟩
      show MerkleTrie.after (({ t with root := root } : MerkleTrie p).update call.1 call.2).2 calls
        = _
      rw [hstep]
      exact hrun

/-- Tries that look alike are as before. -/
theorem Alike.asBefore (hn : t.Alike cacheLog t.root root) :
    AsBefore t { t with root := root } := by
  constructor
  · rw [rootDigest_eq, rootDigest_eq, digestAt_setRoot]
    exact hn.digest.symm
  · exact hn.query
  · intro calls addr f
    obtain ⟨root', hrun, hn'⟩ := hn.after calls
    rw [hrun, (hn'.update addr f).1]
  · intro calls addr
    obtain ⟨root', hrun, hn'⟩ := hn.after calls
    rw [hrun, hn'.query]

/-! ## A failed update -/

variable {val : CacheLine} {e : NexusVMError}

/-- A callback that fails makes the update fail. -/
theorem updateInner_error (hf : f (Node.lineAt h node (turns h addr)) = (.error e, val)) :
    (t.updateInner f h (node.getD (Node.new h)) addr).1 = .error e := by
  induction h generalizing addr with
  | zero =>
      cases node with
      | none =>
          show (t.updateInner f 0 (⟨0, CacheLine.zero⟩ : LeafNode p) addr).1 = _
          rw [MerkleTrie.updateInner, show f CacheLine.zero = _ from hf]
      | some n =>
          obtain ⟨d, val⟩ : LeafNode p := n
          show (t.updateInner f 0 (⟨d, val⟩ : LeafNode p) addr).1 = _
          rw [MerkleTrie.updateInner, show f val = _ from hf]
  | succ h ih =>
      rw [Node.lineAt, Node.lineAt_congr fun i hi => turns_succ (Nat.le_of_lt hi) addr] at hf
      have hres := ih hf
      rw [updateInner_branch]
      dsimp only
      rw [child_getD_new]
      generalize t.updateInner f h _ (addr >>> 1) = out at hres ⊢
      obtain ⟨res, c⟩ := out
      obtain rfl : res = .error e := hres
      rfl

/-- **A quiet path**: a failed update that leaves the line as it was leaves a subtrie that
looks alike. -/
theorem alike_of_quiet
    (hf : f (Node.lineAt h node (turns h addr)) = (.error e, Node.lineAt h node (turns h addr)))
    (hquiet : t.QuietBelow h node (turns h addr)) :
    t.Alike h node (some (t.updateInner f h (node.getD (Node.new h)) addr).2) := by
  induction h generalizing addr with
  | zero =>
      have hrun : (t.updateInner f 0 (node.getD (Node.new 0)) addr).2 =
          (⟨keptDigest node, Node.leafVal node⟩ : LeafNode p) := by
        change f (Node.leafVal node) = _ at hf
        cases node with
        | none =>
            show (t.updateInner f 0 (⟨0, CacheLine.zero⟩ : LeafNode p) addr).2 = _
            rw [MerkleTrie.updateInner, show f CacheLine.zero = _ from hf]
            rfl
        | some n =>
            obtain ⟨d, val⟩ : LeafNode p := n
            show (t.updateInner f 0 (⟨d, val⟩ : LeafNode p) addr).2 = _
            rw [MerkleTrie.updateInner, show f val = _ from hf]
            rfl
      rw [hrun]
      refine ⟨?_, rfl, rfl⟩
      cases node with
      | none => exact hquiet rfl
      | some n => rfl
  | succ h ih =>
      rw [Node.lineAt, Node.lineAt_congr fun i hi => turns_succ (Nat.le_of_lt hi) addr] at hf
      rw [QuietBelow, quietBelow_congr t fun i hi => turns_succ (Nat.le_of_lt hi) addr] at hquiet
      obtain ⟨hnode, hbelow⟩ := hquiet
      have hc := ih hf hbelow
      rw [updateInner_branch]
      dsimp only
      rw [child_getD_new]
      have hres : (t.updateInner f h ((Node.child node (turns (h + 1) addr h)).getD (Node.new h))
          (addr >>> 1)).1 = .error e := updateInner_error hf
      generalize t.updateInner f h _ (addr >>> 1) = out at hc hres ⊢
      obtain ⟨res, c⟩ := out
      obtain rfl : res = .error e := hres
      dsimp only
      refine ⟨?_, rfl, ?_⟩
      · cases node with
        | none => exact hnode rfl
        | some n => rfl
      · intro left
        rcases Bool.eq_or_eq_not left (turns (h + 1) addr h) with rfl | rfl
        · rw [child_setChild_self]
          exact hc
        · rw [child_setChild_other, child_getD_new]
          exact Alike.refl h _

/-- What a failed update leaves of a node: its digest, and the line that the callback left. -/
theorem updateInner_kept (hf : f (Node.lineAt h node (turns h addr)) = (.error e, val)) :
    Node.digest (t.updateInner f h (node.getD (Node.new h)) addr).2 = keptDigest node ∧
      Node.lineAt h (some (t.updateInner f h (node.getD (Node.new h)) addr).2) (turns h addr) =
        val := by
  induction h generalizing addr with
  | zero =>
      cases node with
      | none =>
          show Node.digest (t.updateInner f 0 (⟨0, CacheLine.zero⟩ : LeafNode p) addr).2 = _ ∧
            Node.leafVal (some (t.updateInner f 0 (⟨0, CacheLine.zero⟩ : LeafNode p) addr).2) = _
          rw [MerkleTrie.updateInner, show f CacheLine.zero = _ from hf]
          exact ⟨rfl, rfl⟩
      | some n =>
          obtain ⟨d, val⟩ : LeafNode p := n
          show Node.digest (t.updateInner f 0 (⟨d, val⟩ : LeafNode p) addr).2 = _ ∧
            Node.leafVal (some (t.updateInner f 0 (⟨d, val⟩ : LeafNode p) addr).2) = _
          rw [MerkleTrie.updateInner, show f val = _ from hf]
          exact ⟨rfl, rfl⟩
  | succ h ih =>
      have hturns : ∀ i < h, turns (h + 1) addr i = turns h (addr >>> 1) i :=
        fun i hi => turns_succ (Nat.le_of_lt hi) addr
      rw [Node.lineAt, Node.lineAt_congr hturns] at hf
      obtain ⟨-, hline⟩ := ih hf
      have hres := updateInner_error (t := t) hf
      rw [Node.lineAt, Node.lineAt_congr hturns, updateInner_branch]
      dsimp only
      rw [child_getD_new]
      generalize t.updateInner f h _ (addr >>> 1) = out at hline hres ⊢
      obtain ⟨res, c⟩ := out
      obtain rfl : res = .error e := hres
      dsimp only
      rw [child_setChild_self]
      exact ⟨rfl, hline⟩

/-- The node below a branch after a failed update. -/
theorem child_updateInner_error {node : Option (Node p (h + 1))}
    (hf : f (Node.lineAt (h + 1) node (turns (h + 1) addr)) = (.error e, val)) :
    Node.child (some (t.updateInner f (h + 1) (node.getD (Node.new (h + 1))) addr).2)
        (turns (h + 1) addr h) =
      some (t.updateInner f h ((Node.child node (turns (h + 1) addr h)).getD (Node.new h))
        (addr >>> 1)).2 := by
  rw [Node.lineAt, Node.lineAt_congr fun i hi => turns_succ (Nat.le_of_lt hi) addr] at hf
  have hres := updateInner_error (t := t) hf
  rw [updateInner_branch]
  dsimp only
  rw [child_getD_new]
  generalize t.updateInner f h _ (addr >>> 1) = out at hres ⊢
  obtain ⟨res, c⟩ := out
  obtain rfl : res = .error e := hres
  exact child_setChild_self _ _ _ _

/-- **A path is quiet** if the digests beside all paths are the same after a failed update. -/
theorem quiet_of_same (hf : f (Node.lineAt h node (turns h addr)) = (.error e, val))
    (hdigest : t.digestAt h node = t.digestAt h (some (t.updateInner f h (node.getD (Node.new h)) addr).2))
    (hauth : ∀ left, t.authAt h node left = t.authAt h (some (t.updateInner f h (node.getD (Node.new h)) addr).2) left) :
    t.QuietBelow h node (turns h addr) := by
  have hnode : node = none → t.digestAt h (none : Option (Node p h)) = 0 := by
    rintro rfl
    rw [hdigest]
    show Node.digest _ = 0
    rw [(updateInner_kept hf).1, keptDigest_none]
  induction h generalizing addr with
  | zero => exact hnode
  | succ h ih =>
      have hchild := child_updateInner_error (t := t) hf
      generalize hn' : (t.updateInner f (h + 1) (node.getD (Node.new (h + 1))) addr).2 = n'
        at hauth hchild
      rw [QuietBelow, quietBelow_congr t fun i hi => turns_succ (Nat.le_of_lt hi) addr]
      rw [Node.lineAt, Node.lineAt_congr fun i hi => turns_succ (Nat.le_of_lt hi) addr] at hf
      -- a path that leaves this one at the branch has the digest of the child beside it
      have hbeside : t.digestAt h (Node.child node (turns (h + 1) addr h)) =
          t.digestAt h (Node.child (some n') (turns (h + 1) addr h)) := by
        have hlast := hauth fun _ => !turns (h + 1) addr h
        rw [MerkleTrie.authAt, MerkleTrie.authAt, Bool.not_not] at hlast
        have hentry := (List.append_inj' hlast rfl).2
        exact congrArg Prod.snd (List.cons.inj hentry).1
      have hbelow : ∀ left, t.authAt h (Node.child node (turns (h + 1) addr h)) left =
          t.authAt h (Node.child (some n') (turns (h + 1) addr h)) left := by
        intro left
        have hlast := hauth (Function.update left h (turns (h + 1) addr h))
        rw [MerkleTrie.authAt, MerkleTrie.authAt, Function.update_self] at hlast
        have hagree : ∀ i < h, Function.update left h (turns (h + 1) addr h) i = left i :=
          fun i hi => Function.update_of_ne hi.ne _ _
        rw [authAt_congr t hagree, authAt_congr t hagree] at hlast
        exact (List.append_inj' hlast rfl).1
      rw [hchild] at hbeside hbelow
      refine ⟨hnode, ih hf hbeside hbelow ?_⟩
      intro hnone
      rw [hnone] at hbeside hf
      rw [hbeside]
      show Node.digest _ = 0
      rw [(updateInner_kept hf).1, keptDigest_none]

/-- Any turns are those of an address. -/
theorem exists_turns (left : ℕ → Bool) :
    ∃ addr : U32, ∀ i < cacheLog, turns cacheLog addr.reverse i = left i := by
  refine ⟨(BitVec.ofBoolListLE ((List.range 32).map fun j => !left (j - 4))).setWidth 32, ?_⟩
  intro i hi
  have hlog : cacheLog = 27 := rfl
  have hlt : 4 + i < 32 := by omega
  rw [turns_reverse _ hi, BitVec.getLsbD_setWidth, decide_eq_true hlt, Bool.true_and,
    BitVec.getLsbD_ofBoolListLE, List.getD_eq_getElem?_getD, List.getElem?_map,
    List.getElem?_range hlt, Option.map_some, Option.getD_some, Nat.add_sub_cancel_left,
    Bool.not_not]

/-- **A failed update is atomic** exactly if its callback leaves the line as it was, and each
node on the path of the address is there already or has digest `0` by default. -/
theorem failed_update_iff (t : MerkleTrie p) {cl : CacheLine}
    (hf : f (t.query addr).1 = (.error e, cl)) :
    ∃ t', t.update addr f = (.error e, t') ∧
      (AsBefore t t' ↔ cl = (t.query addr).1 ∧ t.Quiet addr) := by
  have hline : (t.query addr).1 = Node.lineAt cacheLog t.root (turns cacheLog addr.reverse) := by
    rw [query_eq]
  rw [hline] at hf ⊢
  have hres := updateInner_error (t := t) hf
  obtain ⟨-, hval⟩ := updateInner_kept (t := t) hf
  generalize hout : t.updateInner f cacheLog (t.root.getD (Node.new cacheLog)) addr.reverse = out
    at hres hval
  obtain ⟨res, root'⟩ := out
  obtain rfl : res = .error e := hres
  refine ⟨{ t with root := some root' }, ?_, ?_⟩
  · rw [update_eq hout]
    rfl
  · constructor
    · intro hbefore
      constructor
      · have hquery := congrArg Prod.fst (hbefore.query addr)
        rw [query_eq, query_eq] at hquery
        exact hval.symm.trans hquery
      · have hauth : ∀ left, t.authAt cacheLog t.root left =
            t.authAt cacheLog (some root') left := by
          intro left
          obtain ⟨addr', hturns⟩ := exists_turns left
          have hquery := congrArg (fun out => out.2.auth) (hbefore.query addr')
          rw [query_eq, query_eq] at hquery
          dsimp only at hquery
          rw [authAt_setRoot, authAt_congr t hturns, authAt_congr t hturns] at hquery
          exact hquery.symm
        have hdigest := hbefore.root
        rw [rootDigest_eq, rootDigest_eq, digestAt_setRoot] at hdigest
        refine quiet_of_same hf ?_ ?_
        · rw [hout]
          exact hdigest.symm
        · rw [hout]
          exact hauth
    · rintro ⟨rfl, hquiet⟩
      have hsame := alike_of_quiet hf hquiet
      rw [hout] at hsame
      exact hsame.asBefore

theorem quietBelow_spine (t : MerkleTrie p) (d : ℕ → ZMod p) (h : ℕ) {left : ℕ → Bool}
    (hleft : ∀ i < h, left i = true) : t.QuietBelow h (some (spine p d h)) left := by
  induction h with
  | zero => exact nofun
  | succ h ih =>
      rw [QuietBelow, hleft h (Nat.lt_succ_self h)]
      exact ⟨nofun, ih fun i hi => hleft i (Nat.lt_succ_of_lt hi)⟩

/-- A misaligned store to a line that is there already. -/
theorem failed_update_iff_spine : ∃ t', (spineTrie 7).update 1 (fun cl => cl.sw 1 0) =
    (.error (.misaligned 1), t') ∧ AsBefore (spineTrie 7) t' := by
  obtain ⟨t', hrun, hiff⟩ := failed_update_iff (spineTrie 7) (f := fun cl => cl.sw 1 0)
    (show ((spineTrie 7).query 1).1.sw 1 0 = (.error (.misaligned 1), ((spineTrie 7).query 1).1)
      from rfl)
  refine ⟨t', hrun, hiff.mpr ⟨rfl, quietBelow_spine _ _ _ ?_⟩⟩
  intro i hi
  rw [turns_reverse _ hi]
  have hbits : ∀ j < 28, (1 : U32).getLsbD (4 + j) = false := by decide
  rw [hbits i (Nat.lt_succ_of_lt hi)]
  rfl

/-- A misaligned store to the empty trie leaves a root with digest `0`. -/
theorem failed_update_shows : Reached (sumParams 7) (emptyTrie 7) ∧
    ∃ t', (emptyTrie 7).update 1 (fun cl => cl.store .sw 1 0) = (.error (.misaligned 1), t') ∧
      t'.rootDigest ≠ (emptyTrie 7).rootDigest := by
  have hdefault : MerkleTrie.default (sumParams 7) = .ok (emptyTrie 7) :=
    default_eq (sumParams_total 7)
  refine ⟨.default hdefault, ?_⟩
  have hf : (fun cl : CacheLine => cl.store .sw 1 0) (Node.lineAt cacheLog (emptyTrie 7).root
      (turns cacheLog (1 : U32).reverse)) = (.error (.misaligned 1), _) := rfl
  have hres := updateInner_error (t := emptyTrie 7) (f := fun cl => cl.store .sw 1 0) hf
  obtain ⟨hdigest, -⟩ :=
    updateInner_kept (t := emptyTrie 7) (f := fun cl => cl.store .sw 1 0) hf
  rcases hout : (emptyTrie 7).updateInner (fun cl => cl.store .sw 1 0) cacheLog
    ((emptyTrie 7).root.getD (Node.new cacheLog)) (1 : U32).reverse with ⟨res, root'⟩
  rw [hout] at hres hdigest
  obtain rfl : res = .error (.misaligned 1) := hres
  refine ⟨_, update_eq hout, ?_⟩
  have hnew : ({ emptyTrie 7 with root := some root' } : MerkleTrie 7).rootDigest = 0 := by
    rw [rootDigest_eq, digestAt_setRoot]
    exact hdigest.trans (keptDigest_none cacheLog)
  have hold : (emptyTrie 7).rootDigest = (sumZero cacheLog : ℕ) := by
    have hzero := (Consistent.default (sumParams_total 7) hdefault).zeros cacheLog le_rfl
    rw [zeroDigest_sum, Nat.sub_self] at hzero
    exact hzero
  rw [hnew, hold, ne_comm, Ne, ZMod.natCast_eq_zero_iff]
  decide

end MerkleTrie

end NexusVm
