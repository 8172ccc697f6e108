import NexusVm.Bn254
import NexusVm.Network.Postcard

/-!
# What the codec does with messages and with bytes

Every message is read back from its encoding.  Bytes of a peer make `decode` panic if they hold a
sequence of words that ends within a scalar, and `decode_lz4` if the frame cannot be read.
-/

namespace NexusVm.Network

open Nova

section Scalars

variable {q : ℕ}

/-- The `i`-th group of four words. -/
def group (v : List UInt64) (i : ℕ) : ℕ :=
  bigInt (v.getD (4 * i) 0) (v.getD (4 * i + 1) 0) (v.getD (4 * i + 2) 0) (v.getD (4 * i + 3) 0)

theorem group_succ (a b c d : UInt64) (v : List UInt64) (i : ℕ) :
    group (a :: b :: c :: d :: v) (i + 1) = group v i := by
  have h : ∀ j, (a :: b :: c :: d :: v).getD (4 + j) 0 = v.getD j 0 := by
    intro j
    rw [show 4 + j = j + 1 + 1 + 1 + 1 by omega]
    rfl
  unfold group
  rw [show 4 * (i + 1) = 4 + 4 * i by ring, add_assoc, add_assoc, add_assoc, h, h, h, h]

theorem bigInt_words {n : ℕ} (hn : n < 2 ^ 256) :
    bigInt (UInt64.ofNat n) (UInt64.ofNat (n / 2 ^ 64)) (UInt64.ofNat (n / 2 ^ 128))
      (UInt64.ofNat (n / 2 ^ 192)) = n := by
  simp only [bigInt, UInt64.toNat_ofNat']
  omega

/-- **Scalars are read back.** -/
theorem deserializeScalars_serializeScalars [NeZero q] (hq : q ≤ 2 ^ 256) (v : List (ZMod q)) :
    deserializeScalars q (serializeScalars v) = .ok v := by
  induction v with
  | nil => rfl
  | cons f v ih =>
      have hval : f.val < q := f.val_lt
      have hbig : fromBigint q (bigInt (UInt64.ofNat f.val) (UInt64.ofNat (f.val / 2 ^ 64))
          (UInt64.ofNat (f.val / 2 ^ 128)) (UInt64.ofNat (f.val / 2 ^ 192))) = some f := by
        rw [bigInt_words (hval.trans_le hq), fromBigint, if_pos hval, ZMod.natCast_zmod_val]
      simp only [serializeScalars, List.flatMap_cons, words, List.cons_append, List.nil_append,
        deserializeScalars, hbig] at ih ⊢
      rw [ih]
      rfl

/-- **A sequence of words panics if it ends within a scalar.** The loop comes to the last chunk
unless an earlier one is out of range. -/
theorem deserializeScalars_ne_panic (v : List UInt64) :
    deserializeScalars q v ≠ .error .panic ↔
      v.length % 4 = 0 ∨ ∃ i < v.length / 4, q ≤ group v i := by
  induction v using deserializeScalars.induct q with
  | case1 a b c d v f hf ih =>
      have hlt : bigInt a b c d < q := by
        by_contra hge
        rw [fromBigint, if_neg hge] at hf
        cases hf
      have hlen : (a :: b :: c :: d :: v).length = v.length + 4 := rfl
      have hstep : deserializeScalars q (a :: b :: c :: d :: v) ≠ .error .panic ↔
          deserializeScalars q v ≠ .error .panic := by
        simp only [deserializeScalars, hf]
        rw [bind_ne_panic_iff]
        exact and_iff_left fun _ _ => ok_ne_panic _
      rw [hstep, ih, hlen, Nat.add_mod_right, Nat.add_div_right _ (by omega)]
      apply or_congr_right
      constructor
      · rintro ⟨i, hi, hge⟩
        exact ⟨i + 1, by omega, by rwa [group_succ]⟩
      · rintro ⟨i, hi, hge⟩
        cases i with
        | zero => exact absurd hge (not_le.mpr hlt)
        | succ i => exact ⟨i, by omega, by rwa [group_succ] at hge⟩
  | case2 a b c d v hf =>
      have hge : q ≤ bigInt a b c d := by
        by_contra hlt
        rw [fromBigint, if_pos (not_le.mp hlt)] at hf
        cases hf
      simp only [deserializeScalars, hf]
      constructor
      · exact fun _ => .inr ⟨0, by simp only [List.length_cons]; omega, hge⟩
      · exact fun _ h => nomatch h
  | case3 => exact ⟨fun _ => .inl rfl, fun _ => ok_ne_panic _⟩
  | case4 v h₁ h₂ =>
      have hshort : v.length < 4 ∧ v ≠ [] := by
        rcases v with _ | ⟨a, _ | ⟨b, _ | ⟨c, _ | ⟨d, v⟩⟩⟩⟩
        · exact absurd rfl h₂
        · simp
        · simp
        · simp
        · exact (h₁ a b c d v rfl).elim
      have hpos := List.length_pos_iff.mpr hshort.2
      rw [deserializeScalars.eq_3 q v h₁ h₂]
      constructor
      · exact fun h => absurd rfl h
      · rintro (h | ⟨i, hi, -⟩) <;> omega

variable {Addr P1 Trace PCDNode : Type} {X : Crates Addr P1 Trace PCDNode}

theorem question_eq_ok {E E' α : Type} {convert : E → E'} {x : Except E α} {a : α} :
    question convert x = .ok a ↔ x = .ok a := by
  cases x <;> simp [question]

theorem unwrap_eq_ok {E E' α : Type} {x : Except E α} {a : α} :
    (unwrap x : Run E' α) = .ok a ↔ x = .ok a := by
  cases x <;> simp [unwrap]

/-- Values of the type are read back from what is written for them. -/
def Ark.RoundTrips {T : Type} (ark : Ark T) : Prop :=
  ∀ t, ∃ v, ark.serializeUncompressed t = some v ∧ ark.deserializeUncompressed v = .ok t

/-- What is asked of the crates: each reads back what it writes. -/
structure Crates.RoundTrips (X : Crates Addr P1 Trace PCDNode) : Prop where
  postcard : ∀ wire, ∃ v, X.postcard.toStdvec wire = .ok v ∧ X.postcard.fromBytes v = .ok wire
  lz4 : ∀ v, ∃ z, X.lz4.frame v = .ok z ∧ ∃ d, X.lz4.newDecoder z = .ok d ∧ X.lz4.copy d = .ok v
  p1 : X.p1.RoundTrips
  trace : X.trace.RoundTrips
  nodes : X.nodes.RoundTrips
  node : X.node.RoundTrips

theorem deserializeArk_serializeArk {T : Type} {ark : Ark T} (h : ark.RoundTrips) (t : T) :
    ∃ v, serializeArk X ark t = .ok v ∧ deserializeArk X ark v = .ok t := by
  obtain ⟨v, hser, hde⟩ := h t
  refine ⟨v, ?_, ?_⟩
  · rw [serializeArk, hser]
  · rw [deserializeArk, hde]
    rfl

/-- A payload of one of the types of the prover. -/
theorem deserialize_map {T : Type} {ark : Ark T} (h : ark.RoundTrips) (t : T)
    {toWire : List UInt8 → Wire Addr} {toMsg : T → NexusMsg q Addr P1 Trace PCDNode}
    (hde : ∀ v, deserialize X (toWire v) = toMsg <$> deserializeArk X ark v) :
    ∃ wire, toWire <$> serializeArk X ark t = .ok wire ∧ deserialize X wire = .ok (toMsg t) := by
  obtain ⟨v, hv, ht⟩ := deserializeArk_serializeArk h t
  refine ⟨toWire v, ?_, ?_⟩
  · rw [hv]
    rfl
  · rw [hde, ht]
    rfl

/-- The visitors read back what they write. -/
theorem deserialize_serialize [NeZero q] (hq : q ≤ 2 ^ 256) (hX : X.RoundTrips)
    (msg : NexusMsg q Addr P1 Trace PCDNode) :
    ∃ wire, serialize X msg = .ok wire ∧ deserialize X wire = .ok msg := by
  cases msg with
  | connect id => exact ⟨.connect id, rfl, rfl⟩
  | reconnect addr => exact ⟨.reconnect addr, rfl, rfl⟩
  | connected => exact ⟨.connected, rfl, rfl⟩
  | ready => exact ⟨.ready, rfl, rfl⟩
  | msmReq scalars =>
      refine ⟨.msmReq (serializeScalars scalars), rfl, ?_⟩
      rw [deserialize, deserializeScalars_serializeScalars hq]
      rfl
  | msmRes point => exact deserialize_map hX.p1 point fun _ => rfl
  | leafReq trace => exact deserialize_map hX.trace trace fun _ => rfl
  | nodeReq nodes => exact deserialize_map hX.nodes nodes fun _ => rfl
  | pcdRes node => exact deserialize_map hX.node node fun _ => rfl

/-- **Messages are read back.** -/
theorem decode_encode [NeZero q] (hq : q ≤ 2 ^ 256) (hX : X.RoundTrips)
    (msg : NexusMsg q Addr P1 Trace PCDNode) :
    ∃ v, encode X msg = .ok v ∧ decode X v = .ok msg := by
  obtain ⟨wire, hser, hde⟩ := deserialize_serialize hq hX msg
  obtain ⟨v, hto, hfrom⟩ := hX.postcard wire
  exact ⟨v, bind_eq_ok.mpr ⟨wire, hser, question_eq_ok.mpr hto⟩,
    bind_eq_ok.mpr ⟨wire, question_eq_ok.mpr hfrom, hde⟩⟩

/-- **Messages are read back from frames.** -/
theorem decodeLz4_encodeLz4 [NeZero q] (hq : q ≤ 2 ^ 256) (hX : X.RoundTrips)
    (msg : NexusMsg q Addr P1 Trace PCDNode) :
    ∃ z, encodeLz4 X msg = .ok z ∧ decodeLz4 X z = .ok msg := by
  obtain ⟨v, hv, hmsg⟩ := decode_encode hq hX msg
  obtain ⟨z, hframe, d, hnew, hcopy⟩ := hX.lz4 v
  exact ⟨z, bind_eq_ok.mpr ⟨v, hv, question_eq_ok.mpr hframe⟩, bind_eq_ok.mpr
    ⟨d, question_eq_ok.mpr hnew, bind_eq_ok.mpr ⟨v, unwrap_eq_ok.mpr hcopy, hmsg⟩⟩⟩

/-! ## Bytes of a peer and the codec -/

theorem map_ne_panic {E α β : Type} {f : α → β} {x : Run E α} :
    f <$> x ≠ .error .panic ↔ x ≠ .error .panic := by
  cases x with
  | ok a => exact ⟨fun _ => ok_ne_panic a, fun _ => ok_ne_panic (f a)⟩
  | error e =>
      have hmap : f <$> (Except.error e : Run E α) = .error e := rfl
      rw [hmap]
      simp

theorem question_ne_panic {E E' α : Type} {convert : E → E'} {x : Except E α} :
    question convert x ≠ .error .panic := by
  cases x <;> simp [question]

/-- **A payload that can be read or refused.** Words end with a whole scalar, or one of the scalars
before the end is out of range; bytes do not make the deserializer of their type panic. -/
def Regular (q : ℕ) (X : Crates Addr P1 Trace PCDNode) : Wire Addr → Prop
  | .msmReq words => words.length % 4 = 0 ∨ ∃ i < words.length / 4, q ≤ group words i
  | .msmRes bytes => X.p1.deserializeUncompressed bytes ≠ .error .panic
  | .leafReq bytes => X.trace.deserializeUncompressed bytes ≠ .error .panic
  | .nodeReq bytes => X.nodes.deserializeUncompressed bytes ≠ .error .panic
  | .pcdRes bytes => X.node.deserializeUncompressed bytes ≠ .error .panic
  | _ => True

theorem deserialize_ne_panic (wire : Wire Addr) :
    (deserialize X wire : Run X.Error (NexusMsg q Addr P1 Trace PCDNode)) ≠ .error .panic ↔
      Regular q X wire := by
  cases wire with
  | connect id => exact iff_of_true (ok_ne_panic _) trivial
  | reconnect addr => exact iff_of_true (ok_ne_panic _) trivial
  | connected => exact iff_of_true (ok_ne_panic _) trivial
  | ready => exact iff_of_true (ok_ne_panic _) trivial
  | msmReq words =>
      rw [deserialize, map_ne_panic, mapError_ne_panic_iff, deserializeScalars_ne_panic, Regular]
  | msmRes bytes => exact map_ne_panic.trans mapError_ne_panic_iff
  | leafReq bytes => exact map_ne_panic.trans mapError_ne_panic_iff
  | nodeReq bytes => exact map_ne_panic.trans mapError_ne_panic_iff
  | pcdRes bytes => exact map_ne_panic.trans mapError_ne_panic_iff

theorem decode_ne_panic (v : List UInt8) :
    (decode X v : Run X.Error (NexusMsg q Addr P1 Trace PCDNode)) ≠ .error .panic ↔
      ∀ wire, X.postcard.fromBytes v = .ok wire → Regular q X wire := by
  rw [decode, bind_ne_panic_iff]
  simp only [question_ne_panic, question_eq_ok, deserialize_ne_panic, ne_eq, not_false_eq_true,
    true_and]

theorem decodeLz4_ne_panic (z : List UInt8) :
    (decodeLz4 X z : Run X.Error (NexusMsg q Addr P1 Trace PCDNode)) ≠ .error .panic ↔
      ∀ d, X.lz4.newDecoder z = .ok d → ∃ v, X.lz4.copy d = .ok v ∧
        ∀ wire, X.postcard.fromBytes v = .ok wire → Regular q X wire := by
  have hunwrap : ∀ d, (unwrap (X.lz4.copy d) : Run X.Error (List UInt8)) ≠ .error .panic ↔
      ∃ v, X.lz4.copy d = .ok v := by
    intro d
    cases X.lz4.copy d <;> simp [unwrap]
  rw [decodeLz4, bind_ne_panic_iff, and_iff_right question_ne_panic]
  simp only [question_eq_ok, bind_ne_panic_iff, unwrap_eq_ok, hunwrap, decode_ne_panic]
  apply forall_congr'
  intro d
  apply imp_congr_right
  intro _
  constructor
  · rintro ⟨⟨v, hv⟩, h⟩
    exact ⟨v, hv, h v hv⟩
  · rintro ⟨v, hv, h⟩
    refine ⟨⟨v, hv⟩, fun v' hv' => ?_⟩
    rw [hv] at hv'
    cases hv'
    exact h

end Scalars

/-- **What the codec does.** Every message is read back; bytes of a peer do not make a decoder panic
exactly if no reader of a frame fails once it was opened, and what is read is regular. -/
theorem codec_exact {q : ℕ} [NeZero q] (hq : q ≤ 2 ^ 256) {Addr P1 Trace PCDNode : Type}
    {X : Crates Addr P1 Trace PCDNode} (hX : X.RoundTrips) :
    (∀ msg : NexusMsg q Addr P1 Trace PCDNode,
      (encode X msg >>= decode X) = .ok msg ∧ (encodeLz4 X msg >>= decodeLz4 X) = .ok msg) ∧
    ∀ v : List UInt8,
      ((decode X v : Run X.Error (NexusMsg q Addr P1 Trace PCDNode)) ≠ .error .panic ↔
        ∀ wire, X.postcard.fromBytes v = .ok wire → Regular q X wire) ∧
      ((decodeLz4 X v : Run X.Error (NexusMsg q Addr P1 Trace PCDNode)) ≠ .error .panic ↔
        ∀ d, X.lz4.newDecoder v = .ok d → ∃ w, X.lz4.copy d = .ok w ∧
          ∀ wire, X.postcard.fromBytes w = .ok wire → Regular q X wire) := by
  constructor
  · intro msg
    constructor
    · exact bind_eq_ok.mpr (decode_encode hq hX msg)
    · exact bind_eq_ok.mpr (decodeLz4_encodeLz4 hq hX msg)
  · exact fun v => ⟨decode_ne_panic v, decodeLz4_ne_panic v⟩

/-- The bytes of a type with one value. -/
def unitArk : Ark Unit where
  serializeUncompressed _ := some []
  deserializeUncompressed _ := .ok ()

/-- The first bytes of a frame of independent blocks. -/
def frameHeader : List UInt8 := [0x04, 0x22, 0x4D, 0x18, 0x60, 0x40, 0x82]

/-- Frames that hold their bytes as they are.  A reader waits for a whole header, and fails if it
is not one. -/
def storedFrames : Lz4 where
  Error := Unit
  Decoder := List UInt8
  frame v := .ok (frameHeader ++ v)
  newDecoder z := .ok z
  copy z :=
    if z.length < 7 then .ok []
    else if z.take 7 = frameHeader then .ok (z.drop 7) else .error ()

/-- Crates with the format of `postcard`. -/
def crates : Crates Postcard.SocketAddrV4 Unit Unit Unit where
  postcard := Postcard.crate
  lz4 := storedFrames
  p1 := unitArk
  trace := unitArk
  nodes :=
    { serializeUncompressed := fun nodes => some (Postcard.writeVarint nodes.length)
      deserializeUncompressed := fun v => match Postcard.readVarint v with
        | some (n, _) => .ok (List.replicate n ((), ()))
        | none => .error (.error ()) }
  node := unitArk

theorem unitArk_roundTrips : unitArk.RoundTrips := fun _ => ⟨[], rfl, rfl⟩

theorem crates_roundTrips : crates.RoundTrips where
  postcard wire := by
    refine ⟨Postcard.writeMsg wire, rfl, ?_⟩
    simp only [crates, Postcard.crate, Postcard.readMsg_writeMsg]
  lz4 v := by
    refine ⟨frameHeader ++ v, rfl, frameHeader ++ v, rfl, ?_⟩
    simp [crates, storedFrames, frameHeader]
  p1 := unitArk_roundTrips
  trace := unitArk_roundTrips
  nodes nodes := by
    refine ⟨_, rfl, ?_⟩
    have hread := Postcard.readVarint_writeVarint nodes.length []
    rw [List.append_nil] at hread
    have hrep : nodes = List.replicate nodes.length ((), ()) :=
      List.eq_replicate_iff.mpr ⟨rfl, fun _ _ => rfl⟩
    simp only [crates, hread, ← hrep]
  node := unitArk_roundTrips

/-- The codec over the scalars of BN254. -/
theorem codec_exact_bn254 :
    (∀ msg : NexusMsg Bn254.fr Postcard.SocketAddrV4 Unit Unit Unit,
      (encode crates msg >>= decode crates) = .ok msg ∧
        (encodeLz4 crates msg >>= decodeLz4 crates) = .ok msg) ∧
    ∀ v : List UInt8,
      ((decode crates v : Run _ (NexusMsg Bn254.fr Postcard.SocketAddrV4 Unit Unit Unit)) ≠
          .error .panic ↔
        ∀ wire, crates.postcard.fromBytes v = .ok wire → Regular Bn254.fr crates wire) ∧
      ((decodeLz4 crates v : Run _ (NexusMsg Bn254.fr Postcard.SocketAddrV4 Unit Unit Unit)) ≠
          .error .panic ↔
        ∀ d, crates.lz4.newDecoder v = .ok d → ∃ w, crates.lz4.copy d = .ok w ∧
          ∀ wire, crates.postcard.fromBytes w = .ok wire → Regular Bn254.fr crates wire) :=
  codec_exact (by unfold Bn254.fr; norm_num) crates_roundTrips

/-- A request of one word, by itself or in a frame, and bytes that are no frame. -/
theorem decode_panics :
    crates.RoundTrips ∧
      (decode crates [4, 1, 7] :
        Run _ (NexusMsg Bn254.fr Postcard.SocketAddrV4 Unit Unit Unit)) = .error .panic ∧
      (decodeLz4 crates (frameHeader ++ [4, 1, 7]) :
        Run _ (NexusMsg Bn254.fr Postcard.SocketAddrV4 Unit Unit Unit)) = .error .panic ∧
      (decodeLz4 crates (List.replicate 19 0) :
        Run _ (NexusMsg Bn254.fr Postcard.SocketAddrV4 Unit Unit Unit)) = .error .panic :=
  ⟨crates_roundTrips, rfl, rfl, rfl⟩

end NexusVm.Network
