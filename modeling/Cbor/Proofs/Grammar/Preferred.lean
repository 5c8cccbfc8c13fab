import Cbor.Proofs.Grammar.Writer
/-! # Preferred serializations

The writer puts every item in its preferred serialization (RFC 8949 §4.2.1): each argument in the
shortest head that holds it, and each string and container at its definite length. These are
the only encodings it reproduces: an item read from the input and written again gives back the
bytes it was read from exactly when they are preferred (`Item.encode_eq_take_iff_preferred`).

One direction writes a preferred encoding's item and finds its bytes (`Encoding.encode_item`).
The other compares the writer's bytes with an encoding, head by head: two heads that agree as
bytes have the same major type and the same argument in the same form
(`Arg.head_append_inj`), so where the writer's bytes agree with an encoding, each of its heads
is the writer's shortest one and none is indefinite (`Encoding.preferred_of_encode_append`). A
float keeps its width and a simple value its one or two bytes, so neither makes a difference.
-/

namespace Cbor

/-! ### Heads that agree as bytes -/

namespace Arg

theorem ext_width_value {a a' : Arg} (hw : a.width = a'.width) (hv : a.value = a'.value) :
    a = a' := by
  cases a
  cases a'
  simp only at hw hv
  subst hw hv
  rfl

/-- The additional information of a head tells its form. -/
theorem width_eq_of_info {a a' : Arg} (h : a.info = a'.info) : a.width = a'.width := by
  have h' := congrArg Argument.ofInfo? h
  rw [a.ofInfo?_info, a'.ofInfo?_info] at h'
  by_cases hw : a.width = 0 <;> by_cases hw' : a'.width = 0
  · rw [hw, hw']
  · simp [hw, hw'] at h'
  · simp [hw, hw'] at h'
  · simpa [hw, hw'] using h'

/-- A head is its additional information and the argument bytes after it. -/
theorem eq_of_info_extra {a a' : Arg} (hi : a.info = a'.info) (hx : a.extra = a'.extra) :
    a = a' := by
  have hw := width_eq_of_info hi
  refine ext_width_value hw ?_
  by_cases h0 : a.width = 0
  · have h0' : a'.width = 0 := hw ▸ h0
    simpa [info, h0, h0'] using hi
  · have hlt := a.value_lt_pow h0
    have hlt' := a'.value_lt_pow (hw ▸ h0)
    have hv := congrArg bigEndian hx
    rwa [bigEndian_extra, bigEndian_extra, Nat.mod_eq_of_lt hlt, Nat.mod_eq_of_lt hlt'] at hv

/-- Two heads in front of the rest of the input that agree as bytes are one head: the same major
type and the same argument in the same form. -/
theorem head_append_inj {a a' : Arg} {m m' : Major} {r r' : List UInt8}
    (h : a.head m ++ r = a'.head m' ++ r') : m = m' ∧ a = a' ∧ r = r' := by
  simp only [head, List.cons_append, List.cons.injEq] at h
  obtain ⟨hb, hx⟩ := h
  have hh := congrArg Head.ofByte hb
  rw [ofByte_head, ofByte_head, Head.mk.injEq] at hh
  obtain ⟨rfl, hi⟩ := hh
  have hl : a.extra.length = a'.extra.length := by
    rw [length_extra, length_extra, width_eq_of_info hi]
  obtain ⟨hx, hr⟩ := List.append_inj hx hl
  exact ⟨rfl, eq_of_info_extra hi hx, hr⟩

/-- An argument has its shortest head exactly when it is the writer's argument of its value. -/
theorem shortest_eq_iff {a : Arg} : shortest a.value.toUInt64 = a ↔ a.Shortest := by
  have hv : a.value.toUInt64.toNat = a.value := by simpa using a.value_lt
  constructor
  · intro h
    rw [Shortest, ← h]
    simp only [shortest, hv]
  · intro h
    exact ext_width_value (by rw [h]; simp only [shortest, hv]) (by simp only [value_shortest, hv])

/-- The writer's head of the value of a shortest argument is that argument's head. -/
theorem encode_of_shortest {a : Arg} (h : a.Shortest) (m : Major) :
    Head.encode m a.value.toUInt64 = a.head m := by
  rw [← head_shortest, shortest_eq_iff.2 h]

end Arg

/-- Where the writer's head of `v` agrees as bytes with a head, that head is of the same major
type, has the argument `v` and is the shortest. -/
theorem Head.encode_append_eq {m m' : Major} {v : UInt64} {a : Arg} {r r' : List UInt8}
    (h : Head.encode m v ++ r = a.head m' ++ r') :
    m = m' ∧ a.value = v.toNat ∧ a.Shortest ∧ r = r' := by
  rw [← Arg.head_shortest] at h
  obtain ⟨rfl, rfl, rfl⟩ := Arg.head_append_inj h
  exact ⟨rfl, rfl, Arg.shortest_shortest v, rfl⟩

/-- The writer never writes an indefinite length. -/
theorem Head.encode_append_ne_indefinite (m m' : Major) (v : UInt64) (r r' : List UInt8) :
    Head.encode m v ++ r ≠ indefiniteByte m' :: r' := by
  intro h
  rw [← Arg.head_shortest, Arg.head, List.cons_append, List.cons.injEq] at h
  have hh := congrArg Head.ofByte h.1
  rw [Arg.ofByte_head, indefiniteByte, Head.ofByte_toByte _ (by simp), Head.mk.injEq] at hh
  have := (Arg.shortest v).info_lt
  omega

/-! ### A preferred encoding is written back as it is -/

section WriteBack

variable (cfg : Config)

mutual

/-- The writer writes the item of an admitted preferred encoding as that encoding's bytes. -/
theorem Encoding.encode_item : ∀ (e : Encoding) (depth : Nat), e.Admitted cfg depth →
    e.Preferred → e.item.encode = e.bytes
  | .unsigned a, _, _, hp => Arg.encode_of_shortest hp _
  | .negative a, _, _, hp => Arg.encode_of_shortest hp _
  | .byteString (.definite p), _, _, hp => by
    have hl : p.content.length = p.len.value := p.length_eq
    simp [Encoding.item, Encoding.bytes, Str.content, Str.bytes, Piece.bytes, Item.encode, hl,
      Arg.encode_of_shortest hp]
  | .textString (.definite p), _, _, hp => by
    have hl : (Utf8.encode p.content).length = p.len.value := p.length_eq
    simp [Encoding.item, Encoding.bytes, Str.content, Str.bytes, Piece.bytes, Item.encode, hl,
      Arg.encode_of_shortest hp]
  | .byteString (.chunked _), _, _, hp | .textString (.chunked _), _, _, hp => hp.elim
  | .array (some a) xs, depth, ha, hp => by
    obtain ⟨-, ⟨-, hn⟩, hxs⟩ := ha
    have hl : (Encoding.items xs).length = a.value := by simp [Encoding.items_eq, hn]
    simp only [Encoding.item, Encoding.bytes, Item.encode, openHead, closing, List.append_nil, hl,
      Arg.encode_of_shortest hp.1, Encoding.encodeList_items xs (depth + 1) hxs hp.2]
  | .map (some a) es, depth, ha, hp => by
    obtain ⟨-, ⟨-, hn⟩, hes, -⟩ := ha
    have hl : (Encoding.entryItems es).length = a.value := by simp [Encoding.entryItems_eq, hn]
    simp only [Encoding.item, Encoding.bytes, Item.encode, openHead, closing, List.append_nil, hl,
      Arg.encode_of_shortest hp.1, Encoding.encodeEntries_entryItems es (depth + 1) hes hp.2]
  | .array none _, _, _, hp | .map none _, _, _, hp => hp.1.elim
  | .tagged t x, depth, ha, hp => by
    simp only [Encoding.item, Encoding.bytes, Item.encode, Arg.encode_of_shortest hp.1,
      Encoding.encode_item x (depth + 1) ha.2 hp.2]
  | .simple v h, _, _, _ => encodeSimple_simple h
  | .bool _, _, _, _ | .null, _, _, _ | .undefined, _, _, _ | .float _, _, _, _ => rfl

/-- The writer writes the items of admitted preferred encodings as their bytes. -/
theorem Encoding.encodeList_items : ∀ (xs : List Encoding) (depth : Nat),
    Encoding.AllAdmitted cfg depth xs → Encoding.AllPreferred xs →
    Item.encodeList (Encoding.items xs) = Encoding.listBytes xs
  | [], _, _, _ => rfl
  | x :: xs, depth, ha, hp => by
    simp only [Encoding.items, Item.encodeList, Encoding.listBytes,
      Encoding.encode_item x depth ha.1 hp.1, Encoding.encodeList_items xs depth ha.2 hp.2]

/-- The writer writes the entries of admitted preferred encodings as their bytes. -/
theorem Encoding.encodeEntries_entryItems : ∀ (es : List (Encoding × Encoding)) (depth : Nat),
    Encoding.EntriesAdmitted cfg depth es → Encoding.EntriesPreferred es →
    Item.encodeEntries (Encoding.entryItems es) = Encoding.entriesBytes es
  | [], _, _, _ => rfl
  | (k, v) :: es, depth, ha, hp => by
    simp only [Encoding.entryItems, Item.encodeEntries, Encoding.entriesBytes,
      Encoding.encode_item k depth ha.1 hp.1, Encoding.encode_item v depth ha.2.1 hp.2.1,
      Encoding.encodeEntries_entryItems es depth ha.2.2 hp.2.2]

end

end WriteBack

/-! ### Bytes the writer agrees with are preferred -/

mutual

/-- Where the writer's bytes of an encoding's item agree with the encoding in front of the rest
of the input, the encoding is preferred and the rests are the same. -/
theorem Encoding.preferred_of_encode_append : ∀ (e : Encoding) (r r' : List UInt8),
    e.item.encode ++ r = e.bytes ++ r' → e.Preferred ∧ r = r'
  | .unsigned a, r, r', h | .negative a, r, r', h => by
    obtain ⟨-, -, hs, hr⟩ := Head.encode_append_eq h
    exact ⟨hs, hr⟩
  | .byteString (.definite p), r, r', h => by
    simp only [Encoding.item, Encoding.bytes, Item.encode, Str.content, Str.bytes, Piece.bytes,
      id, List.append_assoc] at h
    obtain ⟨-, -, hs, hr⟩ := Head.encode_append_eq h
    exact ⟨hs, List.append_cancel_left hr⟩
  | .textString (.definite p), r, r', h => by
    simp only [Encoding.item, Encoding.bytes, Item.encode, Str.content, Str.bytes, Piece.bytes,
      String.toList_ofList, List.append_assoc] at h
    obtain ⟨-, -, hs, hr⟩ := Head.encode_append_eq h
    exact ⟨hs, List.append_cancel_left hr⟩
  | .byteString (.chunked _), _, _, h | .textString (.chunked _), _, _, h => by
    simp only [Encoding.item, Encoding.bytes, Item.encode, Str.bytes, List.append_assoc,
      List.cons_append] at h
    exact absurd h (Head.encode_append_ne_indefinite _ _ _ _ _)
  | .array (some a) xs, r, r', h => by
    simp only [Encoding.item, Encoding.bytes, Item.encode, openHead, closing, List.append_nil,
      List.append_assoc] at h
    obtain ⟨-, -, hs, hr⟩ := Head.encode_append_eq h
    obtain ⟨hxs, hr⟩ := Encoding.allPreferred_of_encodeList_append xs r r' hr
    exact ⟨⟨hs, hxs⟩, hr⟩
  | .map (some a) es, r, r', h => by
    simp only [Encoding.item, Encoding.bytes, Item.encode, openHead, closing, List.append_nil,
      List.append_assoc] at h
    obtain ⟨-, -, hs, hr⟩ := Head.encode_append_eq h
    obtain ⟨hes, hr⟩ := Encoding.entriesPreferred_of_encodeEntries_append es r r' hr
    exact ⟨⟨hs, hes⟩, hr⟩
  | .array none _, _, _, h | .map none _, _, _, h => by
    simp only [Encoding.item, Encoding.bytes, Item.encode, openHead, List.append_assoc,
      List.cons_append] at h
    exact absurd h (Head.encode_append_ne_indefinite _ _ _ _ _)
  | .tagged t x, r, r', h => by
    simp only [Encoding.item, Encoding.bytes, Item.encode, List.append_assoc] at h
    obtain ⟨-, -, hs, hr⟩ := Head.encode_append_eq h
    obtain ⟨hx, hr⟩ := Encoding.preferred_of_encode_append x r r' hr
    exact ⟨⟨hs, hx⟩, hr⟩
  | .simple v hv, r, r', h => by
    simp only [Encoding.item, Item.encode, encodeSimple_simple hv] at h
    exact ⟨trivial, List.append_cancel_left h⟩
  | .bool _, _, _, h | .null, _, _, h | .undefined, _, _, h | .float _, _, _, h =>
    ⟨trivial, List.append_cancel_left h⟩

/-- Where the writer's bytes of the items of encodings agree with the encodings, each is
preferred. -/
theorem Encoding.allPreferred_of_encodeList_append : ∀ (xs : List Encoding) (r r' : List UInt8),
    Item.encodeList (Encoding.items xs) ++ r = Encoding.listBytes xs ++ r' →
    Encoding.AllPreferred xs ∧ r = r'
  | [], _, _, h => ⟨trivial, h⟩
  | x :: xs, r, r', h => by
    simp only [Encoding.items, Item.encodeList, Encoding.listBytes, List.append_assoc] at h
    obtain ⟨hx, hr⟩ := Encoding.preferred_of_encode_append x _ _ h
    obtain ⟨hxs, hr⟩ := Encoding.allPreferred_of_encodeList_append xs r r' hr
    exact ⟨⟨hx, hxs⟩, hr⟩

/-- Where the writer's bytes of the entries of encodings agree with the encodings, each key and
value is preferred. -/
theorem Encoding.entriesPreferred_of_encodeEntries_append :
    ∀ (es : List (Encoding × Encoding)) (r r' : List UInt8),
    Item.encodeEntries (Encoding.entryItems es) ++ r = Encoding.entriesBytes es ++ r' →
    Encoding.EntriesPreferred es ∧ r = r'
  | [], _, _, h => ⟨trivial, h⟩
  | (k, v) :: es, r, r', h => by
    simp only [Encoding.entryItems, Item.encodeEntries, Encoding.entriesBytes,
      List.append_assoc] at h
    obtain ⟨hk, hr⟩ := Encoding.preferred_of_encode_append k _ _ h
    obtain ⟨hv, hr⟩ := Encoding.preferred_of_encode_append v _ _ hr
    obtain ⟨hes, hr⟩ := Encoding.entriesPreferred_of_encodeEntries_append es r r' hr
    exact ⟨⟨hk, hv, hes⟩, hr⟩

end

/-! ### Writing back what was read -/

/-- Writing an item read from the input gives back the bytes it was read from exactly when they
are a preferred serialization: every argument of an integer, a tag, a string length or a
container count in the shortest head that holds it, and no indefinite length. A float of any
width and a simple value in one or two bytes are preferred as they are. -/
theorem Item.encode_eq_take_iff_preferred (cfg : Config) (d : List UInt8) (t : Item) (n : Nat)
    (h : Item.decode cfg d = .ok (t, n)) :
    t.encode = d.take n ↔ ∀ e : Encoding, e.bytes = d.take n → e.Admitted cfg 0 → e.Preferred := by
  obtain ⟨e₀, hb₀, -, hi₀, ha₀⟩ := (Item.decode_ok_iff cfg d t n).1 h
  constructor
  · intro henc e hb ha
    -- the reader reads `e` at the start of the input, so `e` is an encoding of `t`
    have hd := Encoding.decode_bytes_append cfg e ha (d.drop n)
    rw [hb, List.take_append_drop, h] at hd
    obtain ⟨rfl, -⟩ := Prod.mk.inj (Except.ok.inj hd)
    exact (Encoding.preferred_of_encode_append e [] [] (by rw [henc, hb])).1
  · intro hpref
    rw [← hi₀, Encoding.encode_item cfg e₀ 0 ha₀ (hpref e₀ hb₀ ha₀), hb₀]

/-- The integer 5 with its argument in the byte after the head is read, but is not preferred. -/
theorem Item.five_in_two_bytes_not_preferred :
    Item.decode {} [0x18, 0x05] = .ok (.unsigned 5, 2) ∧
      ∃ e : Encoding, e.bytes = [0x18, 0x05] ∧ e.Admitted {} 0 ∧ ¬e.Preferred := by
  have h : Item.decode {} [0x18, 0x05] = .ok (.unsigned 5, 2) := by cbv
  have hne : (Item.unsigned 5).encode ≠ [0x18, 0x05].take 2 := by decide
  have hnot := mt (Item.encode_eq_take_iff_preferred {} _ _ _ h).2 hne
  push Not at hnot
  exact ⟨h, by simpa using hnot⟩

end Cbor
