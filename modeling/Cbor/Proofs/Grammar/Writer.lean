import Cbor.Proofs.Grammar.Sound
import Cbor.Sequence
/-! # What the writer writes

The writer puts every argument in its shortest head and every string and container at its
definite length, and a float keeps its width and bits. Its bytes are an encoding of the grammar
whose item is the written item with each simple value 20–31 replaced by what it is written as
(`Item.norm`); where the limits hold of that item, reading the bytes gives it back.
-/

namespace Cbor

/-! ### Shortest heads -/

theorem Arg.info_shortest (v : UInt64) : (Arg.shortest v).info = shortestInfo v.toNat := by
  simp only [Arg.info, Arg.shortest]
  unfold argumentWidth shortestInfo
  split_ifs <;> rfl

/-- The writer's head is the grammar's head of the shortest argument. -/
theorem Arg.head_shortest (v : UInt64) (m : Major) :
    (Arg.shortest v).head m = Head.encode m v := by
  rw [Arg.head, Arg.info_shortest]
  rfl

@[simp] theorem Arg.value_shortest (v : UInt64) : (Arg.shortest v).value = v.toNat := rfl

theorem Arg.shortest_shortest (v : UInt64) : (Arg.shortest v).Shortest := rfl

/-! ### The item the writer's bytes stand for -/

namespace Item

/-- A simple value as the writer writes it: 20–23 as the named values that share its byte, 24–31,
which have no well-formed encoding, as `undefined`, and the others as they are. -/
def normSimple (v : UInt8) : Item :=
  if v.toNat = 20 then .bool false
  else if v.toNat = 21 then .bool true
  else if v.toNat = 22 then .null
  else if 23 ≤ v.toNat ∧ v.toNat ≤ 31 then .undefined
  else .simple v

mutual

/-- The item with every simple value replaced by what the writer writes it as. -/
def norm : Item → Item
  | .array xs => .array (normList xs)
  | .map es => .map (normEntries es)
  | .tagged t x => .tagged t (norm x)
  | .simple v => normSimple v
  | x => x

/-- `norm` on each item of a list. -/
def normList : List Item → List Item
  | [] => []
  | x :: xs => norm x :: normList xs

/-- `norm` on each key and value of a list of entries. -/
def normEntries : List (Item × Item) → List (Item × Item)
  | [] => []
  | (k, v) :: es => (norm k, norm v) :: normEntries es

end

mutual

/-- The limits of `cfg` hold of an item inside `depth` open containers and tags: containers and
tags open at most `cfg.maxDepth` deep, each string and container within its length limit, a wide
negative integer only where admitted, and, where refused, no map with a repeated key. Every
length fits in 64 bits, as the sizes of the source's items do. -/
def WithinLimits (cfg : Config) (depth : Nat) : Item → Prop
  | .negative n => cfg.allowWideNegative = true ∨ n.toNat < Nat.pow 2 63
  | .bytes bs => bs.length < 2 ^ 64 ∧ cfg.stringTooLong bs.length = false
  | .text s =>
    (Utf8.encode s.toList).length < 2 ^ 64 ∧
      cfg.stringTooLong (Utf8.encode s.toList).length = false
  | .array xs =>
    depth < cfg.maxDepth ∧ xs.length < 2 ^ 64 ∧ cfg.tooManyItems xs.length = false ∧
      ListWithinLimits cfg (depth + 1) xs
  | .map es =>
    depth < cfg.maxDepth ∧ es.length < 2 ^ 64 ∧ cfg.tooManyItems es.length = false ∧
      EntriesWithinLimits cfg (depth + 1) es ∧
      (cfg.rejectDuplicateKeys = true → Encoding.KeysDistinct es)
  | .tagged _ x => depth < cfg.maxDepth ∧ WithinLimits cfg (depth + 1) x
  | .unsigned _ | .bool _ | .null | .undefined | .simple _ | .float _ => True

/-- The limits hold of every item of a list. -/
def ListWithinLimits (cfg : Config) (depth : Nat) : List Item → Prop
  | [] => True
  | x :: xs => WithinLimits cfg depth x ∧ ListWithinLimits cfg depth xs

/-- The limits hold of every key and value of a list of entries. -/
def EntriesWithinLimits (cfg : Config) (depth : Nat) : List (Item × Item) → Prop
  | [] => True
  | (k, v) :: es =>
    WithinLimits cfg depth k ∧ WithinLimits cfg depth v ∧ EntriesWithinLimits cfg depth es

end

end Item

/-! ### The writer's encodings -/

/-- A simple value of one byte below 20 or two bytes from 32 on is written as it is encoded. -/
theorem encodeSimple_simple {v : UInt8} (h : v.toNat < 20 ∨ 32 ≤ v.toNat) :
    encodeSimple v = (Encoding.simple v h).bytes := by
  have hv := UInt8.toNat_lt v
  have hs : ¬(20 ≤ v.toNat ∧ v.toNat ≤ 23) ∧ ¬(24 ≤ v.toNat ∧ v.toNat ≤ 31) := by omega
  rw [encodeSimple, if_neg hs.1, if_neg hs.2, Head.encode, UInt8.toNat_toUInt64]
  by_cases h20 : v.toNat < 20
  · have hw : argumentWidth v.toNat = 0 := by
      unfold argumentWidth
      rw [if_pos (by omega)]
    have hi : shortestInfo v.toNat = v.toNat := by
      unfold shortestInfo
      rw [if_pos (by omega)]
    simp [Encoding.bytes, h20, hw, hi, toBigEndian, toByte_simple h20]
  · have h8 : v.toNat < Nat.pow 2 8 := by simpa using hv
    have hw : argumentWidth v.toNat = 1 := by
      unfold argumentWidth
      rw [if_neg (by omega), if_pos h8]
    have hi : shortestInfo v.toNat = 24 := by
      unfold shortestInfo
      rw [if_neg (by omega), if_pos h8]
    simp [Encoding.bytes, h20, hw, hi, toBigEndian, Nat.mod_eq_of_lt hv]
    decide

/-- A simple value is written as the encoding of what the writer writes it as. -/
theorem encodeSimple_encoding (v : UInt8) :
    ∃ e : Encoding, e.bytes = encodeSimple v ∧ e.item = Item.normSimple v ∧
      ∀ cfg depth, e.Admitted cfg depth := by
  have hv := UInt8.toNat_lt v
  by_cases h20 : v.toNat < 20
  · refine ⟨.simple v (.inl h20), (encodeSimple_simple _).symm, ?_, fun _ _ => trivial⟩
    rw [Item.normSimple, if_neg (by omega), if_neg (by omega), if_neg (by omega),
      if_neg (by omega)]
    rfl
  by_cases h31 : v.toNat ≤ 31
  · obtain h | h | h | h | h :
        v.toNat = 20 ∨ v.toNat = 21 ∨ v.toNat = 22 ∨ v.toNat = 23 ∨ 24 ≤ v.toNat := by omega
    · obtain rfl : v = 20 := UInt8.toNat_inj.1 h
      exact ⟨.bool false, by decide, rfl, fun _ _ => trivial⟩
    · obtain rfl : v = 21 := UInt8.toNat_inj.1 h
      exact ⟨.bool true, by decide, rfl, fun _ _ => trivial⟩
    · obtain rfl : v = 22 := UInt8.toNat_inj.1 h
      exact ⟨.null, by decide, rfl, fun _ _ => trivial⟩
    · obtain rfl : v = 23 := UInt8.toNat_inj.1 h
      exact ⟨.undefined, by decide, rfl, fun _ _ => trivial⟩
    · refine ⟨.undefined, ?_, ?_, fun _ _ => trivial⟩
      · rw [encodeSimple, if_neg (by omega), if_pos ⟨h, h31⟩]
        rfl
      · rw [Item.normSimple, if_neg (by omega), if_neg (by omega), if_neg (by omega),
          if_pos ⟨by omega, h31⟩]
        rfl
  · refine ⟨.simple v (.inr (by omega)), (encodeSimple_simple _).symm, ?_, fun _ _ => trivial⟩
    rw [Item.normSimple, if_neg (by omega), if_neg (by omega), if_neg (by omega),
      if_neg (by omega)]
    rfl

namespace Item

theorem length_normList (xs : List Item) : (normList xs).length = xs.length := by
  induction xs with
  | nil => rfl
  | cons x xs ih => simp [normList, ih]

theorem length_normEntries (es : List (Item × Item)) : (normEntries es).length = es.length := by
  induction es with
  | nil => rfl
  | cons e es ih =>
    obtain ⟨k, v⟩ := e
    simp [normEntries, ih]

theorem normList_eq (xs : List Item) : normList xs = xs.map norm := by
  induction xs with
  | nil => rfl
  | cons x xs ih => simp [normList, ih]

theorem listWithinLimits_of {cfg : Config} {depth : Nat} {xs : List Item}
    (h : ∀ x ∈ xs, x.norm.WithinLimits cfg depth) : ListWithinLimits cfg depth (normList xs) := by
  induction xs with
  | nil => trivial
  | cons x xs ih =>
    exact ⟨h x (by simp), ih fun x' hx' => h x' (by simp [hx'])⟩

end Item

section Writer

variable (cfg : Config)

mutual

/-- The writer's bytes of an item are an encoding of its normal form, admitted where the limits
hold of that form. -/
theorem Item.encode_encoding : ∀ (t : Item) (depth : Nat), t.norm.WithinLimits cfg depth →
    ∃ e : Encoding, e.bytes = t.encode ∧ e.item = t.norm ∧ e.Admitted cfg depth
  | .unsigned n, _, _ =>
    ⟨.unsigned (Arg.shortest n), Arg.head_shortest n _, by simp [Encoding.item, Item.norm],
      trivial⟩
  | .negative n, _, h =>
    ⟨.negative (Arg.shortest n), Arg.head_shortest n _, by simp [Encoding.item, Item.norm], h⟩
  | .bytes bs, _, h => by
    obtain ⟨hlen, hlim⟩ := h
    have hv : (Arg.shortest bs.length.toUInt64).value = bs.length := by
      simpa using hlen
    refine ⟨.byteString (.definite ⟨Arg.shortest bs.length.toUInt64, bs, hv.symm⟩), ?_, rfl, ?_⟩
    · simp [Encoding.bytes, Str.bytes, Piece.bytes, Arg.head_shortest, Item.encode]
    · show cfg.stringTooLong (Arg.shortest bs.length.toUInt64).value = false
      rw [hv]
      exact hlim
  | .text s, _, h => by
    obtain ⟨hlen, hlim⟩ := h
    have hv : (Arg.shortest (Utf8.encode s.toList).length.toUInt64).value =
        (Utf8.encode s.toList).length := by
      simpa using hlen
    refine ⟨.textString (.definite ⟨Arg.shortest (Utf8.encode s.toList).length.toUInt64,
      s.toList, hv.symm⟩), ?_, by simp [Encoding.item, Str.content, Item.norm], ?_⟩
    · simp [Encoding.bytes, Str.bytes, Piece.bytes, Arg.head_shortest, Item.encode]
    · show cfg.stringTooLong (Arg.shortest (Utf8.encode s.toList).length.toUInt64).value = false
      rw [hv]
      exact hlim
  | .array xs, depth, h => by
    obtain ⟨hd, hlen, hlim, hxs⟩ := h
    obtain ⟨es, hb, hi, ha, hl⟩ := Item.encodeList_encodings xs (depth + 1) hxs
    rw [Item.length_normList] at hlen hlim
    have hv : (Arg.shortest xs.length.toUInt64).value = es.length := by
      simpa [hl] using hlen
    refine ⟨.array (some (Arg.shortest xs.length.toUInt64)) es, ?_, ?_, hd,
      ⟨by rw [hl]; exact hlim, hv⟩, ha⟩
    · simp [Encoding.bytes, openHead, closing, Item.encode, Arg.head_shortest, hb]
    · simp [Encoding.item, Item.norm, hi]
  | .map es, depth, h => by
    obtain ⟨hd, hlen, hlim, hes, hdist⟩ := h
    obtain ⟨ens, hb, hi, ha, hl⟩ := Item.encodeEntries_encodings es (depth + 1) hes
    rw [Item.length_normEntries] at hlen hlim
    have hv : (Arg.shortest es.length.toUInt64).value = ens.length := by
      simpa [hl] using hlen
    refine ⟨.map (some (Arg.shortest es.length.toUInt64)) ens, ?_, ?_, hd,
      ⟨by rw [hl]; exact hlim, hv⟩, ha, by rw [hi]; exact hdist⟩
    · simp [Encoding.bytes, openHead, closing, Item.encode, Arg.head_shortest, hb]
    · simp [Encoding.item, Item.norm, hi]
  | .tagged t x, depth, h => by
    obtain ⟨hd, hx⟩ := h
    obtain ⟨e, hb, hi, ha⟩ := Item.encode_encoding x (depth + 1) hx
    exact ⟨.tagged (Arg.shortest t) e, by simp [Encoding.bytes, Item.encode, Arg.head_shortest, hb],
      by simp [Encoding.item, Item.norm, hi], hd, ha⟩
  | .bool b, _, _ => ⟨.bool b, rfl, rfl, trivial⟩
  | .null, _, _ => ⟨.null, rfl, rfl, trivial⟩
  | .undefined, _, _ => ⟨.undefined, rfl, rfl, trivial⟩
  | .simple v, depth, _ => by
    obtain ⟨e, hb, hi, ha⟩ := encodeSimple_encoding v
    exact ⟨e, hb, hi, ha cfg depth⟩
  | .float x, _, _ => ⟨.float x, rfl, rfl, trivial⟩

/-- The writer's bytes of a list of items are the encodings of their normal forms. -/
theorem Item.encodeList_encodings : ∀ (xs : List Item) (depth : Nat),
    Item.ListWithinLimits cfg depth (Item.normList xs) →
    ∃ es : List Encoding, Encoding.listBytes es = Item.encodeList xs ∧
      Encoding.items es = Item.normList xs ∧ Encoding.AllAdmitted cfg depth es ∧
      es.length = xs.length
  | [], _, _ => ⟨[], rfl, rfl, trivial, rfl⟩
  | x :: xs, depth, h => by
    obtain ⟨e, hb, hi, ha⟩ := Item.encode_encoding x depth h.1
    obtain ⟨es, hbs, his, has, hl⟩ := Item.encodeList_encodings xs depth h.2
    exact ⟨e :: es, by simp [Encoding.listBytes, Item.encodeList, hb, hbs],
      by simp [Encoding.items, Item.normList, hi, his], ⟨ha, has⟩, by simp [hl]⟩

/-- The writer's bytes of map entries are the encodings of their normal forms. -/
theorem Item.encodeEntries_encodings : ∀ (es : List (Item × Item)) (depth : Nat),
    Item.EntriesWithinLimits cfg depth (Item.normEntries es) →
    ∃ ens : List (Encoding × Encoding), Encoding.entriesBytes ens = Item.encodeEntries es ∧
      Encoding.entryItems ens = Item.normEntries es ∧ Encoding.EntriesAdmitted cfg depth ens ∧
      ens.length = es.length
  | [], _, _ => ⟨[], rfl, rfl, trivial, rfl⟩
  | (k, v) :: es, depth, h => by
    obtain ⟨ek, hbk, hik, hak⟩ := Item.encode_encoding k depth h.1
    obtain ⟨ev, hbv, hiv, hav⟩ := Item.encode_encoding v depth h.2.1
    obtain ⟨ens, hbs, his, has, hl⟩ := Item.encodeEntries_encodings es depth h.2.2
    exact ⟨(ek, ev) :: ens, by simp [Encoding.entriesBytes, Item.encodeEntries, hbk, hbv, hbs],
      by simp [Encoding.entryItems, Item.normEntries, hik, hiv, his], ⟨hak, hav, has⟩,
      by simp [hl]⟩

end

end Writer

/-- Admitted encodings one after another are read as a sequence, item by item, to the end. -/
theorem Cursor.readSequence_listBytes (cfg : Config) :
    ∀ (es : List Encoding) (o : Nat) (acc : Array Item), (∀ e ∈ es, e.Admitted cfg 0) →
      (Cursor.mk o (Encoding.listBytes es)).readSequence cfg acc =
        .ok (acc.toList ++ Encoding.items es)
  | [], o, acc, _ => by
    rw [Cursor.readSequence.eq_def]
    simp [Encoding.listBytes, Encoding.items]
  | e :: es, o, acc, h => by
    obtain ⟨b, r, hb, hne⟩ := Encoding.bytes_eq_cons e
    obtain ⟨d, hr, hd⟩ := Encoding.readsBack cfg e 0 (h e (by simp)) o (Encoding.listBytes es)
    rw [Cursor.readSequence.eq_def]
    split
    · next hnil =>
      simp [Encoding.listBytes, hb] at hnil
    · next b' tail hcons =>
      -- the first byte is the encoding's, which is no Break
      have hb' : b' = b := by
        simp only [Encoding.listBytes, hb, List.cons_append, List.cons.injEq] at hcons
        exact hcons.1.symm
      rw [if_neg (hb' ▸ hne)]
      simp only [Encoding.listBytes]
      rw [hr]
      dsimp only
      rw [hd, Cursor.readSequence_listBytes cfg es _ _ (fun e' he' => h e' (by simp [he']))]
      simp [Encoding.items]

/-- Reading the writer's bytes of an item gives back its normal form and takes all the bytes,
wherever the limits hold of that form; the bytes of a sequence of such items are read back as
the sequence of their normal forms. -/
theorem Item.decode_encode_eq_norm (cfg : Config) :
    (∀ t : Item, t.norm.WithinLimits cfg 0 →
      Item.decode cfg t.encode = .ok (t.norm, t.encode.length)) ∧
    (∀ ts : List Item, (∀ t ∈ ts, t.norm.WithinLimits cfg 0) →
      Item.decodeAll cfg (Item.encodeList ts) = .ok (ts.map Item.norm)) := by
  constructor
  · intro t ht
    obtain ⟨e, hb, hi, ha⟩ := Item.encode_encoding cfg t 0 ht
    have hdec := Encoding.decode_bytes_append cfg e ha []
    rw [List.append_nil, hb, hi] at hdec
    exact hdec
  · intro ts hts
    obtain ⟨es, hb, hi, ha, -⟩ := Item.encodeList_encodings cfg ts 0 (Item.listWithinLimits_of hts)
    rw [← hb, Item.decodeAll, Cursor.start, Cursor.readSequence_listBytes cfg es 0 #[]
      (Encoding.allAdmitted_iff.1 ha), hi]
    simp [Item.normList_eq]

/-- The array `[true, 500]`, its first entry given as the simple value 21, is read back under the
default limits, alone and as a sequence of its two entries. -/
theorem Item.decode_encode_simple_true :
    (Item.array [.simple 21, .unsigned 500]).norm.WithinLimits {} 0 ∧
      Item.decode {} (Item.array [.simple 21, .unsigned 500]).encode =
        .ok (.array [.bool true, .unsigned 500], 5) ∧
      Item.decodeAll {} (Item.encodeList [.simple 21, .unsigned 500]) =
        .ok [.bool true, .unsigned 500] := by
  have h : (Item.array [.simple 21, .unsigned 500]).norm.WithinLimits {} 0 := by
    simp [Item.norm, Item.normList, Item.normSimple, Item.WithinLimits, Item.ListWithinLimits]
  have hs : ∀ t ∈ [Item.simple 21, .unsigned 500], t.norm.WithinLimits {} 0 := by
    simp [Item.norm, Item.normSimple, Item.WithinLimits]
  exact ⟨h, (Item.decode_encode_eq_norm {}).1 _ h, (Item.decode_encode_eq_norm {}).2 _ hs⟩

end Cbor
