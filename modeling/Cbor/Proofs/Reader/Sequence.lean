import Cbor.Proofs.Reader.Locality
import Cbor.Sequence
/-! # A sequence is items decoded one after another

Reading an item at offset `p` of an input is decoding the bytes from `p` on, with the offset of a
fault moved by `p` (`Cursor.readItem_at`). So a sequence is read by decoding one item after
another, each from where the one before it ended: `Cursor.readSequence` takes one such step per
item (`Cursor.readSequence_item`, `Cursor.readSequence_fault`, `Cursor.readSequence_break`), and
the items of a sequence are those of a split of its bytes into whole encodings of one item each,
the split ending, on a failure, where the failing read starts. `SequenceReader` takes the same
steps one call at a time, and this holds of every state it reaches from the start of an input.
-/

namespace Cbor

/-- The bytes `d` decode to `t` and the decode takes all of them. -/
def Item.DecodesExactly (cfg : Config) (d : List UInt8) (t : Item) : Prop :=
  Item.decode cfg d = .ok (t, d.length)

/-- How reading an item from `rest`, at offset `p` of a sequence, fails with `e`: a Break where
the item should start is trailing data, and otherwise it is the decode's fault with its offset
moved by `p`. At the end of the input nothing is read, so nothing fails. -/
def Item.FailsAt (cfg : Config) (p : Nat) : List UInt8 → Error → Prop
  | [], _ => False
  | b :: rest, e =>
    if b = breakByte then e = ⟨.trailingGarbage, p⟩
    else ∃ e', Item.decode cfg (b :: rest) = .error e' ∧ e = ⟨e'.kind, e'.offset + p⟩

theorem Cursor.Shifted.eq {p : Nat} {s : List UInt8} {c c' : Cursor} (h : c.Shifted p s c') :
    c' = ⟨c.offset + p, c.rest ++ s⟩ := by
  obtain ⟨o', r'⟩ := c'
  obtain ⟨rfl, rfl⟩ := h
  rfl

/-! ### Decoding at an offset -/

/-- Reading an item at offset `p` is decoding the bytes from there on: the same item, with the
cursor after it `n` bytes on, or the same fault with its offset moved by `p`. -/
theorem Cursor.readItem_at (cfg : Config) (p : Nat) (rest : List UInt8) :
    (∀ t n, Item.decode cfg rest = .ok (t, n) →
      ∃ c, (Cursor.mk p rest).readItem cfg 0 = .ok (t, c) ∧ c.1 = ⟨p + n, rest.drop n⟩) ∧
    (∀ e, Item.decode cfg rest = .error e →
      ∃ st, (Cursor.mk p rest).readItem cfg 0 = .error st ∧ st.error = ⟨e.kind, e.offset + p⟩) := by
  -- the bytes from `p` on are those of the whole of `rest`, moved on by `p`, with nothing after
  have hm := Cursor.readItem_moves cfg rest.length p [] (Cursor.start rest) ⟨p, rest⟩ 0
    ⟨(Nat.zero_add p).symm, (List.append_nil rest).symm⟩ (by simp [Cursor.start])
  unfold Item.decode
  constructor
  · intro t n h
    split at h
    · next x c hx =>
      simp only [Except.ok.injEq, Prod.mk.injEq] at h
      obtain ⟨rfl, rfl⟩ := h
      obtain ⟨-, c', hx', hs⟩ := hm.of_ok hx
      obtain ⟨e, -, -, hrest, hoff⟩ := Cursor.itemSound cfg _ 0 x c hx
      simp only [Cursor.start, Nat.zero_add] at hrest hoff
      -- the cursor after the item holds the bytes after its encoding
      have hd : (e.bytes ++ c.1.rest).drop e.bytes.length = c.1.rest := List.drop_left
      rw [← hrest] at hd
      refine ⟨c', hx', ?_⟩
      rw [hs.eq, List.append_nil, hoff, hd, Nat.add_comm]
    · cases h
  · intro e h
    split at h
    · cases h
    · next st hst =>
      cases h
      exact ⟨st.shift p, (hm.of_error hst).2 (Or.inr rfl), rfl⟩

@[simp] theorem Item.decode_nil (cfg : Config) : Item.decode cfg [] = .error ⟨.unexpectedEnd, 0⟩ := by
  unfold Item.decode
  rw [Cursor.readItem_nil rfl]
  rfl

theorem Item.decode_break (cfg : Config) (rest : List UInt8) :
    Item.decode cfg (breakByte :: rest) = .error ⟨.unexpectedBreak, 0⟩ := by
  unfold Item.decode Cursor.start
  rw [Cursor.readItem.eq_def]
  dsimp only
  rw [if_pos rfl]
  rfl

/-- A decode that succeeds takes at least one byte and no more than the input has, and those
bytes alone decode to the same item. -/
theorem Item.decode_ok_take {cfg : Config} {d : List UInt8} {t : Item} {n : Nat}
    (h : Item.decode cfg d = .ok (t, n)) :
    0 < n ∧ n ≤ d.length ∧ Item.DecodesExactly cfg (d.take n) t := by
  have hle := (Item.decode_append_of_ok h []).1
  have hpos : 0 < n := by
    cases d with
    | nil => rw [Item.decode_nil] at h; cases h
    | cons b rest =>
      obtain ⟨c, hc, hc'⟩ := (Cursor.readItem_at cfg 0 (b :: rest)).1 t n h
      have hlt := c.2
      rw [hc'] at hlt
      simp only [List.length_drop, List.length_cons] at hlt ⊢
      omega
  refine ⟨hpos, hle, ?_⟩
  have ht := Item.decode_take_append h []
  rw [List.append_nil] at ht
  rw [Item.DecodesExactly, ht, List.length_take, Nat.min_eq_left hle]

/-- An item's whole encoding starts with a byte other than a Break. -/
theorem Item.DecodesExactly.cons {cfg : Config} {d : List UInt8} {t : Item}
    (h : Item.DecodesExactly cfg d t) : ∃ b rest, d = b :: rest ∧ b ≠ breakByte := by
  cases d with
  | nil =>
    rw [Item.DecodesExactly, Item.decode_nil] at h
    cases h
  | cons b rest =>
    refine ⟨b, rest, rfl, fun hb => ?_⟩
    rw [Item.DecodesExactly, hb, Item.decode_break] at h
    cases h

/-! ### One step of a sequence -/

section Steps

variable {cfg : Config} {p : Nat} {b : UInt8} {rest : List UInt8} {acc : Array Item}

theorem Cursor.readSequence_nil (cfg : Config) (p : Nat) (acc : Array Item) :
    (Cursor.mk p []).readSequence cfg acc = .ok acc.toList := by
  rw [Cursor.readSequence.eq_def]

theorem Cursor.readSequence_break (cfg : Config) (p : Nat) (rest : List UInt8) (acc : Array Item) :
    (Cursor.mk p (breakByte :: rest)).readSequence cfg acc =
      .error ⟨⟨.trailingGarbage, p⟩, acc.toList⟩ := by
  rw [Cursor.readSequence.eq_def]
  dsimp only
  rw [if_pos rfl]

/-- An item that does not start with a Break is decoded where it starts, and the sequence goes on
after it. -/
theorem Cursor.readSequence_item {t : Item} {n : Nat} (hb : b ≠ breakByte)
    (h : Item.decode cfg (b :: rest) = .ok (t, n)) :
    (Cursor.mk p (b :: rest)).readSequence cfg acc =
      (Cursor.mk (p + n) ((b :: rest).drop n)).readSequence cfg (acc.push t) := by
  obtain ⟨⟨c, hcl⟩, hc, hc'⟩ := (Cursor.readItem_at cfg p (b :: rest)).1 t n h
  dsimp only at hc'
  subst hc'
  rw [Cursor.readSequence.eq_def (Cursor.mk p _)]
  dsimp only
  rw [if_neg hb, hc]

/-- An item that does not start with a Break and fails to decode ends the sequence with its
fault, moved to where it starts. -/
theorem Cursor.readSequence_fault {e : Error} (hb : b ≠ breakByte)
    (h : Item.decode cfg (b :: rest) = .error e) :
    (Cursor.mk p (b :: rest)).readSequence cfg acc = .error ⟨⟨e.kind, e.offset + p⟩, acc.toList⟩ := by
  obtain ⟨st, hst, hse⟩ := (Cursor.readItem_at cfg p (b :: rest)).2 e h
  rw [Cursor.readSequence.eq_def (Cursor.mk p _)]
  dsimp only
  rw [if_neg hb, hst]
  dsimp only
  rw [hse]

theorem Cursor.readSequence_failsAt {e : Error} (h : Item.FailsAt cfg p rest e) :
    (Cursor.mk p rest).readSequence cfg acc = .error ⟨e, acc.toList⟩ := by
  cases rest with
  | nil => exact h.elim
  | cons b rest =>
    simp only [Item.FailsAt] at h
    split_ifs at h with hb
    · rw [h, hb, Cursor.readSequence_break]
    · obtain ⟨e', he', rfl⟩ := h
      exact Cursor.readSequence_fault hb he'

end Steps

/-! ### Whole sequences -/

/-- Whole encodings of items at the front of a sequence are read as those items, and the
sequence goes on after them. -/
theorem Cursor.readSequence_flatten {cfg : Config} {ds : List (List UInt8)} {us : List Item}
    (h : List.Forall₂ (Item.DecodesExactly cfg) ds us) (rest : List UInt8) :
    ∀ (p : Nat) (acc : Array Item),
      (Cursor.mk p (ds.flatten ++ rest)).readSequence cfg acc =
        (Cursor.mk (p + ds.flatten.length) rest).readSequence cfg (acc.toList ++ us).toArray := by
  induction h with
  | nil => simp
  | @cons di ti ds us hd _ ih =>
    intro p acc
    obtain ⟨b, r, rfl, hb⟩ := hd.cons
    -- the first item decodes alike with the rest of the sequence after it
    have hdec := (Item.decode_append_of_ok hd (ds.flatten ++ rest)).2
    simp only [List.flatten_cons, List.cons_append, List.append_assoc] at hdec ⊢
    have hdrop : (b :: (r ++ (ds.flatten ++ rest))).drop (b :: r).length = ds.flatten ++ rest := by
      simp
    rw [Cursor.readSequence_item hb hdec, hdrop, ih]
    have hp : p + (b :: r).length + ds.flatten.length = p + (b :: (r ++ ds.flatten)).length := by
      simp only [List.length_cons, List.length_append]
      omega
    have hacc : (acc.push ti).toList ++ us = acc.toList ++ ti :: us := by simp
    rw [hp, hacc]

theorem Cursor.split_of_readSequence_ok (cfg : Config) (k : Nat) :
    ∀ (p : Nat) (rest : List UInt8) (acc : Array Item) (ts : List Item), rest.length = k →
      (Cursor.mk p rest).readSequence cfg acc = .ok ts →
      ∃ ds us, rest = ds.flatten ∧ List.Forall₂ (Item.DecodesExactly cfg) ds us ∧
        ts = acc.toList ++ us := by
  -- strong induction on the bytes left: each item takes at least one byte
  induction k using Nat.strong_induction_on with
  | _ k ih =>
  intro p rest acc ts hk h
  cases rest with
  | nil =>
    rw [Cursor.readSequence_nil] at h
    cases h
    exact ⟨[], [], rfl, .nil, by simp⟩
  | cons b r =>
    by_cases hb : b = breakByte
    · rw [hb, Cursor.readSequence_break] at h
      cases h
    cases hdec : Item.decode cfg (b :: r) with
    | error e =>
      rw [Cursor.readSequence_fault hb hdec] at h
      cases h
    | ok v =>
      obtain ⟨t, n⟩ := v
      obtain ⟨hpos, hle, hexact⟩ := Item.decode_ok_take hdec
      rw [Cursor.readSequence_item hb hdec] at h
      obtain ⟨ds, us, hds, hall, rfl⟩ :=
        ih _ (by simp only [List.length_drop, ← hk]; omega) _ _ _ _ rfl h
      refine ⟨(b :: r).take n :: ds, t :: us, ?_, .cons hexact hall, by simp⟩
      rw [List.flatten_cons, ← hds, List.take_append_drop]

theorem Cursor.split_of_readSequence_error (cfg : Config) (k : Nat) :
    ∀ (p : Nat) (rest : List UInt8) (acc : Array Item) (e : Error) (ts : List Item),
      rest.length = k → (Cursor.mk p rest).readSequence cfg acc = .error ⟨e, ts⟩ →
      ∃ ds us r, rest = ds.flatten ++ r ∧ List.Forall₂ (Item.DecodesExactly cfg) ds us ∧
        ts = acc.toList ++ us ∧ Item.FailsAt cfg (p + ds.flatten.length) r e := by
  -- strong induction on the bytes left, as for a sequence read in full
  induction k using Nat.strong_induction_on with
  | _ k ih =>
  intro p rest acc e ts hk h
  cases rest with
  | nil =>
    rw [Cursor.readSequence_nil] at h
    cases h
  | cons b r =>
    by_cases hb : b = breakByte
    · rw [hb, Cursor.readSequence_break] at h
      cases h
      refine ⟨[], [], breakByte :: r, by simp [hb], .nil, by simp, ?_⟩
      simp [Item.FailsAt]
    cases hdec : Item.decode cfg (b :: r) with
    | error e' =>
      rw [Cursor.readSequence_fault hb hdec] at h
      cases h
      refine ⟨[], [], b :: r, rfl, .nil, by simp, ?_⟩
      simp only [Item.FailsAt, if_neg hb, List.flatten_nil, List.length_nil, Nat.add_zero]
      exact ⟨e', hdec, rfl⟩
    | ok v =>
      obtain ⟨t, n⟩ := v
      obtain ⟨hpos, hle, hexact⟩ := Item.decode_ok_take hdec
      rw [Cursor.readSequence_item hb hdec] at h
      obtain ⟨ds, us, r', hds, hall, rfl, hfail⟩ :=
        ih _ (by simp only [List.length_drop, ← hk]; omega) _ _ _ _ _ rfl h
      refine ⟨(b :: r).take n :: ds, t :: us, r', ?_, .cons hexact hall, by simp, ?_⟩
      · rw [List.flatten_cons, List.append_assoc, ← hds, List.take_append_drop]
      · have hlen : ((b :: r).take n).length = n := by rw [List.length_take]; omega
        rwa [List.flatten_cons, List.length_append, hlen, ← Nat.add_assoc]

theorem Item.decodeAll_ok_iff (cfg : Config) (d : List UInt8) (ts : List Item) :
    Item.decodeAll cfg d = .ok ts ↔
      ∃ ds, d = ds.flatten ∧ List.Forall₂ (Item.DecodesExactly cfg) ds ts := by
  constructor
  · intro h
    obtain ⟨ds, us, rfl, hall, rfl⟩ := Cursor.split_of_readSequence_ok cfg d.length 0 d #[] ts rfl h
    exact ⟨ds, rfl, by simpa using hall⟩
  · rintro ⟨ds, rfl, hall⟩
    have h := Cursor.readSequence_flatten hall [] 0 #[]
    rw [List.append_nil] at h
    rw [Item.decodeAll, Cursor.start, h, Cursor.readSequence_nil]
    simp

theorem Item.decodeAll_error_iff (cfg : Config) (d : List UInt8) (e : Error) (ts : List Item) :
    Item.decodeAll cfg d = .error ⟨e, ts⟩ ↔
      ∃ ds rest, d = ds.flatten ++ rest ∧ List.Forall₂ (Item.DecodesExactly cfg) ds ts ∧
        Item.FailsAt cfg ds.flatten.length rest e := by
  constructor
  · intro h
    obtain ⟨ds, us, r, rfl, hall, rfl, hfail⟩ :=
      Cursor.split_of_readSequence_error cfg d.length 0 d #[] e ts rfl h
    exact ⟨ds, r, rfl, by simpa using hall, by simpa using hfail⟩
  · rintro ⟨ds, r, rfl, hall, hfail⟩
    rw [Item.decodeAll, Cursor.start, Cursor.readSequence_flatten hall r 0 #[], Nat.zero_add,
      Cursor.readSequence_failsAt hfail]
    simp

/-! ### The reader, one item at a time -/

namespace SequenceReader

/-- The readers reached from the start of `bytes` by calls to `next`. -/
inductive Reached (cfg : Config) (bytes : List UInt8) : SequenceReader → Prop
  | start : Reached cfg bytes (ofBytes cfg bytes)
  | next {r : SequenceReader} : Reached cfg bytes r → Reached cfg bytes r.next.2

/-- The reader at offset `p` of `bytes`, no item having failed. -/
def atOffset (cfg : Config) (bytes : List UInt8) (p : Nat) : SequenceReader :=
  ⟨cfg, ⟨p, bytes.drop p⟩, false⟩

variable {cfg : Config} {bytes : List UInt8} {p : Nat}

@[simp] theorem offset_atOffset : (atOffset cfg bytes p).offset = p := rfl

/-- The bytes from offset `p` on, when the byte at `p` is `b`. -/
theorem drop_eq_cons {b : UInt8} (h : bytes[p]? = some b) :
    bytes.drop p = b :: bytes.drop (p + 1) := by
  obtain ⟨hlt, hget⟩ := List.getElem?_eq_some_iff.1 h
  rw [List.drop_eq_getElem_cons hlt, hget]

theorem next_of_failed {r : SequenceReader} (h : r.failed = true) : r.next = (none, r) := by
  unfold next
  rw [if_pos h]

theorem next_at_end (h : bytes.length ≤ p) :
    (atOffset cfg bytes p).next = (none, atOffset cfg bytes p) := by
  unfold next atOffset
  rw [List.drop_eq_nil_of_le h]
  rfl

theorem next_at_break {rest : List UInt8} (h : bytes.drop p = breakByte :: rest) :
    (atOffset cfg bytes p).next =
      (some (.error ⟨.trailingGarbage, p⟩), { atOffset cfg bytes p with failed := true }) := by
  unfold next atOffset
  rw [h]
  rfl

theorem next_at_item {b : UInt8} {rest : List UInt8} (h : bytes.drop p = b :: rest)
    (hb : b ≠ breakByte) {t : Item} {n : Nat} (hd : Item.decode cfg (bytes.drop p) = .ok (t, n)) :
    (atOffset cfg bytes p).next = (some (.ok t), atOffset cfg bytes (p + n)) := by
  rw [h] at hd
  obtain ⟨⟨c, hcl⟩, hc, hc'⟩ := (Cursor.readItem_at cfg p (b :: rest)).1 t n hd
  dsimp only at hc'
  subst hc'
  unfold next atOffset
  rw [h]
  dsimp only
  rw [if_neg hb, hc]
  dsimp only
  rw [← h, List.drop_drop]
  rfl

theorem next_at_fault {b : UInt8} {rest : List UInt8} (h : bytes.drop p = b :: rest)
    (hb : b ≠ breakByte) {e : Error} (hd : Item.decode cfg (bytes.drop p) = .error e) :
    ∃ c, (atOffset cfg bytes p).next = (some (.error ⟨e.kind, e.offset + p⟩), ⟨cfg, c, true⟩) := by
  rw [h] at hd
  obtain ⟨st, hst, hse⟩ := (Cursor.readItem_at cfg p (b :: rest)).2 e hd
  unfold next atOffset
  rw [h]
  dsimp only
  rw [if_neg hb, hst]
  dsimp only
  rw [hse]
  exact ⟨_, rfl⟩

/-- One call to `next` at an offset within the input fails or leaves the reader at an offset
within the input. -/
theorem next_atOffset (hp : p ≤ bytes.length) :
    (atOffset cfg bytes p).next.2.failed = true ∨
      ∃ q ≤ bytes.length, (atOffset cfg bytes p).next.2 = atOffset cfg bytes q := by
  cases h : bytes.drop p with
  | nil =>
    have hend : bytes.length ≤ p := List.drop_eq_nil_iff.1 h
    exact Or.inr ⟨p, hp, by rw [next_at_end hend]⟩
  | cons b rest =>
    by_cases hb : b = breakByte
    · subst hb
      rw [next_at_break h]
      exact Or.inl rfl
    cases hd : Item.decode cfg (bytes.drop p) with
    | ok v =>
      obtain ⟨t, n⟩ := v
      have hn := (Item.decode_ok_take hd).2.1
      rw [List.length_drop] at hn
      exact Or.inr ⟨p + n, by omega, by rw [next_at_item h hb hd]⟩
    | error e =>
      obtain ⟨c, hc⟩ := next_at_fault h hb hd
      rw [hc]
      exact Or.inl rfl

/-- Every reader reached from the start of an input has failed, or stands at an offset within
the input with no item failed. -/
theorem Reached.atOffset {r : SequenceReader} (h : Reached cfg bytes r) :
    r.failed = true ∨ ∃ p ≤ bytes.length, r = atOffset cfg bytes p := by
  induction h with
  | start => exact Or.inr ⟨0, Nat.zero_le _, rfl⟩
  | next _ ih =>
    rcases ih with hf | ⟨p, hp, rfl⟩
    · rw [next_of_failed hf]
      exact Or.inl hf
    · exact next_atOffset hp

end SequenceReader

open SequenceReader in
/-- Reading a sequence is decoding one item after another, each from where the one before it
ended. A reader reached from the start of an input by calls to `next` yields nothing more once an
item has failed. Otherwise it stands within the input and, at offset `p`, yields nothing at the
end of the input, trailing data at a Break (and has failed, still at `p`), and else the decode of
the bytes from `p` on: its item, with the offset moved on by the bytes it takes, or its fault
moved by `p`, after which the reader has failed. The items of a whole sequence are those of a
split of its bytes into whole encodings of one item each; on a failure, those of the split before
the place the failing read starts. -/
theorem Item.decodeAll_eq_iterated_decode (cfg : Config) (d : List UInt8) :
    (∀ r, Reached cfg d r →
      (r.failed = true → r.next = (none, r)) ∧
      (r.failed = false →
        r.offset ≤ d.length ∧
        (r.offset = d.length → r.next = (none, r)) ∧
        (d[r.offset]? = some breakByte →
          r.next.1 = some (.error ⟨.trailingGarbage, r.offset⟩) ∧ r.next.2.offset = r.offset ∧
            r.next.2.failed = true) ∧
        (∀ b, d[r.offset]? = some b → b ≠ breakByte →
          (∀ t n, Item.decode cfg (d.drop r.offset) = .ok (t, n) →
            r.next.1 = some (.ok t) ∧ r.next.2.offset = r.offset + n ∧ r.next.2.failed = false) ∧
          (∀ e, Item.decode cfg (d.drop r.offset) = .error e →
            r.next.1 = some (.error ⟨e.kind, e.offset + r.offset⟩) ∧ r.next.2.failed = true)))) ∧
    (∀ ts, Item.decodeAll cfg d = .ok ts ↔
      ∃ ds, d = ds.flatten ∧ List.Forall₂ (Item.DecodesExactly cfg) ds ts) ∧
    (∀ e ts, Item.decodeAll cfg d = .error ⟨e, ts⟩ ↔
      ∃ ds rest, d = ds.flatten ++ rest ∧ List.Forall₂ (Item.DecodesExactly cfg) ds ts ∧
        Item.FailsAt cfg ds.flatten.length rest e) := by
  refine ⟨fun r hr => ?_, Item.decodeAll_ok_iff cfg d, Item.decodeAll_error_iff cfg d⟩
  rcases hr.atOffset with hf | ⟨p, hp, rfl⟩
  · refine ⟨next_of_failed, fun hf' => ?_⟩
    rw [hf] at hf'
    cases hf'
  rw [offset_atOffset]
  refine ⟨fun hf => ?_, fun _ => ⟨hp, fun hend => next_at_end hend.ge, fun hb => ?_,
    fun b hb hne => ?_⟩⟩
  · cases hf
  · rw [next_at_break (drop_eq_cons hb)]
    exact ⟨rfl, rfl, rfl⟩
  · have h := drop_eq_cons hb
    refine ⟨fun t n hd => ?_, fun e hd => ?_⟩
    · rw [next_at_item h hne hd]
      exact ⟨rfl, rfl, rfl⟩
    · obtain ⟨c, hc⟩ := next_at_fault h hne hd
      rw [hc]
      exact ⟨rfl, rfl⟩

/-- The sequence of the integers 1 and 2 is read as their two items. -/
theorem Item.decodeAll_one_two : Item.decodeAll {} [0x01, 0x02] = .ok [.unsigned 1, .unsigned 2] :=
  ((Item.decodeAll_eq_iterated_decode {} [0x01, 0x02]).2.1 _).2
    ⟨[[0x01], [0x02]], rfl, .cons (by cbv) (.cons (by cbv) .nil)⟩

end Cbor
