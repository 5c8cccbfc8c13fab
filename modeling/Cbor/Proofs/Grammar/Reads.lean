import Cbor.Proofs.Grammar.Basic
import Cbor.Proofs.Reader
import Cbor.Proofs.Utf8
/-! # Every admitted encoding is read

The reader takes the bytes of an encoding that the limits admit, in front of any rest of the
input, as the item the encoding writes, and stops right after them (`Encoding.readsBack`).

The parts are read one lemma at a time: an argument in any head form (`Arg.argument_extra`), a
definite payload (`Piece.payload_read`), the chunks of an indefinite string up to its Break
(`chunks_read`), and the entries of arrays and maps, counted or up to a Break
(`readArray_entries`, `readMap_entries`). The entry lemmas take the reading of each
entry as a hypothesis, which the recursion of `Encoding.readsBack` over the tree supplies.
-/

namespace Cbor

/-! ### Arguments and payloads -/

namespace Arg

theorem value_lt_pow (a : Arg) (hw : a.width ≠ 0) : a.value < 256 ^ a.width := by
  have h := a.holds
  simp only [formHolds, if_neg hw, Nat.pow_eq, decide_eq_true_eq] at h
  exact h

theorem ofInfo?_info (a : Arg) :
    Argument.ofInfo? a.info = some (if a.width = 0 then .immediate a.value else .follows a.width) := by
  have h := a.holds
  rcases a.width_cases with hw | hw | hw | hw | hw <;>
    simp [formHolds, hw] at h <;> simp [info, hw, Argument.ofInfo?, h]

/-- An argument in any head form is read as its value, and reading stops after its bytes. -/
theorem argument_extra (a : Arg) (o start : Nat) (rest : List UInt8) :
    ∃ d, (Cursor.mk o (a.extra ++ rest)).argument a.info start = .ok (some a.value, d) ∧
      d.1 = ⟨o + a.width, rest⟩ := by
  unfold Cursor.argument
  rw [a.ofInfo?_info]
  by_cases hw : a.width = 0
  · have he : a.extra = [] := by simp [extra, hw, toBigEndian]
    simp [hw, he, Cursor.here]
  · obtain ⟨d, ht, hd⟩ := Cursor.take_prefix o a.extra rest
    rw [a.length_extra] at ht hd
    refine ⟨d, ?_, hd⟩
    simp only [if_neg hw, ht, bigEndian_extra, Nat.mod_eq_of_lt (a.value_lt_pow hw)]

theorem definite_extra (a : Arg) (o start : Nat) (rest : List UInt8) :
    ∃ d, (Cursor.mk o (a.extra ++ rest)).definite a.info start = .ok (a.value, d) ∧
      d.1 = ⟨o + a.width, rest⟩ := by
  obtain ⟨d, harg, hd⟩ := a.argument_extra o start rest
  exact ⟨d, by simp only [Cursor.definite, harg], hd⟩

theorem length_extra' (a : Arg) (cfg : Config) (o start : Nat) (rest : List UInt8) :
    ∃ d, (Cursor.mk o (a.extra ++ rest)).length cfg a.info start = .ok (some a.value, d) ∧
      d.1 = ⟨o + a.width, rest⟩ := by
  obtain ⟨d, harg, hd⟩ := a.argument_extra o start rest
  exact ⟨d, by simp only [Cursor.length, harg], hd⟩

end Arg

/-- An indefinite length, where the limits admit one, takes no byte after the head. -/
theorem length_indefinite (c : Cursor) (cfg : Config) (hc : cfg.allowIndefinite = true)
    (start : Nat) : c.length cfg 31 start = .ok (none, c.here) := by
  simp [Cursor.length, Cursor.argument_indefinite, hc]

theorem info_indefiniteByte (m : Major) : (Head.ofByte (indefiniteByte m)).info = 31 := by
  cases m <;> rfl

theorem major_indefiniteByte (m : Major) : (Head.ofByte (indefiniteByte m)).major = m := by
  cases m <;> rfl

namespace Piece

variable {β : Type} {enc : List β → List UInt8}

/-- A payload within the length limit is taken whole. -/
theorem payload_read (p : Piece β enc) (cfg : Config) (hl : cfg.stringTooLong p.len.value = false)
    (o start : Nat) (rest : List UInt8) :
    ∃ d, (Cursor.mk o (enc p.content ++ rest)).payload cfg p.len.value start =
      .ok (enc p.content, d) ∧ d.1 = ⟨o + p.len.value, rest⟩ := by
  obtain ⟨d, ht, hd⟩ := Cursor.take_prefix o (enc p.content) rest
  rw [p.length_eq] at ht hd
  exact ⟨d, by rw [Cursor.payload, if_neg (by simp [hl]), ht], hd⟩

end Piece

/-! ### Indefinite strings -/

section Chunks

variable {β : Type} {enc : List β → List UInt8} (cfg : Config) (m : Major)
  (content : List UInt8 → Nat → Cursor → Except Stop (List β))

/-- The chunks of an indefinite string are read to its Break, their contents joined after `acc`,
when the bytes gathered stay within the length limit. -/
theorem chunks_read (hc : ∀ xs first d, content (enc xs) first d = .ok xs) (start : Nat) :
    ∀ (ps : List (Piece β enc)) (o : Nat) (acc : List β) (total : Nat) (rest : List UInt8),
      cfg.stringTooLong (min (total + (ps.map fun p => p.len.value).sum) (Nat.pow 2 64 - 1)) =
        false →
      ∃ d, (Cursor.mk o ((ps.flatMap fun p => p.bytes m) ++ breakByte :: rest)).chunks cfg m
          content start acc total = .ok (acc ++ ps.flatMap Piece.content, d) ∧
        d.1 = ⟨o + (ps.flatMap fun p => p.bytes m).length + 1, rest⟩
  | [], o, acc, total, rest, _ => by
    rw [List.flatMap_nil, List.nil_append, Cursor.chunks.eq_def]
    simp
  | p :: ps, o, acc, total, rest, hl => by
    have hsplit : ((p :: ps).flatMap fun p => p.bytes m) ++ breakByte :: rest =
        Head.toByte ⟨m, p.len.info⟩ :: (p.len.extra ++ (enc p.content ++
          ((ps.flatMap fun p => p.bytes m) ++ breakByte :: rest))) := by
      simp [Piece.bytes, Arg.head]
    obtain ⟨⟨_, h2⟩, harg, rfl⟩ := p.len.argument_extra (o + 1) o
      (enc p.content ++ ((ps.flatMap fun p => p.bytes m) ++ breakByte :: rest))
    obtain ⟨⟨_, h3⟩, ht, rfl⟩ := Cursor.take_prefix (o + 1 + p.len.width) (enc p.content)
      ((ps.flatMap fun p => p.bytes m) ++ breakByte :: rest)
    rw [p.length_eq] at ht
    simp only [List.map_cons, List.sum_cons] at hl
    have hnow : cfg.stringTooLong (min (total + p.len.value) (Nat.pow 2 64 - 1)) = false :=
      Config.stringTooLong_mono (by omega) hl
    obtain ⟨⟨_, h4⟩, hnext, rfl⟩ := chunks_read hc start ps (o + 1 + p.len.width + p.len.value)
      (acc ++ p.content) (total + p.len.value) rest (by rwa [Nat.add_assoc])
    rw [hsplit, Cursor.chunks.eq_def]
    dsimp only
    rw [if_neg (p.len.toByte_ne_break m), Arg.ofByte_head]
    dsimp only
    rw [if_neg (not_not_intro rfl), harg]
    dsimp only
    rw [hnow, if_neg Bool.false_ne_true, ht]
    dsimp only
    rw [hc]
    dsimp only
    rw [hnext]
    dsimp only
    rw [List.flatMap_cons, List.append_assoc]
    refine ⟨_, rfl, ?_⟩
    simp [Piece.bytes, Arg.head, p.length_eq]
    omega

end Chunks

/-! ### Entries of containers -/

/-- Where an entry starts, `nextEntry` announces it and takes nothing: a counted container counts
it down, an indefinite one admits it within the length limit. -/
theorem Cursor.nextEntry_entry {c : Cursor} (hc : ∃ b r, c.rest = b :: r ∧ b ≠ breakByte)
    {cfg : Config} (count : Option Arg) (n seen : Nat)
    (hlim : count = none → cfg.tooManyItems (seen + 1) = false) :
    c.nextEntry cfg (count.map fun _ => n + 1) seen = .ok (some (count.map fun _ => n), c.here) := by
  obtain ⟨o, rest⟩ := c
  obtain ⟨b, r, hr, hb⟩ := hc
  dsimp only at hr
  subst hr
  cases count with
  | some a => rfl
  | none => simp [Cursor.nextEntry, hb, hlim rfl]

/-- The end of a container's entries: nothing more of a counted one, the Break of an indefinite
one. -/
theorem Cursor.nextEntry_end (cfg : Config) (count : Option Arg) (o seen : Nat)
    (rest : List UInt8) :
    ∃ d, (Cursor.mk o (closing count ++ rest)).nextEntry cfg (count.map fun _ => 0) seen =
      .ok (none, d) ∧ d.1 = ⟨o + (closing count).length, rest⟩ := by
  cases count with
  | some a => exact ⟨_, rfl, rfl⟩
  | none => exact ⟨⟨⟨o + 1, rest⟩, by simp [closing]⟩, by simp [closing, Cursor.nextEntry], rfl⟩

theorem Encoding.cons_rest (e : Encoding) (rest : List UInt8) :
    ∃ b r, e.bytes ++ rest = b :: r ∧ b ≠ breakByte := by
  obtain ⟨b, r, he, hb⟩ := e.bytes_eq_cons
  exact ⟨b, r ++ rest, by rw [he, List.cons_append], hb⟩

variable {cfg : Config} {depth : Nat}

/-- The encoding is read back, in front of any rest of the input, inside `depth` containers. -/
def ReadsBack (cfg : Config) (depth : Nat) (e : Encoding) : Prop :=
  ∀ o rest, ∃ d, (Cursor.mk o (e.bytes ++ rest)).readItem cfg depth = .ok (e.item, d) ∧
    d.1 = ⟨o + e.bytes.length, rest⟩

/-- The items of an array are read one after another, up to its end, after those in `acc`. -/
theorem readArray_entries (count : Option Arg) (xs : List Encoding)
    (hxs : ∀ x ∈ xs, ReadsBack cfg depth x) :
    ∀ (o : Nat) (rest : List UInt8) (acc : Array Item),
      cfg.tooManyItems (acc.size + xs.length) = false →
      ∃ d, (Cursor.mk o (Encoding.listBytes xs ++ closing count ++ rest)).readArray cfg depth
          (count.map fun _ => xs.length) acc = .ok (acc.toList ++ Encoding.items xs, d) ∧
        d.1 = ⟨o + (Encoding.listBytes xs ++ closing count).length, rest⟩ := by
  induction xs with
  | nil =>
    intro o rest acc _
    obtain ⟨⟨_, h⟩, hn, rfl⟩ := Cursor.nextEntry_end cfg count o acc.size rest
    rw [Cursor.readArray.eq_def]
    simp only [Encoding.listBytes, List.nil_append, List.length_nil, hn]
    exact ⟨⟨_, h⟩, by simp [Encoding.items], rfl⟩
  | cons x xs ih =>
    intro o rest acc hlim
    have hsplit : Encoding.listBytes (x :: xs) ++ closing count ++ rest =
        x.bytes ++ (Encoding.listBytes xs ++ closing count ++ rest) := by
      simp [Encoding.listBytes]
    have hn := Cursor.nextEntry_entry (c := ⟨o, x.bytes ++ (Encoding.listBytes xs ++ closing count ++ rest)⟩)
      (x.cons_rest _) count xs.length acc.size (fun _ => Config.tooManyItems_mono (by simp) hlim)
    obtain ⟨⟨_, h2⟩, hread, rfl⟩ := hxs x (by simp) o (Encoding.listBytes xs ++ closing count ++ rest)
    obtain ⟨⟨_, h3⟩, hnext, rfl⟩ := ih (fun y hy => hxs y (by simp [hy])) (o + x.bytes.length) rest
      (acc.push x.item) (by simpa [Nat.add_assoc, Nat.add_comm 1] using hlim)
    rw [hsplit, Cursor.readArray.eq_def]
    have hitems : (acc.push x.item).toList ++ Encoding.items xs =
        acc.toList ++ Encoding.items (x :: xs) := by
      simp [Encoding.items]
    simp only [List.length_cons, hn, Cursor.here, hread, hnext, hitems]
    refine ⟨_, rfl, ?_⟩
    simp [Encoding.listBytes]
    omega

/-- Where keys are distinct, no key read before equals the next one. -/
theorem any_valueEq_eq_false {acc : Array (Item × Item)} {k v : Item} {es : List (Item × Item)}
    (h : Encoding.KeysDistinct (acc.toList ++ (k, v) :: es)) :
    acc.any (fun e => e.1.valueEq k) = false := by
  rw [← Array.any_toList, List.any_eq_false]
  intro e he
  have hp := (List.pairwise_append.1 h).2.2 e he (k, v) (by simp)
  simp [hp]

/-- The entries of a map are read one after another, up to its end, after those in `acc`. -/
theorem readMap_entries (count : Option Arg) (es : List (Encoding × Encoding))
    (hes : ∀ e ∈ es, ReadsBack cfg depth e.1 ∧ ReadsBack cfg depth e.2) (indefinite : Bool) :
    ∀ (o : Nat) (rest : List UInt8) (acc : Array (Item × Item)),
      cfg.tooManyItems (acc.size + es.length) = false →
      (cfg.rejectDuplicateKeys = true →
        Encoding.KeysDistinct (acc.toList ++ Encoding.entryItems es)) →
      ∃ d, (Cursor.mk o (Encoding.entriesBytes es ++ closing count ++ rest)).readMap cfg depth
          indefinite (count.map fun _ => es.length) acc =
          .ok (acc.toList ++ Encoding.entryItems es, d) ∧
        d.1 = ⟨o + (Encoding.entriesBytes es ++ closing count).length, rest⟩ := by
  induction es with
  | nil =>
    intro o rest acc _ _
    obtain ⟨⟨_, h⟩, hn, rfl⟩ := Cursor.nextEntry_end cfg count o acc.size rest
    rw [Cursor.readMap.eq_def]
    simp only [Encoding.entriesBytes, List.nil_append, List.length_nil, hn]
    exact ⟨⟨_, h⟩, by simp [Encoding.entryItems], rfl⟩
  | cons e es ih =>
    obtain ⟨k, v⟩ := e
    intro o rest acc hlim hdist
    have hsplit : Encoding.entriesBytes ((k, v) :: es) ++ closing count ++ rest =
        k.bytes ++ (v.bytes ++ (Encoding.entriesBytes es ++ closing count ++ rest)) := by
      simp [Encoding.entriesBytes]
    have hn := Cursor.nextEntry_entry
      (c := ⟨o, k.bytes ++ (v.bytes ++ (Encoding.entriesBytes es ++ closing count ++ rest))⟩)
      (k.cons_rest _) count es.length acc.size (fun _ => Config.tooManyItems_mono (by simp) hlim)
    have hkv : ReadsBack cfg depth k ∧ ReadsBack cfg depth v := hes (k, v) (by simp)
    obtain ⟨⟨_, h2⟩, hk, rfl⟩ :=
      hkv.1 o (v.bytes ++ (Encoding.entriesBytes es ++ closing count ++ rest))
    obtain ⟨⟨_, h3⟩, hv, rfl⟩ :=
      hkv.2 (o + k.bytes.length) (Encoding.entriesBytes es ++ closing count ++ rest)
    have hdup : (cfg.rejectDuplicateKeys && acc.any (fun e => e.1.valueEq k.item)) = false := by
      cases hr : cfg.rejectDuplicateKeys
      · rfl
      · simpa [Encoding.entryItems] using any_valueEq_eq_false (hdist hr)
    have htrunc : (indefinite &&
        (v.bytes ++ (Encoding.entriesBytes es ++ closing count ++ rest)).head? = some breakByte) =
          false := by
      obtain ⟨b, r, hvr, hb⟩ := v.cons_rest (Encoding.entriesBytes es ++ closing count ++ rest)
      rw [hvr]
      simp [hb]
    obtain ⟨⟨_, h4⟩, hnext, rfl⟩ := ih (fun e he => hes e (by simp [he]))
      (o + k.bytes.length + v.bytes.length) rest (acc.push (k.item, v.item))
      (by simpa [Nat.add_assoc, Nat.add_comm 1] using hlim)
      (fun hr => by simpa [Encoding.entryItems] using hdist hr)
    have hentries : (acc.push (k.item, v.item)).toList ++ Encoding.entryItems es =
        acc.toList ++ Encoding.entryItems ((k, v) :: es) := by
      simp [Encoding.entryItems]
    rw [hsplit, Cursor.readMap.eq_def]
    simp only [List.length_cons, hn, Cursor.here, hk, hdup, htrunc, Bool.false_eq_true, if_false,
      hv, hnext, hentries]
    refine ⟨_, rfl, ?_⟩
    simp [Encoding.entriesBytes]
    omega

/-! ### Items -/

theorem Cursor.chars_encode (c : Cursor) (cs : List Char) (first : Nat) :
    c.chars (Utf8.encode cs) first = .ok cs := by
  simp [Cursor.chars, Utf8.decode_encode]

theorem Cursor.enter_ok (c : Cursor) {cfg : Config} {depth : Nat} (hd : depth < cfg.maxDepth)
    {count : Option Nat} (hc : ∀ n, count = some n → cfg.tooManyItems n = false) (start : Nat) :
    c.enter cfg depth count start = .ok () := by
  unfold Cursor.enter
  rw [if_neg (Nat.not_le.mpr hd)]
  cases count with
  | some n => simp [hc n rfl]
  | none => rfl

/-- The head of a container reads back as its major type and its count, or as an indefinite
length where the limits admit one. -/
theorem openHead_length (cfg : Config) {m : Major} (hm : m ≠ .simple) (count : Option Arg)
    (hc : count = none → cfg.allowIndefinite = true) (o : Nat) (rest : List UInt8) :
    ∃ b tail, openHead m count ++ rest = b :: tail ∧ b ≠ breakByte ∧ (Head.ofByte b).major = m ∧
      ∃ d, (Cursor.mk (o + 1) tail).length cfg (Head.ofByte b).info o =
          .ok (count.map Arg.value, d) ∧
        d.1 = ⟨o + (openHead m count).length, rest⟩ := by
  cases count with
  | some a =>
    obtain ⟨d, hl, hd⟩ := a.length_extra' cfg (o + 1) o rest
    refine ⟨_, a.extra ++ rest, rfl, a.toByte_ne_break m, by simp, d, by simpa using hl, ?_⟩
    simp [hd, openHead, Arg.head]
    omega
  | none =>
    refine ⟨indefiniteByte m, rest, rfl, indefiniteByte_ne_break hm, major_indefiniteByte m, _,
      by rw [info_indefiniteByte, length_indefinite _ cfg (hc rfl)]; rfl, rfl⟩

theorem unsigned_readsBack (a : Arg) : ReadsBack cfg depth (.unsigned a) := by
  intro o rest
  obtain ⟨⟨_, h⟩, hv, rfl⟩ := a.definite_extra (o + 1) o rest
  have hsplit : (Encoding.unsigned a).bytes ++ rest =
      Head.toByte ⟨.unsigned, a.info⟩ :: (a.extra ++ rest) := rfl
  rw [hsplit, Cursor.readItem.eq_def]
  simp only [if_neg (a.toByte_ne_break _), Arg.ofByte_head, hv]
  refine ⟨_, rfl, ?_⟩
  simp [Encoding.bytes, Arg.head]
  omega

theorem negative_readsBack (a : Arg) (hA : cfg.allowWideNegative = true ∨ a.value < Nat.pow 2 63) :
    ReadsBack cfg depth (.negative a) := by
  intro o rest
  obtain ⟨⟨_, h⟩, hv, rfl⟩ := a.definite_extra (o + 1) o rest
  have hwide : (!cfg.allowWideNegative && decide (Nat.pow 2 63 ≤ a.value)) = false := by
    rcases hA with hA | hA
    · simp [hA]
    · simp [Nat.not_le.mpr hA]
  have hsplit : (Encoding.negative a).bytes ++ rest =
      Head.toByte ⟨.negative, a.info⟩ :: (a.extra ++ rest) := rfl
  rw [hsplit, Cursor.readItem.eq_def]
  simp only [if_neg (a.toByte_ne_break _), Arg.ofByte_head, hv, hwide, Bool.false_eq_true,
    if_false]
  refine ⟨_, rfl, ?_⟩
  simp [Encoding.bytes, Arg.head]
  omega

theorem byteString_readsBack (s : Str UInt8 id) (hA : s.Admitted cfg) :
    ReadsBack cfg depth (.byteString s) := by
  intro o rest
  cases s with
  | definite p =>
    obtain ⟨⟨_, h2⟩, hl, rfl⟩ := p.len.length_extra' cfg (o + 1) o (p.content ++ rest)
    obtain ⟨⟨_, h3⟩, hp, rfl⟩ := p.payload_read cfg hA (o + 1 + p.len.width) o rest
    have hsplit : (Encoding.byteString (.definite p)).bytes ++ rest =
        Head.toByte ⟨.bytes, p.len.info⟩ :: (p.len.extra ++ (p.content ++ rest)) := by
      simp [Encoding.bytes, Str.bytes, Piece.bytes, Arg.head]
    rw [hsplit, Cursor.readItem.eq_def]
    simp only [if_neg (p.len.toByte_ne_break _), Arg.ofByte_head, hl]
    simp only [id] at hp
    simp only [hp]
    refine ⟨_, rfl, ?_⟩
    simp [Encoding.bytes, Str.bytes, Piece.bytes, Arg.head, ← p.length_eq]
    omega
  | chunked ps =>
    obtain ⟨hi, hl⟩ := hA
    obtain ⟨⟨_, h3⟩, hc, rfl⟩ := @chunks_read UInt8 id cfg .bytes (fun bs _ _ => .ok bs)
      (fun _ _ _ => rfl) o ps (o + 1) [] 0 rest (by rwa [Nat.zero_add])
    have hsplit : (Encoding.byteString (.chunked ps)).bytes ++ rest =
        indefiniteByte .bytes :: ((ps.flatMap fun p => p.bytes .bytes) ++ breakByte :: rest) := by
      simp [Encoding.bytes, Str.bytes]
    rw [hsplit, Cursor.readItem.eq_def]
    simp only [if_neg (indefiniteByte_ne_break (m := .bytes) (by decide)), major_indefiniteByte,
      info_indefiniteByte, length_indefinite _ cfg hi, Cursor.here, hc]
    refine ⟨_, rfl, ?_⟩
    simp [Encoding.bytes, Str.bytes]
    omega

theorem textString_readsBack (s : Str Char Utf8.encode) (hA : s.Admitted cfg) :
    ReadsBack cfg depth (.textString s) := by
  intro o rest
  cases s with
  | definite p =>
    obtain ⟨⟨_, h2⟩, hl, rfl⟩ :=
      p.len.length_extra' cfg (o + 1) o (Utf8.encode p.content ++ rest)
    obtain ⟨⟨_, h3⟩, hp, rfl⟩ := p.payload_read cfg hA (o + 1 + p.len.width) o rest
    have hsplit : (Encoding.textString (.definite p)).bytes ++ rest =
        Head.toByte ⟨.text, p.len.info⟩ :: (p.len.extra ++ (Utf8.encode p.content ++ rest)) := by
      simp [Encoding.bytes, Str.bytes, Piece.bytes, Arg.head]
    rw [hsplit, Cursor.readItem.eq_def]
    simp only [if_neg (p.len.toByte_ne_break _), Arg.ofByte_head, hl, hp, Cursor.chars_encode]
    refine ⟨_, rfl, ?_⟩
    simp [Encoding.bytes, Str.bytes, Piece.bytes, Arg.head, ← p.length_eq]
    omega
  | chunked ps =>
    obtain ⟨hi, hl⟩ := hA
    obtain ⟨⟨_, h3⟩, hc, rfl⟩ := @chunks_read Char Utf8.encode cfg .text
      (fun bs first d => d.chars bs first)
      (fun _ _ d => d.chars_encode _ _) o ps (o + 1) [] 0 rest (by rwa [Nat.zero_add])
    have hsplit : (Encoding.textString (.chunked ps)).bytes ++ rest =
        indefiniteByte .text :: ((ps.flatMap fun p => p.bytes .text) ++ breakByte :: rest) := by
      simp [Encoding.bytes, Str.bytes]
    rw [hsplit, Cursor.readItem.eq_def]
    simp only [if_neg (indefiniteByte_ne_break (m := .text) (by decide)), major_indefiniteByte,
      info_indefiniteByte, length_indefinite _ cfg hi, Cursor.here, hc]
    refine ⟨_, rfl, ?_⟩
    simp [Encoding.bytes, Str.bytes]
    omega

/-- An array whose items read back is read back where the limits admit it. -/
theorem array_readsBack (count : Option Arg) (xs : List Encoding) (hd : depth < cfg.maxDepth)
    (hc : Encoding.CountAdmitted cfg count xs.length)
    (hxs : ∀ x ∈ xs, ReadsBack cfg (depth + 1) x) :
    ReadsBack cfg depth (.array count xs) := by
  intro o rest
  obtain ⟨hlim, hcount⟩ := hc
  obtain ⟨b, tail, hsplit, hb, hm, ⟨_, h2⟩, hl, rfl⟩ :=
    openHead_length cfg (m := .array) (by decide) count (by rintro rfl; exact hcount) o
      (Encoding.listBytes xs ++ closing count ++ rest)
  have hrem : count.map Arg.value = count.map fun _ => xs.length := by
    cases count with
    | some a => simp only [Option.map_some]; rw [hcount]
    | none => rfl
  obtain ⟨⟨_, h3⟩, hr, rfl⟩ := readArray_entries count xs hxs
    (o + (openHead .array count).length) rest #[] (by simpa using hlim)
  have hsplit' : (Encoding.array count xs).bytes ++ rest = b :: tail := by
    rw [← hsplit]
    simp [Encoding.bytes]
  rw [hsplit', Cursor.readItem.eq_def]
  simp only [if_neg hb, hm, hl, hrem]
  rw [Cursor.enter_ok _ hd (by cases count <;> simp [hlim])]
  simp only [hr, List.nil_append]
  refine ⟨_, rfl, ?_⟩
  simp [Encoding.bytes]
  omega

/-- A map whose keys and values read back is read back where the limits admit it. -/
theorem map_readsBack (count : Option Arg) (es : List (Encoding × Encoding))
    (hd : depth < cfg.maxDepth) (hc : Encoding.CountAdmitted cfg count es.length)
    (hdist : cfg.rejectDuplicateKeys = true → Encoding.KeysDistinct (Encoding.entryItems es))
    (hes : ∀ e ∈ es, ReadsBack cfg (depth + 1) e.1 ∧ ReadsBack cfg (depth + 1) e.2) :
    ReadsBack cfg depth (.map count es) := by
  intro o rest
  obtain ⟨hlim, hcount⟩ := hc
  obtain ⟨b, tail, hsplit, hb, hm, ⟨_, h2⟩, hl, rfl⟩ :=
    openHead_length cfg (m := .map) (by decide) count (by rintro rfl; exact hcount) o
      (Encoding.entriesBytes es ++ closing count ++ rest)
  have hrem : count.map Arg.value = count.map fun _ => es.length := by
    cases count with
    | some a => simp only [Option.map_some]; rw [hcount]
    | none => rfl
  obtain ⟨⟨_, h3⟩, hr, rfl⟩ := readMap_entries count es hes (count.map fun _ => es.length).isNone
    (o + (openHead .map count).length) rest #[] (by simpa using hlim) (by simpa using hdist)
  have hsplit' : (Encoding.map count es).bytes ++ rest = b :: tail := by
    rw [← hsplit]
    simp [Encoding.bytes]
  rw [hsplit', Cursor.readItem.eq_def]
  simp only [if_neg hb, hm, hl, hrem]
  rw [Cursor.enter_ok _ hd (by cases count <;> simp [hlim])]
  simp only [hr, List.nil_append]
  refine ⟨_, rfl, ?_⟩
  simp [Encoding.bytes]
  omega

theorem tagged_readsBack (t : Arg) (x : Encoding) (hd : depth < cfg.maxDepth)
    (hx : ReadsBack cfg (depth + 1) x) : ReadsBack cfg depth (.tagged t x) := by
  intro o rest
  obtain ⟨⟨_, h2⟩, hv, rfl⟩ := t.definite_extra (o + 1) o (x.bytes ++ rest)
  obtain ⟨⟨_, h3⟩, hr, rfl⟩ := hx (o + 1 + t.width) rest
  have hsplit : (Encoding.tagged t x).bytes ++ rest =
      Head.toByte ⟨.tag, t.info⟩ :: (t.extra ++ (x.bytes ++ rest)) := by
    simp [Encoding.bytes, Arg.head]
  rw [hsplit, Cursor.readItem.eq_def]
  simp only [if_neg (t.toByte_ne_break _), Arg.ofByte_head, hv]
  rw [Cursor.enter_ok _ hd (by simp)]
  simp only [hr]
  refine ⟨_, rfl, ?_⟩
  simp [Encoding.bytes, Arg.head]
  omega

/-- The initial byte of a one-byte simple value below 20. -/
theorem ofByte_simple {v : UInt8} (h : v.toNat < 20) :
    Head.ofByte (0xE0 + v) = ⟨.simple, v.toNat⟩ := by
  have hv : (0xE0 + v).toNat = 224 + v.toNat := by
    rw [UInt8.toNat_add]
    simp only [UInt8.reduceToNat]
    omega
  have h7 : (224 + v.toNat) / 32 = 7 := by omega
  have hi : (224 + v.toNat) % 32 = v.toNat := by omega
  simp [Head.ofByte, hv, h7, hi, Major.ofBits]

theorem toByte_simple {v : UInt8} (h : v.toNat < 20) :
    Head.toByte ⟨.simple, v.toNat⟩ = 0xE0 + v := by
  rw [← ofByte_simple h, Head.toByte_ofByte]

theorem simple_readsBack (v : UInt8) (h : v.toNat < 20 ∨ 32 ≤ v.toNat) :
    ReadsBack cfg depth (.simple v h) := by
  intro o rest
  by_cases hv : v.toNat < 20
  · have hb : 0xE0 + v ≠ breakByte := by
      intro hb
      have hs := ofByte_simple hv
      rw [hb, show Head.ofByte breakByte = ⟨.simple, 31⟩ by decide, Head.mk.injEq] at hs
      omega
    have hsplit : (Encoding.simple v h).bytes ++ rest = (0xE0 + v) :: rest := by
      simp [Encoding.bytes, hv]
    rw [hsplit, Cursor.readItem.eq_def]
    simp only [if_neg hb, ofByte_simple hv, Cursor.simple_small _ hv]
    exact exists_ok (by simp [Encoding.item]) (by simp [Encoding.bytes, hv, Cursor.here])
  · obtain ⟨⟨_, h2⟩, ht, rfl⟩ := Cursor.take_prefix (o + 1) [v] rest
    have hsplit : (Encoding.simple v h).bytes ++ rest = 0xF8 :: ([v] ++ rest) := by
      simp [Encoding.bytes, hv]
    have hlt : ¬ bigEndian [v] < 32 := by simp [bigEndian]; omega
    rw [hsplit, Cursor.readItem.eq_def]
    simp only [show (0xF8 : UInt8) ≠ breakByte by decide, if_false,
      show Head.ofByte 0xF8 = ⟨.simple, 24⟩ by decide]
    simp only [Cursor.simple, Nat.reduceEqDiff, if_false, Nat.reduceLT, List.length_singleton] at ht ⊢
    simp only [ht, hlt, if_false]
    exact exists_ok (by simp [Encoding.item, bigEndian]) (by simp [Encoding.bytes, hv])

theorem bool_readsBack (b : Bool) : ReadsBack cfg depth (.bool b) := by
  intro o rest
  cases b <;> rw [Cursor.readItem.eq_def] <;> exact ⟨_, rfl, rfl⟩

theorem null_readsBack : ReadsBack cfg depth .null := by
  intro o rest
  rw [Cursor.readItem.eq_def]
  exact ⟨_, rfl, rfl⟩

theorem undefined_readsBack : ReadsBack cfg depth .undefined := by
  intro o rest
  rw [Cursor.readItem.eq_def]
  exact ⟨_, rfl, rfl⟩



/-- A float's bits are read back at the width they were written in. -/
theorem float_readsBack (x : IeeeFloat) : ReadsBack cfg depth (.float x) := by
  intro o rest
  -- the same three steps at each width: the initial byte, the bits, the item they give
  cases x with
  | half b =>
    obtain ⟨⟨_, h2⟩, ht, rfl⟩ := Cursor.take_prefix (o + 1) (toBigEndian 2 b.toNat) rest
    rw [length_toBigEndian] at ht
    rw [show (Encoding.float (.half b)).bytes ++ rest = 0xF9 :: (toBigEndian 2 b.toNat ++ rest)
      from rfl, Cursor.readItem.eq_def]
    simp only [show (0xF9 : UInt8) ≠ breakByte by decide, if_false,
      show Head.ofByte 0xF9 = ⟨.simple, 25⟩ by decide]
    simp only [Cursor.simple, Nat.reduceEqDiff, if_false, Nat.reduceLT, ht]
    exact exists_ok (by simp [Encoding.item, bigEndian_toBigEndian])
      (by simp [Encoding.bytes, IeeeFloat.encode])
  | single b =>
    obtain ⟨⟨_, h2⟩, ht, rfl⟩ := Cursor.take_prefix (o + 1) (toBigEndian 4 b.toNat) rest
    rw [length_toBigEndian] at ht
    rw [show (Encoding.float (.single b)).bytes ++ rest = 0xFA :: (toBigEndian 4 b.toNat ++ rest)
      from rfl, Cursor.readItem.eq_def]
    simp only [show (0xFA : UInt8) ≠ breakByte by decide, if_false,
      show Head.ofByte 0xFA = ⟨.simple, 26⟩ by decide]
    simp only [Cursor.simple, Nat.reduceEqDiff, if_false, Nat.reduceLT, ht]
    exact exists_ok (by simp [Encoding.item, bigEndian_toBigEndian])
      (by simp [Encoding.bytes, IeeeFloat.encode])
  | double b =>
    obtain ⟨⟨_, h2⟩, ht, rfl⟩ := Cursor.take_prefix (o + 1) (toBigEndian 8 b.toNat) rest
    rw [length_toBigEndian] at ht
    rw [show (Encoding.float (.double b)).bytes ++ rest = 0xFB :: (toBigEndian 8 b.toNat ++ rest)
      from rfl, Cursor.readItem.eq_def]
    simp only [show (0xFB : UInt8) ≠ breakByte by decide, if_false,
      show Head.ofByte 0xFB = ⟨.simple, 27⟩ by decide]
    simp only [Cursor.simple, Nat.reduceEqDiff, if_false, Nat.reduceLT, ht]
    exact exists_ok (by simp [Encoding.item, bigEndian_toBigEndian])
      (by simp [Encoding.bytes, IeeeFloat.encode])

/-- Every admitted encoding is read back: the reader accepts it in front of any bytes, gives its
item and stops right after it. -/
theorem Encoding.readsBack (cfg : Config) : ∀ (e : Encoding) (depth : Nat),
    e.Admitted cfg depth → ReadsBack cfg depth e
  | .unsigned a, _, _ => unsigned_readsBack a
  | .negative a, _, h => negative_readsBack a h
  | .byteString s, _, h => byteString_readsBack s h
  | .textString s, _, h => textString_readsBack s h
  | .array count xs, depth, h => by
    obtain ⟨hd, hc, hxs⟩ := h
    exact array_readsBack count xs hd hc fun x hx =>
      Encoding.readsBack cfg x (depth + 1) ((Encoding.allAdmitted_iff).1 hxs x hx)
  | .map count es, depth, h => by
    obtain ⟨hd, hc, hes, hdist⟩ := h
    exact map_readsBack count es hd hc hdist fun e he =>
      ⟨Encoding.readsBack cfg e.1 (depth + 1) (((Encoding.entriesAdmitted_iff).1 hes e he).1),
        Encoding.readsBack cfg e.2 (depth + 1) (((Encoding.entriesAdmitted_iff).1 hes e he).2)⟩
  | .tagged t x, depth, h => tagged_readsBack t x h.1 (Encoding.readsBack cfg x (depth + 1) h.2)
  | .simple v hv, _, _ => simple_readsBack v hv
  | .bool b, _, _ => bool_readsBack b
  | .null, _, _ => null_readsBack
  | .undefined, _, _ => undefined_readsBack
  | .float x, _, _ => float_readsBack x
termination_by e => sizeOf e
decreasing_by
  -- an item of an array, a key or value of a map, or the item under a tag is smaller
  · have hlt := List.sizeOf_lt_of_mem hx
    simp only [Encoding.array.sizeOf_spec]
    omega
  · have hlt := List.sizeOf_lt_of_mem he
    have hk : sizeOf e.1 < sizeOf e := by cases e; simp only [Prod.mk.sizeOf_spec]; omega
    simp only [Encoding.map.sizeOf_spec]
    omega
  · have hlt := List.sizeOf_lt_of_mem he
    have hv : sizeOf e.2 < sizeOf e := by cases e; simp only [Prod.mk.sizeOf_spec]; omega
    simp only [Encoding.map.sizeOf_spec]
    omega
  · simp only [Encoding.tagged.sizeOf_spec]
    omega

end Cbor
