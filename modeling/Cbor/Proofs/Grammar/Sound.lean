import Cbor.Proofs.Grammar.Reads
/-! # What the reader accepts is well-formed

The converse of `Encoding.readsBack`: whenever the item reader succeeds, the bytes it went over
are an admitted encoding of the item it gave. With both directions, a successful decode is
exactly an admitted encoding at the front of the input (`Item.decode_ok_iff`).

Reading is followed by `Cursor.Spans`, which says which bytes a read went over; each part of the
reader (argument, payload, chunks, entries) has a lemma building the part of the grammar tree it
read, and the item reader is handled by strong induction on the bytes left, its entry loops by
induction on the bytes left after the container's head.
-/

namespace Cbor

/-- Reading went from `c` to `c'` over the bytes `bs`. -/
def Cursor.Spans (c c' : Cursor) (bs : List UInt8) : Prop :=
  c.rest = bs ++ c'.rest ∧ c'.offset = c.offset + bs.length

namespace Cursor.Spans

theorem refl (c : Cursor) : c.Spans c [] := by simp [Cursor.Spans]

theorem trans {c₁ c₂ c₃ : Cursor} {a b : List UInt8} (h₁ : c₁.Spans c₂ a) (h₂ : c₂.Spans c₃ b) :
    c₁.Spans c₃ (a ++ b) := by
  obtain ⟨hr₁, ho₁⟩ := h₁
  obtain ⟨hr₂, ho₂⟩ := h₂
  refine ⟨by rw [hr₁, hr₂, List.append_assoc], ?_⟩
  simp only [List.length_append]
  omega

theorem cons (o : Nat) (b : UInt8) (rest : List UInt8) :
    (Cursor.mk o (b :: rest)).Spans ⟨o + 1, rest⟩ [b] := by
  simp [Cursor.Spans]

/-- A read that went over `bs` left fewer bytes by the length of `bs`. -/
theorem length_rest {c c' : Cursor} {bs : List UInt8} (h : c.Spans c' bs) :
    c.rest.length = bs.length + c'.rest.length := by
  rw [h.1, List.length_append]

end Cursor.Spans

theorem Cursor.take_spans {c : Cursor} {n : Nat} {bs : List UInt8} {d : c.Ahead}
    (h : c.take n = .ok (bs, d)) : c.Spans d.1 bs ∧ bs.length = n := by
  unfold Cursor.take at h
  split_ifs at h with hn
  simp only [Except.ok.injEq, Prod.mk.injEq] at h
  obtain ⟨rfl, rfl⟩ := h
  have hlen : (c.rest.take n).length = n := by simp [hn]
  exact ⟨⟨(List.take_append_drop n c.rest).symm, by simp only [hlen]⟩, hlen⟩

/-! ### Arguments -/

/-- The argument written in the additional information itself. -/
def Arg.immediate (v : Nat) (h : v < 24) : Arg where
  width := 0
  value := v
  form := by decide
  holds := by simp [formHolds, h]

/-- The argument written in the bytes `bs` after a head whose additional information announces
as many. -/
def Arg.follows (bs : List UInt8) (h : bs.length ∈ argumentForms) (h0 : bs.length ≠ 0) : Arg where
  width := bs.length
  value := bigEndian bs
  form := h
  holds := by simp [formHolds, h0, bigEndian_lt]

/-- An argument the reader read is one the grammar writes: its head form gives the additional
information, and the bytes read are its argument bytes. -/
theorem Cursor.argument_sound {c : Cursor} {info start v : Nat} {d : c.Ahead}
    (h : c.argument info start = .ok (some v, d)) :
    ∃ a : Arg, a.info = info ∧ a.value = v ∧ c.Spans d.1 a.extra := by
  rcases Cursor.argument_eq_some h with ⟨hlt, rfl, rfl⟩ | ⟨w, bs, hi, ht, rfl⟩
  · exact ⟨Arg.immediate v hlt, rfl, rfl, Cursor.Spans.refl c⟩
  · obtain ⟨hs, hl⟩ := Cursor.take_spans ht
    have hw := ofInfo?_follows hi
    have hform : bs.length ∈ argumentForms := by
      simp only [argumentForms, List.mem_cons, List.not_mem_nil, or_false]
      omega
    refine ⟨Arg.follows bs hform (by omega), ?_, rfl, ?_⟩
    · simp only [Arg.info, Arg.follows]
      rcases hw with ⟨rfl, rfl⟩ | ⟨rfl, rfl⟩ | ⟨rfl, rfl⟩ | ⟨rfl, rfl⟩ <;> simp [hl]
    · simpa [Arg.extra, Arg.follows, toBigEndian_bigEndian] using hs

theorem Cursor.definite_sound {c : Cursor} {info start v : Nat} {d : c.Ahead}
    (h : c.definite info start = .ok (v, d)) :
    ∃ a : Arg, a.info = info ∧ a.value = v ∧ c.Spans d.1 a.extra := by
  unfold Cursor.definite at h
  split at h
  · next v' d' ha =>
    simp only [Except.ok.injEq, Prod.mk.injEq] at h
    obtain ⟨rfl, rfl⟩ := h
    exact Cursor.argument_sound ha
  · cases h
  · cases h

theorem Cursor.length_some {c : Cursor} {cfg : Config} {info start v : Nat} {d : c.Ahead}
    (h : c.length cfg info start = .ok (some v, d)) :
    ∃ a : Arg, a.info = info ∧ a.value = v ∧ c.Spans d.1 a.extra := by
  unfold Cursor.length at h
  split at h
  · split_ifs at h
    simp at h
  · exact Cursor.argument_sound h

theorem Cursor.length_none {c : Cursor} {cfg : Config} {info start : Nat} {d : c.Ahead}
    (h : c.length cfg info start = .ok (none, d)) :
    info = 31 ∧ cfg.allowIndefinite = true ∧ d.1 = c := by
  unfold Cursor.length at h
  split at h
  · next d' ha =>
    split_ifs at h with hi
    simp only [Except.ok.injEq, Prod.mk.injEq, true_and] at h
    subst h
    obtain ⟨h31, rfl⟩ := Cursor.argument_eq_none ha
    exact ⟨h31, hi, rfl⟩
  · next r hr =>
    exact (hr d h).elim

theorem Cursor.payload_sound {c : Cursor} {cfg : Config} {len start : Nat} {bs : List UInt8}
    {d : c.Ahead} (h : c.payload cfg len start = .ok (bs, d)) :
    cfg.stringTooLong len = false ∧ c.Spans d.1 bs ∧ bs.length = len := by
  unfold Cursor.payload at h
  split_ifs at h with hl
  exact ⟨by simpa using hl, Cursor.take_spans h⟩

theorem Cursor.chars_sound {c : Cursor} {bs : List UInt8} {first : Nat} {cs : List Char}
    (h : c.chars bs first = .ok cs) : Utf8.encode cs = bs := by
  unfold Cursor.chars at h
  split at h
  · next cs' hd =>
    cases h
    exact Utf8.encode_eq_of_decode hd
  · cases h

/-- An initial byte and the argument bytes after it are the head the grammar writes. -/
theorem Cursor.Spans.head {o : Nat} {b : UInt8} {rest : List UInt8} {c' : Cursor} {m : Major}
    {a : Arg} (hm : (Head.ofByte b).major = m) (hi : a.info = (Head.ofByte b).info)
    (hs : (Cursor.mk (o + 1) rest).Spans c' a.extra) :
    (Cursor.mk o (b :: rest)).Spans c' (a.head m) := by
  have hb : Head.toByte ⟨m, a.info⟩ = b := by rw [hi, ← hm]; exact Head.toByte_ofByte b
  rw [Arg.head, hb]
  exact (Cursor.Spans.cons o b rest).trans hs

/-- The initial byte of an indefinite length is the one the grammar writes. -/
theorem Cursor.Spans.indefinite {o : Nat} {b : UInt8} {rest : List UInt8} {c' : Cursor}
    {m : Major} {bs : List UInt8} (hm : (Head.ofByte b).major = m) (hi : (Head.ofByte b).info = 31)
    (hs : (Cursor.mk (o + 1) rest).Spans c' bs) :
    (Cursor.mk o (b :: rest)).Spans c' (indefiniteByte m :: bs) := by
  have hb : indefiniteByte m = b := by rw [indefiniteByte, ← hi, ← hm]; exact Head.toByte_ofByte b
  rw [hb]
  exact (Cursor.Spans.cons o b rest).trans hs

section Chunks

variable {β : Type} {enc : List β → List UInt8} (cfg : Config) (m : Major)
  (content : List UInt8 → Nat → Cursor → Except Stop (List β))

/-- The chunks an indefinite string reader went over are pieces of the grammar, ending at a
Break, whose contents it gathered and whose lengths the limit admits. -/
theorem Cursor.chunks_sound (hc : ∀ bs first d xs, content bs first d = .ok xs → enc xs = bs)
    (start : Nat) (n : Nat) :
    ∀ (c : Cursor), c.rest.length = n → ∀ (acc : List β) (total : Nat) (ys : List β)
      (d : c.Ahead), cfg.stringTooLong (min total (Nat.pow 2 64 - 1)) = false →
      c.chunks cfg m content start acc total = .ok (ys, d) →
      ∃ ps : List (Piece β enc), ys = acc ++ ps.flatMap Piece.content ∧
        cfg.stringTooLong (min (total + (ps.map fun p => p.len.value).sum)
          (Nat.pow 2 64 - 1)) = false ∧
        c.Spans d.1 ((ps.flatMap fun p => p.bytes m) ++ [breakByte]) := by
  induction n using Nat.strong_induction_on with
  | _ n ih =>
  intro c hn acc total ys d ht h
  obtain ⟨o, _ | ⟨b, rest⟩⟩ := c
  · rw [Cursor.chunks.eq_def] at h
    cases h
  rw [Cursor.chunks.eq_def] at h
  dsimp only at h
  by_cases hb : b = breakByte
  · rw [if_pos hb] at h
    simp only [Except.ok.injEq, Prod.mk.injEq] at h
    obtain ⟨rfl, rfl⟩ := h
    refine ⟨[], by simp, by simpa using ht, ?_⟩
    rw [hb]
    exact Cursor.Spans.cons o breakByte rest
  rw [if_neg hb] at h
  split_ifs at h with hmaj
  split at h
  · cases h
  · cases h
  · next len c2 h2 ha =>
    split_ifs at h with hlim
    split at h
    · cases h
    · next bs c3 h3 htake =>
      split at h
      · cases h
      · next xs hxs =>
        split at h
        · cases h
        · next ys' c4 h4 hrec =>
          simp only [Except.ok.injEq, Prod.mk.injEq] at h
          obtain ⟨rfl, rfl⟩ := h
          obtain ⟨a, hi, rfl, hsa⟩ := Cursor.argument_sound ha
          obtain ⟨hst, hlen⟩ := Cursor.take_spans htake
          have henc := hc _ _ _ _ hxs
          have hlt : c3.rest.length < n := by
            have h₁ := hsa.length_rest
            have h₂ := hst.length_rest
            simp only [List.length_cons] at hn h₁ h₂
            omega
          obtain ⟨ps, rfl, hps, hsr⟩ := ih _ hlt c3 rfl (acc ++ xs) (total + a.value) ys'
            ⟨c4, h4⟩ (by simpa using hlim) hrec
          refine ⟨⟨a, xs, by rw [henc, hlen]⟩ :: ps, by simp, by simpa [Nat.add_assoc] using hps, ?_⟩
          have hs := ((Cursor.Spans.head (not_not.1 hmaj) hi hsa).trans (henc ▸ hst)).trans hsr
          simpa [Piece.bytes, List.append_assoc] using hs

end Chunks

/-- Reading from `c` to `c'` at nesting `depth` went over an admitted encoding of `x`. -/
def Encodes (cfg : Config) (depth : Nat) (c c' : Cursor) (x : Item) : Prop :=
  ∃ e : Encoding, e.Admitted cfg depth ∧ e.item = x ∧ c.Spans c' e.bytes

/-- Every successful read of an item from `c` went over an admitted encoding of it. -/
def ItemSound (cfg : Config) (c : Cursor) : Prop :=
  ∀ depth x (d : c.Past), c.readItem cfg depth = .ok (x, d) → Encodes cfg depth c d.1 x

theorem Cursor.enter_sound {c : Cursor} {cfg : Config} {depth : Nat} {count : Option Nat}
    {start : Nat} (h : c.enter cfg depth count start = .ok ()) :
    depth < cfg.maxDepth ∧ ∀ n, count = some n → cfg.tooManyItems n = false := by
  unfold Cursor.enter at h
  split_ifs at h with hd
  refine ⟨by omega, fun n hn => ?_⟩
  subst hn
  simp only at h
  split_ifs at h with ht
  simpa using ht

/-- A key that equals no key before it keeps the keys distinct. -/
theorem Encoding.KeysDistinct.push {acc : Array (Item × Item)} {k v : Item}
    (h : Encoding.KeysDistinct acc.toList) (hk : acc.any (fun e => e.1.valueEq k) = false) :
    Encoding.KeysDistinct (acc.push (k, v)).toList := by
  rw [← Array.any_toList, List.any_eq_false] at hk
  rw [Array.toList_push, Encoding.KeysDistinct, List.pairwise_append]
  refine ⟨h, List.pairwise_singleton _ _, ?_⟩
  intro e he e' he'
  rw [List.mem_singleton] at he'
  subst he'
  simpa using hk e he

section Loops

variable {cfg : Config}

/-- Where `nextEntry` ends a container it went over the Break of an indefinite one and over
nothing of a definite one, which has no entries left. -/
theorem Cursor.nextEntry_done_spans {c : Cursor} {rem : Option Nat} {seen : Nat} {d : c.Ahead}
    (h : c.nextEntry cfg rem seen = .ok (none, d)) :
    (rem = some 0 ∨ rem = none) ∧ c.Spans d.1 (if rem = none then [breakByte] else []) := by
  rcases Cursor.nextEntry_done h with rfl | ⟨rfl, r, hr, hd⟩
  · have hd : d = c.here := by
      simp only [Cursor.nextEntry, Except.ok.injEq, Prod.mk.injEq, true_and] at h
      exact h.symm
    subst hd
    exact ⟨.inl rfl, by simpa [Cursor.here] using Cursor.Spans.refl c⟩
  · exact ⟨.inr rfl, by simp [hr, hd], by simp [hd]⟩

/-- The entries an array reader went over, after those in `acc`, are admitted encodings of the
items it gathered, followed by a Break when the length is indefinite. -/
theorem Cursor.readArray_sound (depth : Nat) (n : Nat) :
    ∀ (c : Cursor), c.rest.length = n → (∀ c' : Cursor, c'.rest.length ≤ n → ItemSound cfg c') →
    ∀ (remaining : Option Nat) (acc : Array Item) (xs : List Item) (d : c.Ahead),
      (remaining = none → cfg.tooManyItems acc.size = false) →
      c.readArray cfg depth remaining acc = .ok (xs, d) →
      ∃ es : List Encoding, Encoding.AllAdmitted cfg depth es ∧
        xs = acc.toList ++ Encoding.items es ∧
        c.Spans d.1 (Encoding.listBytes es ++ if remaining = none then [breakByte] else []) ∧
        (∀ k, remaining = some k → es.length = k) ∧
        (remaining = none → cfg.tooManyItems (acc.size + es.length) = false) := by
  induction n using Nat.strong_induction_on with
  | _ n ih =>
  intro c hn hitem remaining acc xs d hacc h
  rw [Cursor.readArray.eq_def] at h
  split at h
  · cases h
  · next d' hnext =>
    simp only [Except.ok.injEq, Prod.mk.injEq] at h
    obtain ⟨rfl, rfl⟩ := h
    obtain ⟨hrem, hs⟩ := Cursor.nextEntry_done_spans hnext
    refine ⟨[], trivial, by simp [Encoding.items], by simpa [Encoding.listBytes] using hs, ?_,
      by simpa using hacc⟩
    rcases hrem with rfl | rfl <;> simp
  · next left c1 h1 hnext =>
    split at h
    · cases h
    · next x c2 h2 hx =>
      split at h
      · cases h
      · next xs' c3 h3 hrest =>
        simp only [Except.ok.injEq, Prod.mk.injEq] at h
        obtain ⟨rfl, rfl⟩ := h
        obtain ⟨hc1, hmore⟩ := Cursor.nextEntry_more hnext
        simp only at hc1
        subst hc1
        obtain ⟨e, he, rfl, hse⟩ := hitem c1 (le_of_eq hn) depth x ⟨c2, h2⟩ hx
        have hlt : c2.rest.length < n := by omega
        have hacc' : left = none → cfg.tooManyItems (acc.push e.item).size = false := by
          intro hl
          rcases hmore with ⟨j, _, rfl⟩ | ⟨_, _, _, htoo⟩
          · cases hl
          · simpa using htoo
        obtain ⟨es, hes, rfl, hs, hk, htoo⟩ := ih _ hlt c2 rfl
          (fun c' hc' => hitem c' (by omega)) left (acc.push e.item) xs' ⟨c3, h3⟩ hacc' hrest
        refine ⟨e :: es, ⟨he, hes⟩, by simp [Encoding.items], ?_, ?_, ?_⟩
        · rcases hmore with ⟨j, rfl, rfl⟩ | ⟨rfl, rfl, _⟩
          · simpa [Encoding.listBytes] using hse.trans hs
          · simpa [Encoding.listBytes] using hse.trans hs
        · rcases hmore with ⟨j, rfl, rfl⟩ | ⟨rfl, rfl, _⟩
          · intro k hk'
            simp only [Option.some.injEq] at hk'
            simp [← hk', hk j rfl]
          · intro k hk'
            cases hk'
        · intro hnone
          rcases hmore with ⟨j, rfl, rfl⟩ | ⟨_, rfl, _⟩
          · cases hnone
          · simpa [Nat.add_assoc, Nat.add_comm 1] using htoo rfl

/-- The entries a map reader went over, after those in `acc`, are admitted encodings of the keys
and values it gathered, followed by a Break when the length is indefinite; no key equals an
earlier one when the limits refuse duplicates. -/
theorem Cursor.readMap_sound (depth : Nat) (indefinite : Bool) (n : Nat) :
    ∀ (c : Cursor), c.rest.length = n → (∀ c' : Cursor, c'.rest.length ≤ n → ItemSound cfg c') →
    ∀ (remaining : Option Nat) (acc : Array (Item × Item)) (es : List (Item × Item))
      (d : c.Ahead),
      (remaining = none → cfg.tooManyItems acc.size = false) →
      (cfg.rejectDuplicateKeys = true → Encoding.KeysDistinct acc.toList) →
      c.readMap cfg depth indefinite remaining acc = .ok (es, d) →
      ∃ ens : List (Encoding × Encoding), Encoding.EntriesAdmitted cfg depth ens ∧
        es = acc.toList ++ Encoding.entryItems ens ∧
        c.Spans d.1 (Encoding.entriesBytes ens ++ if remaining = none then [breakByte] else []) ∧
        (∀ k, remaining = some k → ens.length = k) ∧
        (remaining = none → cfg.tooManyItems (acc.size + ens.length) = false) ∧
        (cfg.rejectDuplicateKeys = true →
          Encoding.KeysDistinct (acc.toList ++ Encoding.entryItems ens)) := by
  induction n using Nat.strong_induction_on with
  | _ n ih =>
  intro c hn hitem remaining acc es d hacc hkeys h
  rw [Cursor.readMap.eq_def] at h
  split at h
  · cases h
  · next d' hnext =>
    simp only [Except.ok.injEq, Prod.mk.injEq] at h
    obtain ⟨rfl, rfl⟩ := h
    obtain ⟨hrem, hs⟩ := Cursor.nextEntry_done_spans hnext
    refine ⟨[], trivial, by simp [Encoding.entryItems], by simpa [Encoding.entriesBytes] using hs,
      ?_, by simpa using hacc, by simpa [Encoding.entryItems] using hkeys⟩
    rcases hrem with rfl | rfl <;> simp
  · next left c1 h1 hnext =>
    split at h
    · cases h
    · next k c2 h2 hk =>
      split_ifs at h with hdup htrunc
      split at h
      · cases h
      · next v c3 h3 hv =>
        split at h
        · cases h
        · next es' c4 h4 hrest =>
          simp only [Except.ok.injEq, Prod.mk.injEq] at h
          obtain ⟨rfl, rfl⟩ := h
          obtain ⟨hc1, hmore⟩ := Cursor.nextEntry_more hnext
          simp only at hc1
          subst hc1
          obtain ⟨ek, hek, rfl, hsk⟩ := hitem c1 (le_of_eq hn) depth k ⟨c2, h2⟩ hk
          obtain ⟨ev, hev, rfl, hsv⟩ := hitem c2 (by omega) depth v ⟨c3, h3⟩ hv
          have hlt : c3.rest.length < n := by omega
          have hacc' : left = none → cfg.tooManyItems (acc.push (ek.item, ev.item)).size = false := by
            intro hl
            rcases hmore with ⟨j, _, rfl⟩ | ⟨_, _, _, htoo⟩
            · cases hl
            · simpa using htoo
          have hkeys' : cfg.rejectDuplicateKeys = true →
              Encoding.KeysDistinct (acc.push (ek.item, ev.item)).toList := by
            intro hr
            simp only [hr, Bool.true_and, Bool.not_eq_true] at hdup
            exact (hkeys hr).push hdup
          obtain ⟨ens, hens, rfl, hs, hcount, htoo, hdist⟩ := ih _ hlt c3 rfl
            (fun c' hc' => hitem c' (by omega)) left (acc.push (ek.item, ev.item)) es' ⟨c4, h4⟩
            hacc' hkeys' hrest
          refine ⟨(ek, ev) :: ens, ⟨hek, hev, hens⟩, by simp [Encoding.entryItems], ?_, ?_, ?_,
            ?_⟩
          · rcases hmore with ⟨j, rfl, rfl⟩ | ⟨rfl, rfl, _⟩
            · simpa [Encoding.entriesBytes] using (hsk.trans hsv).trans hs
            · simpa [Encoding.entriesBytes] using (hsk.trans hsv).trans hs
          · rcases hmore with ⟨j, rfl, rfl⟩ | ⟨rfl, rfl, _⟩
            · intro k hk'
              simp only [Option.some.injEq] at hk'
              simp [← hk', hcount j rfl]
            · intro k hk'
              cases hk'
          · intro hnone
            rcases hmore with ⟨j, rfl, rfl⟩ | ⟨_, rfl, _⟩
            · cases hnone
            · simpa [Nat.add_assoc, Nat.add_comm 1] using htoo rfl
          · intro hr
            simpa [Encoding.entryItems] using hdist hr

end Loops

section Items

variable {cfg : Config} {depth o : Nat} {b : UInt8} {rest : List UInt8} {x : Item}
  {d : Cursor.Past ⟨o, b :: rest⟩}

theorem unsigned_sound (hb : b ≠ breakByte) (hm : (Head.ofByte b).major = .unsigned)
    (h : (Cursor.mk o (b :: rest)).readItem cfg depth = .ok (x, d)) :
    Encodes cfg depth ⟨o, b :: rest⟩ d.1 x := by
  rw [Cursor.readItem.eq_def] at h
  dsimp only at h
  rw [if_neg hb, hm] at h
  dsimp only at h
  split at h
  · cases h
  · next v d' hd =>
    simp only [Except.ok.injEq, Prod.mk.injEq] at h
    obtain ⟨rfl, rfl⟩ := h
    obtain ⟨a, hi, rfl, hs⟩ := Cursor.definite_sound hd
    exact ⟨.unsigned a, trivial, rfl, Cursor.Spans.head hm hi hs⟩

theorem negative_sound (hb : b ≠ breakByte) (hm : (Head.ofByte b).major = .negative)
    (h : (Cursor.mk o (b :: rest)).readItem cfg depth = .ok (x, d)) :
    Encodes cfg depth ⟨o, b :: rest⟩ d.1 x := by
  rw [Cursor.readItem.eq_def] at h
  dsimp only at h
  rw [if_neg hb, hm] at h
  dsimp only at h
  split at h
  · cases h
  · next v d' hd =>
    split_ifs at h with hw
    simp only [Except.ok.injEq, Prod.mk.injEq] at h
    obtain ⟨rfl, rfl⟩ := h
    obtain ⟨a, hi, rfl, hs⟩ := Cursor.definite_sound hd
    refine ⟨.negative a, ?_, rfl, Cursor.Spans.head hm hi hs⟩
    -- the check refuses a wide argument unless the limits allow it
    cases haw : cfg.allowWideNegative
    · simp only [haw, Bool.not_false, Bool.true_and, decide_eq_true_eq, Nat.not_le] at hw
      exact Or.inr hw
    · exact Or.inl haw

theorem bytes_sound (hb : b ≠ breakByte) (hm : (Head.ofByte b).major = .bytes)
    (h : (Cursor.mk o (b :: rest)).readItem cfg depth = .ok (x, d)) :
    Encodes cfg depth ⟨o, b :: rest⟩ d.1 x := by
  rw [Cursor.readItem.eq_def] at h
  dsimp only at h
  rw [if_neg hb, hm] at h
  dsimp only at h
  split at h
  · cases h
  · next len c2 h2 hl =>
    split at h
    · cases h
    · next bs c3 h3 hp =>
      simp only [Except.ok.injEq, Prod.mk.injEq] at h
      obtain ⟨rfl, rfl⟩ := h
      obtain ⟨a, hi, rfl, hs⟩ := Cursor.length_some hl
      obtain ⟨hlim, hs', hlen⟩ := Cursor.payload_sound hp
      exact ⟨.byteString (.definite ⟨a, bs, hlen⟩), hlim, rfl, (Cursor.Spans.head hm hi hs).trans hs'⟩
  · next c2 h2 hl =>
    split at h
    · cases h
    · next bs c3 h3 hch =>
      simp only [Except.ok.injEq, Prod.mk.injEq] at h
      obtain ⟨rfl, rfl⟩ := h
      obtain ⟨hi, hind, rfl⟩ := Cursor.length_none hl
      obtain ⟨ps, rfl, hlim, hs⟩ := @Cursor.chunks_sound UInt8 id cfg .bytes _
        (fun _ _ _ _ h => by cases h; rfl) o _ _ rfl [] 0 _ _ (by simp [Config.stringTooLong_zero]) hch
      refine ⟨.byteString (.chunked ps), ⟨hind, by simpa using hlim⟩,
        by simp [Encoding.item, Str.content], ?_⟩
      simpa [Encoding.bytes, Str.bytes] using Cursor.Spans.indefinite hm hi hs

theorem text_sound (hb : b ≠ breakByte) (hm : (Head.ofByte b).major = .text)
    (h : (Cursor.mk o (b :: rest)).readItem cfg depth = .ok (x, d)) :
    Encodes cfg depth ⟨o, b :: rest⟩ d.1 x := by
  rw [Cursor.readItem.eq_def] at h
  dsimp only at h
  rw [if_neg hb, hm] at h
  dsimp only at h
  split at h
  · cases h
  · next len c2 h2 hl =>
    split at h
    · cases h
    · next bs c3 h3 hp =>
      split at h
      · cases h
      · next cs hcs =>
        simp only [Except.ok.injEq, Prod.mk.injEq] at h
        obtain ⟨rfl, rfl⟩ := h
        obtain ⟨a, hi, rfl, hs⟩ := Cursor.length_some hl
        obtain ⟨hlim, hs', hlen⟩ := Cursor.payload_sound hp
        have henc := Cursor.chars_sound hcs
        refine ⟨.textString (.definite ⟨a, cs, by rw [henc, hlen]⟩), hlim, rfl, ?_⟩
        exact (Cursor.Spans.head hm hi hs).trans (henc ▸ hs')
  · next c2 h2 hl =>
    split at h
    · cases h
    · next cs c3 h3 hch =>
      simp only [Except.ok.injEq, Prod.mk.injEq] at h
      obtain ⟨rfl, rfl⟩ := h
      obtain ⟨hi, hind, rfl⟩ := Cursor.length_none hl
      obtain ⟨ps, rfl, hlim, hs⟩ := @Cursor.chunks_sound Char Utf8.encode cfg .text _
        (fun _ _ _ _ h => Cursor.chars_sound h) o _ _ rfl [] 0 _ _
        (by simp [Config.stringTooLong_zero]) hch
      refine ⟨.textString (.chunked ps), ⟨hind, by simpa using hlim⟩,
        by simp [Encoding.item, Str.content], ?_⟩
      simpa [Encoding.bytes, Str.bytes] using Cursor.Spans.indefinite hm hi hs

/-- A read that went over an initial byte and the bytes after it that an encoding writes. -/
theorem encodes_of_bytes (e : Encoding) (ha : e.Admitted cfg depth) {bs : List UInt8}
    {c' : Cursor} (he : e.bytes = b :: bs) (hs : (Cursor.mk (o + 1) rest).Spans c' bs) :
    Encodes cfg depth ⟨o, b :: rest⟩ c' e.item :=
  ⟨e, ha, rfl, he ▸ (Cursor.Spans.cons o b rest).trans hs⟩

theorem simple_sound (hb : b ≠ breakByte) (hm : (Head.ofByte b).major = .simple)
    (h : (Cursor.mk o (b :: rest)).readItem cfg depth = .ok (x, d)) :
    Encodes cfg depth ⟨o, b :: rest⟩ d.1 x := by
  rw [Cursor.readItem.eq_def] at h
  dsimp only at h
  rw [if_neg hb, hm] at h
  dsimp only at h
  split at h
  · cases h
  · next y d' hs =>
    simp only [Except.ok.injEq, Prod.mk.injEq] at h
    obtain ⟨rfl, rfl⟩ := h
    have hbyte : b = Head.toByte ⟨.simple, (Head.ofByte b).info⟩ := by
      rw [← hm]
      exact (Head.toByte_ofByte b).symm
    generalize (Head.ofByte b).info = info at hs hbyte
    subst hbyte
    rcases simpleInfo_cases info with hlt | rfl | rfl | rfl | rfl | rfl | rfl | rfl | rfl | h28
    · rw [Cursor.simple_small _ hlt] at hs
      simp only [Except.ok.injEq, Prod.mk.injEq] at hs
      obtain ⟨rfl, rfl⟩ := hs
      have hv : info.toUInt8.toNat = info := Utf8.toNat_toUInt8 (by omega)
      refine encodes_of_bytes (.simple info.toUInt8 (Or.inl (by omega))) trivial ?_
        (Cursor.Spans.refl _)
      have hbyte := Head.toByte_ofByte (0xE0 + info.toUInt8)
      rw [ofByte_simple (by omega), hv] at hbyte
      simp [Encoding.bytes, hv, hlt, hbyte]
    · obtain ⟨rfl, rfl⟩ := Prod.mk.inj (Except.ok.inj hs)
      exact encodes_of_bytes (.bool false) trivial (by decide) (Cursor.Spans.refl _)
    · obtain ⟨rfl, rfl⟩ := Prod.mk.inj (Except.ok.inj hs)
      exact encodes_of_bytes (.bool true) trivial (by decide) (Cursor.Spans.refl _)
    · obtain ⟨rfl, rfl⟩ := Prod.mk.inj (Except.ok.inj hs)
      exact encodes_of_bytes .null trivial (by decide) (Cursor.Spans.refl _)
    · obtain ⟨rfl, rfl⟩ := Prod.mk.inj (Except.ok.inj hs)
      exact encodes_of_bytes .undefined trivial (by decide) (Cursor.Spans.refl _)
    · simp only [Cursor.simple, Nat.reduceEqDiff, Nat.reduceLT, reduceIte] at hs
      split at hs
      · cases hs
      · next bs d'' ht =>
        split_ifs at hs with hv
        simp only [Except.ok.injEq, Prod.mk.injEq] at hs
        obtain ⟨rfl, rfl⟩ := hs
        obtain ⟨hsp, hlen⟩ := Cursor.take_spans ht
        obtain ⟨v, rfl⟩ := List.length_eq_one_iff.1 hlen
        have hbe : bigEndian [v] = v.toNat := by simp [bigEndian]
        rw [hbe] at hv ⊢
        rw [Utf8.toUInt8_eq rfl]
        refine encodes_of_bytes (.simple v (Or.inr (by omega))) trivial ?_ hsp
        rw [show Head.toByte ⟨.simple, 24⟩ = 0xF8 by decide]
        simp [Encoding.bytes, show ¬ v.toNat < 20 by omega]
    · simp only [Cursor.simple, Nat.reduceEqDiff, Nat.reduceLT, reduceIte] at hs
      split at hs
      · cases hs
      · next bs d'' ht =>
        simp only [Except.ok.injEq, Prod.mk.injEq] at hs
        obtain ⟨rfl, rfl⟩ := hs
        obtain ⟨hsp, hlen⟩ := Cursor.take_spans ht
        refine encodes_of_bytes (.float (.half (bigEndian bs).toUInt16)) trivial ?_ hsp
        have hlt : bigEndian bs < 65536 := by simpa [hlen] using bigEndian_lt bs
        rw [show Head.toByte ⟨.simple, 25⟩ = 0xF9 by decide]
        simp only [Encoding.bytes, IeeeFloat.encode, List.cons.injEq, true_and]
        simp only [Nat.toUInt16, UInt16.toNat_ofNat', Nat.mod_eq_of_lt hlt]
        simpa [hlen] using toBigEndian_bigEndian bs
    · simp only [Cursor.simple, Nat.reduceEqDiff, Nat.reduceLT, reduceIte] at hs
      split at hs
      · cases hs
      · next bs d'' ht =>
        simp only [Except.ok.injEq, Prod.mk.injEq] at hs
        obtain ⟨rfl, rfl⟩ := hs
        obtain ⟨hsp, hlen⟩ := Cursor.take_spans ht
        refine encodes_of_bytes (.float (.single (bigEndian bs).toUInt32)) trivial ?_ hsp
        have hlt : bigEndian bs < 4294967296 := by simpa [hlen] using bigEndian_lt bs
        rw [show Head.toByte ⟨.simple, 26⟩ = 0xFA by decide]
        simp only [Encoding.bytes, IeeeFloat.encode, List.cons.injEq, true_and]
        simp only [Nat.toUInt32, UInt32.toNat_ofNat', Nat.mod_eq_of_lt hlt]
        simpa [hlen] using toBigEndian_bigEndian bs
    · simp only [Cursor.simple, Nat.reduceEqDiff, Nat.reduceLT, reduceIte] at hs
      split at hs
      · cases hs
      · next bs d'' ht =>
        simp only [Except.ok.injEq, Prod.mk.injEq] at hs
        obtain ⟨rfl, rfl⟩ := hs
        obtain ⟨hsp, hlen⟩ := Cursor.take_spans ht
        refine encodes_of_bytes (.float (.double (bigEndian bs).toUInt64)) trivial ?_ hsp
        have hlt : bigEndian bs < 18446744073709551616 := by simpa [hlen] using bigEndian_lt bs
        rw [show Head.toByte ⟨.simple, 27⟩ = 0xFB by decide]
        simp only [Encoding.bytes, IeeeFloat.encode, List.cons.injEq, true_and]
        simp only [Nat.toUInt64, UInt64.toNat_ofNat', Nat.mod_eq_of_lt hlt]
        simpa [hlen] using toBigEndian_bigEndian bs
    · rw [Cursor.simple_reserved _ h28] at hs
      cases hs

/-- The head of a container read from `b`: its count, or an indefinite length that the limits
admit. -/
theorem Cursor.Spans.openHead_of_length {m : Major} {count : Option Nat}
    {d2 : Cursor.Ahead ⟨o + 1, rest⟩} (hm : (Head.ofByte b).major = m)
    (hl : (Cursor.mk (o + 1) rest).length cfg (Head.ofByte b).info o = .ok (count, d2)) :
    ∃ oa : Option Arg, oa.map Arg.value = count ∧ (oa = none → cfg.allowIndefinite = true) ∧
      (Cursor.mk o (b :: rest)).Spans d2.1 (openHead m oa) := by
  cases count with
  | some len =>
    obtain ⟨a, hi, rfl, hs⟩ := Cursor.length_some hl
    exact ⟨some a, rfl, nofun, Cursor.Spans.head hm hi hs⟩
  | none =>
    obtain ⟨hi, hind, hd⟩ := Cursor.length_none hl
    refine ⟨none, rfl, fun _ => hind, ?_⟩
    rw [hd]
    exact Cursor.Spans.indefinite hm hi (Cursor.Spans.refl _)

theorem closing_eq (oa : Option Arg) :
    closing oa = if oa.map Arg.value = none then [breakByte] else [] := by
  cases oa <;> rfl

section Nested

variable (hih : ∀ c' : Cursor, c'.rest.length ≤ rest.length → ItemSound cfg c')
include hih

theorem tagged_sound (hb : b ≠ breakByte) (hm : (Head.ofByte b).major = .tag)
    (h : (Cursor.mk o (b :: rest)).readItem cfg depth = .ok (x, d)) :
    Encodes cfg depth ⟨o, b :: rest⟩ d.1 x := by
  rw [Cursor.readItem.eq_def] at h
  dsimp only at h
  rw [if_neg hb, hm] at h
  dsimp only at h
  split at h
  · cases h
  · next t c2 h2 ht =>
    split at h
    · cases h
    · next henter =>
      split at h
      · cases h
      · next y c3 h3 hy =>
        simp only [Except.ok.injEq, Prod.mk.injEq] at h
        obtain ⟨rfl, rfl⟩ := h
        obtain ⟨a, hi, rfl, hs⟩ := Cursor.definite_sound ht
        obtain ⟨e, he, rfl, hse⟩ := hih c2 h2 (depth + 1) y ⟨c3, h3⟩ hy
        exact ⟨.tagged a e, ⟨(Cursor.enter_sound henter).1, he⟩, rfl,
          (Cursor.Spans.head hm hi hs).trans hse⟩

theorem array_sound (hb : b ≠ breakByte) (hm : (Head.ofByte b).major = .array)
    (h : (Cursor.mk o (b :: rest)).readItem cfg depth = .ok (x, d)) :
    Encodes cfg depth ⟨o, b :: rest⟩ d.1 x := by
  rw [Cursor.readItem.eq_def] at h
  dsimp only at h
  rw [if_neg hb, hm] at h
  dsimp only at h
  split at h
  · cases h
  · next count c2 h2 hl =>
    split at h
    · cases h
    · next henter =>
      split at h
      · cases h
      · next xs c3 h3 hxs =>
        simp only [Except.ok.injEq, Prod.mk.injEq] at h
        obtain ⟨rfl, rfl⟩ := h
        obtain ⟨hd, hcount⟩ := Cursor.enter_sound henter
        obtain ⟨oa, rfl, hind, hso⟩ := Cursor.Spans.openHead_of_length hm hl
        obtain ⟨es, hes, rfl, hs, hk, htoo⟩ := Cursor.readArray_sound (depth + 1) _ c2 rfl
          (fun c' hc' => hih c' (le_trans hc' h2)) _ #[] xs ⟨c3, h3⟩ (by simp) hxs
        refine ⟨.array oa es, ⟨hd, ⟨?_, ?_⟩, hes⟩, by simp [Encoding.item], ?_⟩
        · cases oa with
          | some a => simpa [← hk a.value rfl] using hcount a.value rfl
          | none => simpa using htoo rfl
        · cases oa with
          | some a => exact (hk a.value rfl).symm
          | none => exact hind rfl
        · simpa [Encoding.bytes, closing_eq, List.append_assoc] using hso.trans hs

theorem map_sound (hb : b ≠ breakByte) (hm : (Head.ofByte b).major = .map)
    (h : (Cursor.mk o (b :: rest)).readItem cfg depth = .ok (x, d)) :
    Encodes cfg depth ⟨o, b :: rest⟩ d.1 x := by
  rw [Cursor.readItem.eq_def] at h
  dsimp only at h
  rw [if_neg hb, hm] at h
  dsimp only at h
  split at h
  · cases h
  · next count c2 h2 hl =>
    split at h
    · cases h
    · next henter =>
      split at h
      · cases h
      · next es c3 h3 hes =>
        simp only [Except.ok.injEq, Prod.mk.injEq] at h
        obtain ⟨rfl, rfl⟩ := h
        obtain ⟨hd, hcount⟩ := Cursor.enter_sound henter
        obtain ⟨oa, rfl, hind, hso⟩ := Cursor.Spans.openHead_of_length hm hl
        obtain ⟨ens, hens, rfl, hs, hk, htoo, hdist⟩ := Cursor.readMap_sound (depth + 1) _ _ c2
          rfl (fun c' hc' => hih c' (le_trans hc' h2)) _ #[] es ⟨c3, h3⟩ (by simp) (by simp [Encoding.KeysDistinct]) hes
        refine ⟨.map oa ens, ⟨hd, ⟨?_, ?_⟩, hens, by simpa using hdist⟩, by simp [Encoding.item], ?_⟩
        · cases oa with
          | some a => simpa [← hk a.value rfl] using hcount a.value rfl
          | none => simpa using htoo rfl
        · cases oa with
          | some a => exact (hk a.value rfl).symm
          | none => exact hind rfl
        · simpa [Encoding.bytes, closing_eq, List.append_assoc] using hso.trans hs

end Nested

end Items

/-- Every read of an item that succeeds went over an admitted encoding of the item it gave. -/
theorem Cursor.itemSound (cfg : Config) (c : Cursor) : ItemSound cfg c := by
  -- strong induction on the bytes left: nested items start after their container's head
  induction hn : c.rest.length using Nat.strong_induction_on generalizing c with
  | _ n ih =>
  intro depth x d h
  obtain ⟨o, _ | ⟨b, rest⟩⟩ := c
  · rw [Cursor.readItem.eq_def] at h
    cases h
  have hb : b ≠ breakByte := by
    intro hb
    rw [Cursor.readItem.eq_def] at h
    dsimp only at h
    rw [if_pos hb] at h
    cases h
  have hih : ∀ c' : Cursor, c'.rest.length ≤ rest.length → ItemSound cfg c' := by
    intro c' hc'
    simp only [List.length_cons] at hn
    exact ih _ (by omega) c' rfl
  cases hm : (Head.ofByte b).major with
  | unsigned => exact unsigned_sound hb hm h
  | negative => exact negative_sound hb hm h
  | bytes => exact bytes_sound hb hm h
  | text => exact text_sound hb hm h
  | array => exact array_sound hih hb hm h
  | map => exact map_sound hih hb hm h
  | tag => exact tagged_sound hih hb hm h
  | simple => exact simple_sound hb hm h

/-- An admitted encoding at the front of the input is decoded, whatever follows it. -/
theorem Encoding.decode_bytes_append (cfg : Config) (e : Encoding) (he : e.Admitted cfg 0)
    (rest : List UInt8) : Item.decode cfg (e.bytes ++ rest) = .ok (e.item, e.bytes.length) := by
  obtain ⟨d, hr, hd⟩ := Encoding.readsBack cfg e 0 he 0 rest
  unfold Item.decode
  split
  · next x d' hr' =>
    obtain ⟨rfl, rfl⟩ := Prod.mk.inj (Except.ok.inj (hr'.symm.trans hr))
    have ho : d'.1.offset = e.bytes.length := by simpa using congrArg Cursor.offset hd
    rw [ho]
  · next s hr' =>
    cases hr'.symm.trans hr

/-- A decode succeeds with `t` and `n` exactly when the first `n` bytes of the input are an
encoding of `t` that the limits admit, at nesting depth 0. -/
theorem Item.decode_ok_iff (cfg : Config) (bytes : List UInt8) (t : Item) (n : Nat) :
    Item.decode cfg bytes = .ok (t, n) ↔
      ∃ e : Encoding, e.bytes = bytes.take n ∧ n ≤ bytes.length ∧ e.item = t ∧
        e.Admitted cfg 0 := by
  constructor
  · intro h
    unfold Item.decode at h
    split at h
    · next x d hr =>
      simp only [Except.ok.injEq, Prod.mk.injEq] at h
      obtain ⟨rfl, rfl⟩ := h
      obtain ⟨e, he, rfl, hrest, hoff⟩ := Cursor.itemSound cfg _ 0 x d hr
      simp only [Cursor.start, Nat.zero_add] at hrest hoff
      refine ⟨e, ?_, ?_, rfl, he⟩
      · rw [hoff, hrest, List.take_left]
      · rw [hoff, hrest, List.length_append]
        omega
    · cases h
  · rintro ⟨e, hbytes, hn, rfl, he⟩
    have hsplit : e.bytes ++ bytes.drop n = bytes := by rw [hbytes, List.take_append_drop]
    have hlen : e.bytes.length = n := by
      rw [hbytes, List.length_take]
      omega
    rw [← hsplit, Encoding.decode_bytes_append cfg e he, hlen]

end Cbor
