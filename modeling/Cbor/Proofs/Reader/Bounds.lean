import Cbor.Proofs.Reader.Sequence
/-! # Reading stays within the input

Every read of the whole-buffer decoder ends within its input. A read that succeeds leaves a
cursor further along the same input; a read that stops reports a fault found no earlier than where
the item began and no later than where reading stopped, and reading stops within the input
(`Cursor.readItem_bounded`). The lengths and counts that a fault reports fit 64 bits, except the
count of an indefinite container, which is at most the input's length since each entry takes a
byte. So a decode, a sequence and the item reader report only offsets within the input, and the
item reader always stands at an offset within the input with the bytes from there on
(`SequenceReader.Reached.standsIn`).

`Cursor.Bounded o c r` says this of a read `r` from `c` inside an item that began at offset `o`.
Each part of the reader has its lemma (`Cursor.take_bounded`, `Cursor.argument_bounded`, …,
`Cursor.chunks_bounded`), and the item reader with its entry loops is handled by strong induction
on the bytes left, as in `Cursor.readItem_moves`.

An indefinite text string is checked chunk by chunk; the payloads of its chunks, joined, decode to
its characters (`Cursor.chunks_text_joined`), so checking the joined text again cannot fail.
-/

namespace Cbor

/-- The lengths and counts a fault reports, for an input of `n` bytes: a string length fits 64
bits, and a container count fits 64 bits or is at most `n`. -/
def ErrorKind.Fits (n : Nat) : ErrorKind → Prop
  | .stringTooLong k => k < 2 ^ 64
  | .tooManyItems k => k < 2 ^ 64 ∨ k ≤ n
  | _ => True

namespace ErrorKind

@[simp] theorem fits_stringTooLong {n k : Nat} : (stringTooLong k).Fits n ↔ k < 2 ^ 64 := Iff.rfl

@[simp] theorem fits_tooManyItems {n k : Nat} :
    (tooManyItems k).Fits n ↔ k < 2 ^ 64 ∨ k ≤ n := Iff.rfl

theorem Fits.mono {n n' : Nat} {kind : ErrorKind} (h : kind.Fits n) (hn : n ≤ n') :
    kind.Fits n' := by
  cases kind with
  | tooManyItems k => exact (fits_tooManyItems.1 h).imp_right (Nat.le_trans · hn)
  | _ => exact h

end ErrorKind

/-- A refused text is refused at a byte it has. -/
theorem Utf8.decode_error_lt {bs : List UInt8} {k : Nat} (h : Utf8.decode bs = .error k) :
    k < bs.length := by
  have prepend_eq_error : ∀ {n c r k}, Utf8.prepend n c r = .error k →
      ∃ k', r = .error k' ∧ k = n + k' := by
    intro n c r k h
    cases r <;> simp_all [Utf8.prepend, eq_comm]
  fun_induction Utf8.decode bs generalizing k
  all_goals first
    | cases h <;> simp
    | rename_i ih
      obtain ⟨k', hk', rfl⟩ := prepend_eq_error h
      have := ih hk'
      simp only [List.length_cons]
      omega

/-- Encoding is compatible with joining. -/
theorem Utf8.encode_flatMap {γ : Type} (l : List γ) (f : γ → List Char) :
    Utf8.encode (l.flatMap f) = l.flatMap fun x => Utf8.encode (f x) := by
  induction l with
  | nil => rfl
  | cons x l ih => rw [List.flatMap_cons, List.flatMap_cons, Utf8.encode_append, ih]

namespace Cursor

/-- The length of the input a cursor reads. -/
def inputLength (c : Cursor) : Nat := c.offset + c.rest.length

/-- A stop inside an item that began at offset `o`, in an input of `n` bytes: the fault was found
at or after `o`, no later than where reading stopped, which is within the input, and what it
reports fits. -/
structure StopsWithin (o n : Nat) (s : Stop) : Prop where
  after : o ≤ s.error.offset
  found_le : s.error.offset ≤ s.readTo
  readTo_le : s.readTo ≤ n
  fits : s.error.kind.Fits n

/-- A read from `c`, inside an item that began at offset `o`, stays within the input: it leaves a
cursor further along the same input, or it stops within the input. -/
def Bounded {α : Type} {P : Cursor → Prop} (o : Nat) (c : Cursor) :
    Except Stop (α × Subtype P) → Prop
  | .ok (_, d) => ∃ bs, c.Spans d.1 bs
  | .error s => StopsWithin o c.inputLength s

section Basics

variable {c c' : Cursor} {bs : List UInt8} {o : Nat}

theorem Spans.inputLength_eq (h : c.Spans c' bs) : c'.inputLength = c.inputLength := by
  obtain ⟨hr, ho⟩ := h
  simp only [inputLength, hr, ho, List.length_append]
  omega

theorem Spans.offset_le (h : c.Spans c' bs) : c.offset ≤ c'.offset := by
  rw [h.2]
  exact Nat.le_add_right _ _

/-- A read that left fewer bytes went over at least one. -/
theorem Spans.offset_lt (h : c.Spans c' bs) (hlt : c'.rest.length < c.rest.length) :
    c.offset < c'.offset := by
  have := h.length_rest
  rw [h.2]
  omega

theorem offset_le_inputLength (c : Cursor) : c.offset ≤ c.inputLength := Nat.le_add_right _ _

theorem StopsWithin.mono {o' n : Nat} {s : Stop} (h : StopsWithin o n s) (ho : o' ≤ o) :
    StopsWithin o' n s :=
  ⟨Nat.le_trans ho h.after, h.found_le, h.readTo_le, h.fits⟩

theorem StopsWithin.of_spans {s : Stop} (h : c.Spans c' bs) (hs : StopsWithin o c'.inputLength s) :
    StopsWithin o c.inputLength s := by
  rwa [← h.inputLength_eq]

/-- A read that began further along the input stays within it as seen from here. -/
theorem Bounded.of_spans {α : Type} {P : Cursor → Prop} {r : Except Stop (α × Subtype P)}
    (h : c.Spans c' bs) (hr : Bounded o c' r) : Bounded o c r := by
  match r, hr with
  | .ok (_, d), ⟨bs', hs⟩ => exact ⟨bs ++ bs', h.trans hs⟩
  | .error _, hs => exact StopsWithin.of_spans h hs

theorem Bounded.mono {α : Type} {P : Cursor → Prop} {r : Except Stop (α × Subtype P)} {o' : Nat}
    (hr : Bounded o c r) (ho : o' ≤ o) : Bounded o' c r := by
  match r, hr with
  | .ok _, h => exact h
  | .error _, h => exact StopsWithin.mono h ho

/-- A stop of a first part of a read is a stop of the whole read. -/
theorem Bounded.stop {α β : Type} {P Q : Cursor → Prop} {r : Except Stop (α × Subtype P)}
    {s : Stop} (hr : Bounded o c r) (h : r = .error s) :
    Bounded o c (.error s : Except Stop (β × Subtype Q)) := by
  subst h
  exact hr

theorem Bounded.stopsWithin {α : Type} {P : Cursor → Prop} {r : Except Stop (α × Subtype P)}
    {s : Stop} (hr : Bounded o c r) (h : r = .error s) : StopsWithin o c.inputLength s := by
  subst h
  exact hr

/-- A read that takes nothing stays where it is. -/
theorem Bounded.here {α : Type} {x : α} : Bounded o c (.ok (x, c.here)) := ⟨[], Spans.refl c⟩

theorem Bounded.spans {α : Type} {P : Cursor → Prop} {r : Except Stop (α × Subtype P)} {x : α}
    {d : Subtype P} (hr : Bounded o c r) (h : r = .ok (x, d)) : ∃ bs, c.Spans d.1 bs := by
  subst h
  exact hr

/-- A fault found at offset `f`, between the start of the item and the cursor `c'` reading
stopped at, is a stop within the input. -/
theorem stopsWithin_stop (h : c.Spans c' bs) {kind : ErrorKind} {f : Nat} (h₁ : o ≤ f)
    (h₂ : f ≤ c'.offset) (hk : kind.Fits c.inputLength) :
    StopsWithin o c.inputLength (c'.stop kind f) := by
  refine ⟨h₁, h₂, ?_, hk⟩
  rw [← h.inputLength_eq]
  exact offset_le_inputLength c'

end Basics

/-! ### Heads, arguments and payloads -/

section Parts

variable {c : Cursor} {o : Nat}

theorem take_bounded (ho : o ≤ c.offset) (n : Nat) : Bounded o c (c.take n) := by
  cases h : c.take n with
  | ok v =>
    obtain ⟨bs, d⟩ := v
    exact ⟨bs, (take_spans h).1⟩
  | error s =>
    unfold take at h
    split_ifs at h
    cases h
    exact stopsWithin_stop (Spans.refl c) ho (Nat.le_refl _) trivial

theorem argument_bounded (info : Nat) {start : Nat} (ho : o ≤ start) (hs : start ≤ c.offset) :
    Bounded o c (c.argument info start) := by
  unfold argument
  split
  · exact stopsWithin_stop (Spans.refl c) ho hs trivial
  · exact ⟨[], Spans.refl c⟩
  · next w _ =>
    have ht := take_bounded (Nat.le_trans ho hs) (c := c) w
    split
    · next bs d hd => exact ht.spans hd
    · next s hst => exact ht.stop hst
  · exact ⟨[], Spans.refl c⟩

theorem definite_bounded (info : Nat) {start : Nat} (ho : o ≤ start) (hs : start ≤ c.offset) :
    Bounded o c (c.definite info start) := by
  have ha := argument_bounded info ho hs (c := c)
  unfold definite
  split
  · next v d hd => exact ha.spans hd
  · exact stopsWithin_stop (Spans.refl c) ho hs trivial
  · next s hst => exact ha.stop hst

theorem length_bounded (cfg : Config) (info : Nat) {start : Nat} (ho : o ≤ start)
    (hs : start ≤ c.offset) : Bounded o c (c.length cfg info start) := by
  have ha := argument_bounded info ho hs (c := c)
  unfold length
  split
  · next d hd =>
    split_ifs
    · exact ha.spans hd
    · exact stopsWithin_stop (Spans.refl c) ho hs trivial
  · exact ha

/-- A definite length comes from an argument, so it fits 64 bits. -/
theorem length_lt {cfg : Config} {info start v : Nat} {d : c.Ahead}
    (h : c.length cfg info start = .ok (some v, d)) : v < 2 ^ 64 := by
  unfold length at h
  split at h
  · split_ifs at h
    simp at h
  · exact argument_lt h

theorem payload_bounded (cfg : Config) {len start : Nat} (hlen : len < 2 ^ 64) (ho : o ≤ start)
    (hs : start ≤ c.offset) : Bounded o c (c.payload cfg len start) := by
  unfold payload
  split_ifs
  · exact stopsWithin_stop (Spans.refl c) ho hs hlen
  · exact take_bounded (Nat.le_trans ho hs) len

/-- A refused text payload, read from `d` to `c`, is refused at one of its bytes. -/
theorem chars_error_within {d : Cursor} {bs : List UInt8} {s : Stop} (hs : d.Spans c bs)
    (h : c.chars bs d.offset = .error s) : StopsWithin d.offset c.inputLength s := by
  unfold chars at h
  split at h
  · cases h
  · next k hk =>
    cases h
    have hlt := Utf8.decode_error_lt hk
    exact stopsWithin_stop (Spans.refl c) (Nat.le_add_right _ _) (by rw [hs.2]; omega) trivial

/-- The count of an indefinite container is one more than the entries read, each of which took a
byte, so it is at most the input's length. -/
theorem nextEntry_bounded (cfg : Config) (remaining : Option Nat) {seen : Nat}
    (ho : o ≤ c.offset) (hseen : seen ≤ c.offset) :
    Bounded o c (c.nextEntry cfg remaining seen) := by
  obtain ⟨p, rest⟩ := c
  unfold nextEntry
  split
  · exact ⟨[], Spans.refl _⟩
  · exact ⟨[], Spans.refl _⟩
  · cases rest with
    | nil => exact stopsWithin_stop (Spans.refl _) ho (Nat.le_refl _) trivial
    | cons b r =>
      dsimp only
      split_ifs
      · exact ⟨[b], Spans.cons p b r⟩
      · refine stopsWithin_stop (Spans.refl _) ho (Nat.le_refl _) ?_
        refine ErrorKind.fits_tooManyItems.2 (Or.inr ?_)
        simp only [inputLength, List.length_cons] at hseen ⊢
        omega
      · exact ⟨[], Spans.refl _⟩

theorem simple_bounded (info : Nat) {start : Nat} (ho : o ≤ start) (hs : start ≤ c.offset) :
    Bounded o c (c.simple info start) := by
  have ht := fun n => take_bounded (Nat.le_trans ho hs) (c := c) n
  have hfloat : ∀ (k : Nat) (f : List UInt8 → IeeeFloat),
      Bounded o c ((c.take k).map fun r => (Item.float (f r.1), r.2)) := by
    intro k f
    cases hr : c.take k with
    | error s => exact (ht k).stop hr
    | ok r => exact (ht k).spans hr
  rcases simpleInfo_cases info with h | rfl | rfl | rfl | rfl | rfl | rfl | rfl | rfl | h
  · rw [simple_small c h]
    exact Bounded.here
  · exact Bounded.here
  · exact Bounded.here
  · exact Bounded.here
  · exact Bounded.here
  · simp only [simple, Nat.reduceEqDiff, Nat.reduceLT, reduceIte]
    split
    · next s hst => exact (ht 1).stop hst
    · next bs d hd =>
      obtain ⟨bs', hsp⟩ := (ht 1).spans hd
      split_ifs
      · exact stopsWithin_stop hsp ho (Nat.le_trans hs hsp.offset_le) trivial
      · exact ⟨bs', hsp⟩
  · rw [(simple_float c start).1]
    exact hfloat 2 fun bs => .half (bigEndian bs).toUInt16
  · rw [(simple_float c start).2.1]
    exact hfloat 4 fun bs => .single (bigEndian bs).toUInt32
  · rw [(simple_float c start).2.2]
    exact hfloat 8 fun bs => .double (bigEndian bs).toUInt64
  · rw [simple_reserved c h]
    exact stopsWithin_stop (Spans.refl c) ho hs trivial

/-- The checks on entering a container refuse for the depth, or for a definite count, which comes
from an argument. -/
theorem enter_error_within {cfg : Config} {depth : Nat} {count : Option Nat} {start : Nat}
    {s : Stop} (h : c.enter cfg depth count start = .error s) (ho : o ≤ start)
    (hs : start ≤ c.offset) (hcount : ∀ n, count = some n → n < 2 ^ 64) :
    StopsWithin o c.inputLength s := by
  unfold enter at h
  split_ifs at h
  · cases h
    exact stopsWithin_stop (Spans.refl c) ho hs trivial
  · split at h
    · next n =>
      split_ifs at h
      cases h
      exact stopsWithin_stop (Spans.refl c) ho hs
        (ErrorKind.fits_tooManyItems.2 (Or.inl (hcount n rfl)))
    · cases h

end Parts

/-! ### Chunks of an indefinite string -/

/-- The chunks of an indefinite string stay within the input, when what a chunk holds is refused,
if at all, within its payload. -/
theorem chunks_bounded {β : Type} (cfg : Config) (m : Major)
    (content : List UInt8 → Nat → Cursor → Except Stop (List β))
    (hcontent : ∀ (bs : List UInt8) (d d' : Cursor) (s : Stop), d.Spans d' bs →
      content bs d.offset d' = .error s →
      StopsWithin d.offset d'.inputLength s)
    {o start : Nat} (ho : o ≤ start) (k : Nat) :
    ∀ (c : Cursor), c.rest.length = k → start ≤ c.offset →
      ∀ (acc : List β) (total : Nat), Bounded o c (c.chunks cfg m content start acc total) := by
  induction k using Nat.strong_induction_on with
  | _ k ih =>
  intro c hk hs acc total
  obtain ⟨p, rest0⟩ := c
  rw [chunks.eq_def]
  cases rest0 with
  | nil => exact stopsWithin_stop (Spans.refl _) (Nat.le_trans ho hs) (Nat.le_refl _) trivial
  | cons b rest =>
  dsimp only at hs ⊢
  have h01 := Spans.cons p b rest
  split_ifs with hb hmaj
  · exact ⟨[b], h01⟩
  · exact stopsWithin_stop h01 (Nat.le_trans ho hs) (Nat.le_succ p) trivial
  have ha := argument_bounded (c := ⟨p + 1, rest⟩) (Head.ofByte b).info (Nat.le_trans ho hs)
    (Nat.le_succ p)
  split
  · next s hst => exact (ha.stop hst).of_spans h01
  · exact stopsWithin_stop h01 (Nat.le_trans ho hs) (Nat.le_succ p) trivial
  · next len c2 h2 hlen =>
    obtain ⟨bs1, h12⟩ := ha.spans hlen
    have h02 := h01.trans h12
    have hs2 : start ≤ c2.offset := Nat.le_trans hs h02.offset_le
    split_ifs
    · -- the gathered length is counted in 64 bits
      refine stopsWithin_stop h02 ho hs2 (ErrorKind.fits_stringTooLong.2 ?_)
      have : Nat.pow 2 64 = 2 ^ 64 := rfl
      omega
    have ht := take_bounded (c := c2) (Nat.le_trans ho hs2) len
    split
    · next s hst => exact (ht.stop hst).of_spans h02
    · next bs c3 h3 hbs =>
      have h23 := (take_spans hbs).1
      have h03 := h02.trans h23
      split
      · next s hst => exact ((hcontent bs c2 c3 s h23 hst).mono (Nat.le_trans ho hs2)).of_spans h03
      · next xs hxs =>
        have hlt : c3.rest.length < k := by
          dsimp only at h2 h3
          simp only [List.length_cons] at hk
          omega
        have hr := ih c3.rest.length hlt c3 rfl (Nat.le_trans hs h03.offset_le) (acc ++ xs)
          (total + len)
        split
        · next s hst => exact (hr.stop hst).of_spans h03
        · next ys c4 h4 hys =>
          obtain ⟨bs4, h34⟩ := hr.spans hys
          exact ⟨_, h03.trans h34⟩

/-- The payloads of the chunks of an indefinite text string, joined, decode to its characters:
each chunk decodes on its own, and decoding is compatible with joining. -/
theorem chunks_text_joined {cfg : Config} {c : Cursor} {start : Nat} {cs : List Char}
    {d : c.Ahead}
    (h : c.chunks cfg .text (fun bs first d => d.chars bs first) start [] 0 = .ok (cs, d)) :
    ∃ ps : List (Piece Char Utf8.encode),
      c.Spans d.1 ((ps.flatMap fun p => p.bytes .text) ++ [breakByte]) ∧
      Utf8.decode (ps.flatMap fun p => Utf8.encode p.content) = .ok cs := by
  obtain ⟨ps, hcs, -, hs⟩ := @chunks_sound Char Utf8.encode cfg .text _
    (fun _ _ _ _ h => chars_sound h) start _ c rfl [] 0 cs d (by simp) h
  refine ⟨ps, hs, ?_⟩
  rw [← Utf8.encode_flatMap, Utf8.decode_encode, hcs, List.nil_append]

/-! ### Items and the entries of containers -/

/-- Every read of an item from `c`, at any depth, stays within the input. -/
def ItemBounded (cfg : Config) (c : Cursor) : Prop :=
  ∀ depth, Bounded c.offset c (c.readItem cfg depth)

section Loops

variable {cfg : Config} {o : Nat}

theorem readArray_bounded (depth : Nat) (k : Nat) :
    ∀ (c : Cursor), c.rest.length = k →
      (∀ c₀ : Cursor, c₀.rest.length ≤ k → ItemBounded cfg c₀) →
      ∀ (remaining : Option Nat) (acc : Array Item), o ≤ c.offset → acc.size ≤ c.offset →
        Bounded o c (c.readArray cfg depth remaining acc) := by
  induction k using Nat.strong_induction_on with
  | _ k ih =>
  intro c hk hitem remaining acc ho hacc
  rw [readArray.eq_def]
  have he := nextEntry_bounded cfg remaining ho hacc
  split
  · next s hst => exact he.stop hst
  · next d hd => exact he.spans hd
  · next left c1 h1 hd =>
    obtain ⟨bs1, h01 : c.Spans c1 bs1⟩ := he.spans hd
    have ho1 := Nat.le_trans ho h01.offset_le
    have hx := hitem c1 (by omega) depth
    split
    · next s hst => exact ((hx.stop hst).mono ho1).of_spans h01
    · next x c2 h2 hxd =>
      obtain ⟨bs2, h12 : c1.Spans c2 bs2⟩ := hx.spans hxd
      have h02 := h01.trans h12
      -- each entry took a byte, so there are no more entries than bytes read
      have hsize : (acc.push x).size ≤ c2.offset := by
        have := h01.offset_le
        have := h12.offset_lt h2
        rw [Array.size_push]
        omega
      have hr := ih c2.rest.length (by omega) c2 rfl (fun c₀ h₀ => hitem c₀ (by omega)) left
        (acc.push x) (Nat.le_trans ho h02.offset_le) hsize
      split
      · next s hst => exact (hr.stop hst).of_spans h02
      · next xs c3 h3 hxs =>
        obtain ⟨bs3, h23⟩ := hr.spans hxs
        exact ⟨_, h02.trans h23⟩

theorem readMap_bounded (depth : Nat) (indefinite : Bool) (k : Nat) :
    ∀ (c : Cursor), c.rest.length = k →
      (∀ c₀ : Cursor, c₀.rest.length ≤ k → ItemBounded cfg c₀) →
      ∀ (remaining : Option Nat) (acc : Array (Item × Item)), o ≤ c.offset →
        acc.size ≤ c.offset → Bounded o c (c.readMap cfg depth indefinite remaining acc) := by
  induction k using Nat.strong_induction_on with
  | _ k ih =>
  intro c hk hitem remaining acc ho hacc
  rw [readMap.eq_def]
  have he := nextEntry_bounded cfg remaining ho hacc
  split
  · next s hst => exact he.stop hst
  · next d hd => exact he.spans hd
  · next left c1 h1 hd =>
    obtain ⟨bs1, h01 : c.Spans c1 bs1⟩ := he.spans hd
    have ho1 := Nat.le_trans ho h01.offset_le
    have hkey := hitem c1 (by omega) depth
    split
    · next s hst => exact ((hkey.stop hst).mono ho1).of_spans h01
    · next key c2 h2 hk2 =>
      obtain ⟨bs2, h12 : c1.Spans c2 bs2⟩ := hkey.spans hk2
      have h02 := h01.trans h12
      have ho2 := Nat.le_trans ho h02.offset_le
      split_ifs
      · exact stopsWithin_stop h02 ho1 h12.offset_le trivial
      · exact stopsWithin_stop h02 ho2 (Nat.le_refl _) trivial
      have hval := hitem c2 (by omega) depth
      split
      · next s hst => exact ((hval.stop hst).mono ho2).of_spans h02
      · next v c3 h3 hv3 =>
        obtain ⟨bs3, h23 : c2.Spans c3 bs3⟩ := hval.spans hv3
        have h03 := h02.trans h23
        have hsize : (acc.push (key, v)).size ≤ c3.offset := by
          have := h01.offset_le
          have := h12.offset_lt h2
          have := h23.offset_le
          rw [Array.size_push]
          omega
        have hr := ih c3.rest.length (by omega) c3 rfl (fun c₀ h₀ => hitem c₀ (by omega)) left
          (acc.push (key, v)) (Nat.le_trans ho h03.offset_le) hsize
        split
        · next s hst => exact (hr.stop hst).of_spans h03
        · next es c4 h4 hes =>
          obtain ⟨bs4, h34⟩ := hr.spans hes
          exact ⟨_, h03.trans h34⟩

end Loops

section Items

variable {cfg : Config} {depth p : Nat} {b : UInt8} {rest : List UInt8}

theorem unsigned_bounded (hb : b ≠ breakByte) (hm : (Head.ofByte b).major = .unsigned) :
    Bounded p ⟨p, b :: rest⟩ ((Cursor.mk p (b :: rest)).readItem cfg depth) := by
  rw [readItem.eq_def]
  dsimp only
  rw [if_neg hb, hm]
  dsimp only
  have hd := definite_bounded (c := ⟨p + 1, rest⟩) (Head.ofByte b).info (Nat.le_refl p)
    (Nat.le_succ p)
  split
  · next s hst => exact (hd.stop hst).of_spans (Spans.cons p b rest)
  · next v d hv =>
    obtain ⟨bs, hs⟩ := hd.spans hv
    exact ⟨_, (Spans.cons p b rest).trans hs⟩

theorem negative_bounded (hb : b ≠ breakByte) (hm : (Head.ofByte b).major = .negative) :
    Bounded p ⟨p, b :: rest⟩ ((Cursor.mk p (b :: rest)).readItem cfg depth) := by
  rw [readItem.eq_def]
  dsimp only
  rw [if_neg hb, hm]
  dsimp only
  have hd := definite_bounded (c := ⟨p + 1, rest⟩) (Head.ofByte b).info (Nat.le_refl p)
    (Nat.le_succ p)
  split
  · next s hst => exact (hd.stop hst).of_spans (Spans.cons p b rest)
  · next v d hv =>
    obtain ⟨bs, hs⟩ := hd.spans hv
    have h0 := (Spans.cons p b rest).trans hs
    split_ifs
    · exact stopsWithin_stop h0 (Nat.le_refl p) h0.offset_le trivial
    · exact ⟨_, h0⟩

theorem bytes_bounded (hb : b ≠ breakByte) (hm : (Head.ofByte b).major = .bytes) :
    Bounded p ⟨p, b :: rest⟩ ((Cursor.mk p (b :: rest)).readItem cfg depth) := by
  rw [readItem.eq_def]
  dsimp only
  rw [if_neg hb, hm]
  dsimp only
  have h01 := Spans.cons p b rest
  have hl := length_bounded (c := ⟨p + 1, rest⟩) cfg (Head.ofByte b).info (Nat.le_refl p)
    (Nat.le_succ p)
  split
  · next s hst => exact (hl.stop hst).of_spans h01
  · next len c2 h2 hlen =>
    obtain ⟨bs, h12⟩ := hl.spans hlen
    have h02 := h01.trans h12
    have hp := payload_bounded (c := c2) cfg (length_lt hlen) (Nat.le_refl p) h02.offset_le
    split
    · next s hst => exact (hp.stop hst).of_spans h02
    · next bs c3 h3 hbs =>
      obtain ⟨bs', h23⟩ := hp.spans hbs
      exact ⟨_, h02.trans h23⟩
  · next c2 h2 hlen =>
    obtain ⟨bs, h12⟩ := hl.spans hlen
    have h02 := h01.trans h12
    have hch := chunks_bounded cfg .bytes (fun bs _ _ => .ok bs) (fun _ _ _ _ _ h => by cases h)
      (Nat.le_refl p) c2.rest.length c2 rfl h02.offset_le [] 0
    split
    · next s hst => exact (hch.stop hst).of_spans h02
    · next bs c3 h3 hbs =>
      obtain ⟨bs', h23⟩ := hch.spans hbs
      exact ⟨_, h02.trans h23⟩

theorem text_bounded (hb : b ≠ breakByte) (hm : (Head.ofByte b).major = .text) :
    Bounded p ⟨p, b :: rest⟩ ((Cursor.mk p (b :: rest)).readItem cfg depth) := by
  rw [readItem.eq_def]
  dsimp only
  rw [if_neg hb, hm]
  dsimp only
  have h01 := Spans.cons p b rest
  have hl := length_bounded (c := ⟨p + 1, rest⟩) cfg (Head.ofByte b).info (Nat.le_refl p)
    (Nat.le_succ p)
  split
  · next s hst => exact (hl.stop hst).of_spans h01
  · next len c2 h2 hlen =>
    obtain ⟨bs, h12⟩ := hl.spans hlen
    have h02 := h01.trans h12
    have hp := payload_bounded (c := c2) cfg (length_lt hlen) (Nat.le_refl p) h02.offset_le
    split
    · next s hst => exact (hp.stop hst).of_spans h02
    · next bs c3 h3 hbs =>
      have h23 := (payload_sound hbs).2.1
      have h03 := h02.trans h23
      split
      · next s hst =>
        exact ((chars_error_within h23 hst).mono h02.offset_le).of_spans h03
      · exact ⟨_, h03⟩
  · next c2 h2 hlen =>
    obtain ⟨bs, h12⟩ := hl.spans hlen
    have h02 := h01.trans h12
    have hch := chunks_bounded cfg .text (fun bs first d => d.chars bs first)
      (fun _ _ _ _ hs h => chars_error_within hs h) (Nat.le_refl p) c2.rest.length c2 rfl
      h02.offset_le [] 0
    split
    · next s hst => exact (hch.stop hst).of_spans h02
    · next cs c3 h3 hcs =>
      obtain ⟨bs', h23⟩ := hch.spans hcs
      exact ⟨_, h02.trans h23⟩

theorem simple_item_bounded (hb : b ≠ breakByte) (hm : (Head.ofByte b).major = .simple) :
    Bounded p ⟨p, b :: rest⟩ ((Cursor.mk p (b :: rest)).readItem cfg depth) := by
  rw [readItem.eq_def]
  dsimp only
  rw [if_neg hb, hm]
  dsimp only
  have hd := simple_bounded (c := ⟨p + 1, rest⟩) (Head.ofByte b).info (Nat.le_refl p)
    (Nat.le_succ p)
  split
  · next s hst => exact (hd.stop hst).of_spans (Spans.cons p b rest)
  · next x d hx =>
    obtain ⟨bs, hs⟩ := hd.spans hx
    exact ⟨_, (Spans.cons p b rest).trans hs⟩

variable (hitem : ∀ c₀ : Cursor, c₀.rest.length ≤ rest.length → ItemBounded cfg c₀)
include hitem

theorem array_bounded (hb : b ≠ breakByte) (hm : (Head.ofByte b).major = .array) :
    Bounded p ⟨p, b :: rest⟩ ((Cursor.mk p (b :: rest)).readItem cfg depth) := by
  rw [readItem.eq_def]
  dsimp only
  rw [if_neg hb, hm]
  dsimp only
  have h01 := Spans.cons p b rest
  have hl := length_bounded (c := ⟨p + 1, rest⟩) cfg (Head.ofByte b).info (Nat.le_refl p)
    (Nat.le_succ p)
  split
  · next s hst => exact (hl.stop hst).of_spans h01
  · next count c2 h2 hcount =>
    obtain ⟨bs, h12⟩ := hl.spans hcount
    have h02 := h01.trans h12
    split
    · next s hst =>
      refine StopsWithin.of_spans h02 (enter_error_within hst (Nat.le_refl p) h02.offset_le ?_)
      rintro n rfl
      exact length_lt hcount
    · have hr := readArray_bounded (depth + 1) c2.rest.length c2 rfl
        (fun c₀ h₀ => hitem c₀ (Nat.le_trans h₀ h2)) count #[] h02.offset_le (Nat.zero_le _)
      split
      · next s hst => exact (hr.stop hst).of_spans h02
      · next xs c3 h3 hxs =>
        obtain ⟨bs', h23⟩ := hr.spans hxs
        exact ⟨_, h02.trans h23⟩

theorem map_bounded (hb : b ≠ breakByte) (hm : (Head.ofByte b).major = .map) :
    Bounded p ⟨p, b :: rest⟩ ((Cursor.mk p (b :: rest)).readItem cfg depth) := by
  rw [readItem.eq_def]
  dsimp only
  rw [if_neg hb, hm]
  dsimp only
  have h01 := Spans.cons p b rest
  have hl := length_bounded (c := ⟨p + 1, rest⟩) cfg (Head.ofByte b).info (Nat.le_refl p)
    (Nat.le_succ p)
  split
  · next s hst => exact (hl.stop hst).of_spans h01
  · next count c2 h2 hcount =>
    obtain ⟨bs, h12⟩ := hl.spans hcount
    have h02 := h01.trans h12
    split
    · next s hst =>
      refine StopsWithin.of_spans h02 (enter_error_within hst (Nat.le_refl p) h02.offset_le ?_)
      rintro n rfl
      exact length_lt hcount
    · have hr := readMap_bounded (depth + 1) count.isNone c2.rest.length c2 rfl
        (fun c₀ h₀ => hitem c₀ (Nat.le_trans h₀ h2)) count #[] h02.offset_le (Nat.zero_le _)
      split
      · next s hst => exact (hr.stop hst).of_spans h02
      · next es c3 h3 hes =>
        obtain ⟨bs', h23⟩ := hr.spans hes
        exact ⟨_, h02.trans h23⟩

theorem tag_bounded (hb : b ≠ breakByte) (hm : (Head.ofByte b).major = .tag) :
    Bounded p ⟨p, b :: rest⟩ ((Cursor.mk p (b :: rest)).readItem cfg depth) := by
  rw [readItem.eq_def]
  dsimp only
  rw [if_neg hb, hm]
  dsimp only
  have h01 := Spans.cons p b rest
  have hd := definite_bounded (c := ⟨p + 1, rest⟩) (Head.ofByte b).info (Nat.le_refl p)
    (Nat.le_succ p)
  split
  · next s hst => exact (hd.stop hst).of_spans h01
  · next t c2 h2 ht =>
    obtain ⟨bs, h12⟩ := hd.spans ht
    have h02 := h01.trans h12
    split
    · next s hst =>
      refine StopsWithin.of_spans h02 (enter_error_within hst (Nat.le_refl p) h02.offset_le ?_)
      rintro n ⟨⟩
    · have hx := (hitem c2 h2 (depth + 1)).mono h02.offset_le
      split
      · next s hst => exact (hx.stop hst).of_spans h02
      · next x c3 h3 hx3 =>
        obtain ⟨bs', h23⟩ := hx.spans hx3
        exact ⟨_, h02.trans h23⟩

end Items

/-- **Every read of an item stays within the input.** It leaves a cursor further along the same
input, or it stops at an offset within the input, reporting a fault found between the start of
the item and that offset, whose lengths and counts fit. -/
theorem readItem_bounded (cfg : Config) (c : Cursor) : ItemBounded cfg c := by
  -- strong induction on the bytes left: the items inside an item are read from fewer bytes
  induction hk : c.rest.length using Nat.strong_induction_on generalizing c with
  | _ k ih =>
  intro depth
  obtain ⟨p, rest0⟩ := c
  cases rest0 with
  | nil =>
    rw [readItem_nil rfl]
    exact stopsWithin_stop (Spans.refl _) (Nat.le_refl p) (Nat.le_refl p) trivial
  | cons b rest =>
    have hitem : ∀ c₀ : Cursor, c₀.rest.length ≤ rest.length → ItemBounded cfg c₀ :=
      fun c₀ h₀ => ih c₀.rest.length (by simp only [← hk, List.length_cons]; omega) c₀ rfl
    by_cases hb : b = breakByte
    · rw [readItem.eq_def]
      dsimp only
      rw [if_pos hb]
      exact stopsWithin_stop (Spans.cons p b rest) (Nat.le_refl p) (Nat.le_succ p) trivial
    cases hm : (Head.ofByte b).major with
    | unsigned => exact unsigned_bounded hb hm
    | negative => exact negative_bounded hb hm
    | bytes => exact bytes_bounded hb hm
    | text => exact text_bounded hb hm
    | array => exact array_bounded hitem hb hm
    | map => exact map_bounded hitem hb hm
    | tag => exact tag_bounded hitem hb hm
    | simple => exact simple_item_bounded hb hm

end Cursor

/-! ### Decoding and reading a sequence -/

/-- A fault of a decode is found within the input, and what it reports fits. -/
theorem Item.decode_error_within {cfg : Config} {d : List UInt8} {e : Error}
    (h : Item.decode cfg d = .error e) : e.offset ≤ d.length ∧ e.kind.Fits d.length := by
  unfold Item.decode at h
  split at h
  · cases h
  · next s hs =>
    cases h
    have hw := (Cursor.readItem_bounded cfg (Cursor.start d) 0).stopsWithin hs
    rw [show (Cursor.start d).inputLength = d.length from Nat.zero_add _] at hw
    exact ⟨hw.found_le.trans hw.readTo_le, hw.fits⟩

/-- A sequence fails within its input: at a Break where an item should start, or in the decode
of an item, moved by where that item starts. -/
theorem Item.decodeAll_error_within {cfg : Config} {d : List UInt8} {e : Error} {ts : List Item}
    (h : Item.decodeAll cfg d = .error ⟨e, ts⟩) : e.offset ≤ d.length ∧ e.kind.Fits d.length := by
  obtain ⟨ds, rest, rfl, -, hfail⟩ := (Item.decodeAll_error_iff cfg _ e ts).1 h
  cases rest with
  | nil => exact hfail.elim
  | cons b r =>
    rw [Item.FailsAt] at hfail
    split_ifs at hfail
    · subst hfail
      exact ⟨by simp, trivial⟩
    · obtain ⟨e', he', rfl⟩ := hfail
      obtain ⟨hle, hfits⟩ := Item.decode_error_within he'
      refine ⟨?_, hfits.mono (by simp)⟩
      simp only [List.length_append]
      omega

namespace SequenceReader

variable {bytes : List UInt8}

/-- The reader stands at an offset within `bytes`, with the bytes from there on. -/
def StandsIn (bytes : List UInt8) (r : SequenceReader) : Prop :=
  ∃ q ≤ bytes.length, r.cursor = ⟨q, bytes.drop q⟩

/-- A cursor further along an input from one that stands within it stands within it. -/
theorem standsIn_of_spans {q : Nat} {c' : Cursor} {bs : List UInt8} (hq : q ≤ bytes.length)
    (h : (Cursor.mk q (bytes.drop q)).Spans c' bs) :
    ∃ q' ≤ bytes.length, c' = ⟨q', bytes.drop q'⟩ := by
  obtain ⟨o', r'⟩ := c'
  obtain ⟨hr, ho⟩ := h
  dsimp only at hr ho
  have hlen := congrArg List.length hr
  simp only [List.length_drop, List.length_append] at hlen
  refine ⟨o', by omega, ?_⟩
  rw [ho, ← List.drop_drop, hr, List.drop_left]

/-- One call to `next` leaves the reader within the input, and a fault it yields is found within
the input. -/
theorem StandsIn.next {r : SequenceReader} (h : r.StandsIn bytes) :
    r.next.2.StandsIn bytes ∧
      ∀ e, r.next.1 = some (.error e) → e.offset ≤ bytes.length ∧ e.kind.Fits bytes.length := by
  obtain ⟨cfg, c, failed⟩ := r
  obtain ⟨q, hq, hc⟩ := h
  dsimp only at hc
  subst hc
  have hn : (Cursor.mk q (bytes.drop q)).inputLength = bytes.length := by
    simp only [Cursor.inputLength, List.length_drop]
    omega
  unfold SequenceReader.next
  dsimp only
  split
  · exact ⟨⟨q, hq, rfl⟩, by simp⟩
  split
  · exact ⟨⟨q, hq, rfl⟩, by simp⟩
  split
  · refine ⟨⟨q, hq, rfl⟩, ?_⟩
    rintro e ⟨⟩
    exact ⟨hq, trivial⟩
  have hb := Cursor.readItem_bounded cfg ⟨q, bytes.drop q⟩ 0
  split
  · next x d hd =>
    obtain ⟨bs, hs⟩ := hb.spans hd
    exact ⟨standsIn_of_spans hq hs, by simp⟩
  · next s hs =>
    have hw := hb.stopsWithin hs
    rw [hn] at hw
    refine ⟨⟨s.readTo, hw.readTo_le, ?_⟩, ?_⟩
    · have hqr : q ≤ s.readTo := hw.after.trans hw.found_le
      simp only [Cursor.skipTo, List.drop_drop, Nat.add_sub_cancel' hqr]
    · rintro e ⟨⟩
      exact ⟨hw.found_le.trans hw.readTo_le, hw.fits⟩

/-- Every reader reached from the start of an input by calls to `next` stands within it. -/
theorem Reached.standsIn {cfg : Config} {r : SequenceReader} (h : Reached cfg bytes r) :
    r.StandsIn bytes := by
  induction h with
  | start => exact ⟨0, Nat.zero_le _, rfl⟩
  | next _ ih => exact ih.next.1

end SequenceReader

/-- **Decoding stays within its input, for every configuration and every input.** A decode gives
an item of at least one byte and at most the input, or a fault found within the input; a sequence
fails only within the input; the item reader always stands within the input with the bytes from
there on, and reports faults only within it; the lengths and counts a fault reports fit 64 bits,
or the input's length for the count of an indefinite container; a container or tag is entered
only below the depth limit, so one level deeper is at most the limit; and the payloads of the
chunks of an indefinite text string, joined, decode to its characters, so checking the joined
text again cannot fail. -/
theorem Item.decode_within_input (cfg : Config) (d : List UInt8) :
    (∀ t n, Item.decode cfg d = .ok (t, n) → 0 < n ∧ n ≤ d.length) ∧
    (∀ e, Item.decode cfg d = .error e → e.offset ≤ d.length ∧ e.kind.Fits d.length) ∧
    (∀ e ts, Item.decodeAll cfg d = .error ⟨e, ts⟩ →
      e.offset ≤ d.length ∧ e.kind.Fits d.length) ∧
    (∀ r, SequenceReader.Reached cfg d r → r.StandsIn d ∧
      ∀ e, r.next.1 = some (.error e) → e.offset ≤ d.length ∧ e.kind.Fits d.length) ∧
    (∀ (c : Cursor) depth count start, c.enter cfg depth count start = .ok () →
      depth + 1 ≤ cfg.maxDepth) ∧
    (∀ (c : Cursor) start cs (c' : c.Ahead),
      c.chunks cfg .text (fun bs first d => d.chars bs first) start [] 0 = .ok (cs, c') →
      ∃ ps : List (Piece Char Utf8.encode),
        c.Spans c'.1 ((ps.flatMap fun p => p.bytes .text) ++ [breakByte]) ∧
        Utf8.decode (ps.flatMap fun p => Utf8.encode p.content) = .ok cs) := by
  refine ⟨fun t n h => ?_, fun e h => Item.decode_error_within h,
    fun e ts h => Item.decodeAll_error_within h, fun r hr => ⟨hr.standsIn, hr.standsIn.next.2⟩,
    fun c depth count start h => (Cursor.enter_sound h).1, fun c start cs c' h => ?_⟩
  · obtain ⟨hpos, hle, -⟩ := Item.decode_ok_take h
    exact ⟨hpos, hle⟩
  · exact Cursor.chunks_text_joined h

end Cbor
