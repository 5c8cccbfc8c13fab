import Cbor.Sequence
import Cbor.Proofs.Incremental.Step
import Cbor.Proofs.Reader
/-! # The incremental decoder follows the whole-buffer reader

The reader of `Cbor.Item.Decode` is a recursion over a cursor; the incremental decoder is a byte
machine with a stack of frames. This module shows that they agree on every input: whatever the
reader does from a cursor, the decoder does when fed the same bytes from a matching state.

The agreement is stated once, as `Agrees`: where the reader returns a result and a cursor, the
decoder has taken exactly the bytes read (`ReadsTo`) and stands between tokens in the state that
result leaves it in; where the reader stops, the decoder fed the whole input ends with the same
error and the items it had (`StopsLike`). The offsets the reader stops at are carried along, but
only the errors are compared: a sequence reports nothing else.

## Main results

* `agrees_argument`: a head and its argument bytes.
* `agrees_readItem`: one item, by strong induction on the bytes left; containers go through
  `agrees_readArray` and `agrees_readMap`, which share what happens between entries
  (`BetweenEntries`), and indefinite strings through `agrees_chunks`, read with the string's frame
  innermost (`InString`).
* `result_readSequence`: the decoder fed a whole sequence ends as `Item.decodeAll` does.
-/

namespace Cbor

/-- A Break is the only initial byte of major type 7 with additional information 31. -/
theorem Head.eq_breakByte_of_ofByte {b : UInt8}
    (h : (Head.ofByte b).major = .simple ∧ (Head.ofByte b).info = 31) : b = breakByte := by
  obtain ⟨hm, hi⟩ := h
  have hlt := b.toNat_lt
  have key : ∀ k < 8, Major.ofBits k = .simple → k = 7 := by decide
  have h7 : b.toNat / 32 = 7 := key _ (by omega) hm
  have hi' : b.toNat % 32 = 31 := hi
  apply UInt8.toNat_inj.mp
  simp only [breakByte, UInt8.reduceToNat]
  omega

namespace IncrementalDecoder

/-! ### The relations -/

/-- The decoder stands between tokens at offset `o` under the limits `cfg`, and has not failed. -/
structure Between (cfg : Config) (o : Nat) (d : IncrementalDecoder) : Prop where
  config : d.config = cfg
  scanner_config : d.scanner.config = cfg
  phase : d.scanner.phase = .head
  offset : d.scanner.offset = o
  fault : d.fault = none

/-- The bytes from cursor `c` up to cursor `c'` take the decoder from `d` to `d'`. -/
def ReadsTo (d : IncrementalDecoder) (c c' : Cursor) (d' : IncrementalDecoder) : Prop :=
  ∃ bs, c.rest = bs ++ c'.rest ∧ c'.offset = c.offset + bs.length ∧ bs.foldl push d = d'

/-- Fed every byte from `c` on, the decoder from `d` ends with the error of `s` and with the
items it had. -/
def StopsLike (d : IncrementalDecoder) (c : Cursor) (s : Stop) : Prop :=
  (c.rest.foldl push d).finish = .error s.error ∧ (c.rest.foldl push d).ready = d.ready

/-- A read from `c` with result `r` and the decoder fed the same bytes from `d` agree: after a
value `x` the decoder has taken the bytes read and waits for a head in the state `next x`; after
a stop it ends as `StopsLike` says. -/
def Agrees {α : Type} {P : Cursor → Prop} (d : IncrementalDecoder) (c : Cursor)
    (r : Except Stop (α × Subtype P)) (next : α → IncrementalDecoder) : Prop :=
  match r with
  | .ok (x, c') => ∃ ts, ReadsTo d c c'.1 ((next x).headAt c'.1.offset ts)
  | .error s => StopsLike d c s

section Relations

variable {d d' d'' : IncrementalDecoder} {c c' c'' : Cursor} {s : Stop}

theorem ReadsTo.trans (h₁ : ReadsTo d c c' d') (h₂ : ReadsTo d' c' c'' d'') :
    ReadsTo d c c'' d'' := by
  obtain ⟨bs, hr, ho, rfl⟩ := h₁
  obtain ⟨bs', hr', ho', rfl⟩ := h₂
  refine ⟨bs ++ bs', ?_, ?_, List.foldl_append⟩
  · rw [hr, hr', List.append_assoc]
  · rw [ho', ho, List.length_append, Nat.add_assoc]

theorem readsTo_push (d : IncrementalDecoder) (o : Nat) (b : UInt8) (rest : List UInt8) :
    ReadsTo d ⟨o, b :: rest⟩ ⟨o + 1, rest⟩ (d.push b) :=
  ⟨[b], rfl, rfl, rfl⟩

theorem StopsLike.of_readsTo (h : ReadsTo d c c' d') (hs : StopsLike d' c' s)
    (hr : d'.ready = d.ready) : StopsLike d c s := by
  obtain ⟨bs, hrest, -, rfl⟩ := h
  obtain ⟨hf, hready⟩ := hs
  rw [StopsLike, hrest, List.foldl_append]
  exact ⟨hf, hready.trans hr⟩

/-- A decoder that failed on the way ends with that failure. -/
theorem StopsLike.of_fault (h : ReadsTo d c c' d') (hf : d'.fault = some s.error)
    (hr : d'.ready = d.ready) : StopsLike d c s :=
  .of_readsTo h ⟨by rw [run_of_fault hf, finish_of_fault hf], by rw [run_of_fault hf]⟩ hr

theorem StopsLike.of_end (hc : c.rest = []) (hf : d.finish = .error s.error) :
    StopsLike d c s := by
  simp [StopsLike, hc, hf]

@[simp] theorem agrees_ok {α : Type} {P : Cursor → Prop} {x : α} {c₁ : Subtype P}
    {next : α → IncrementalDecoder} :
    Agrees d c (.ok (x, c₁)) next ↔ ∃ ts, ReadsTo d c c₁.1 ((next x).headAt c₁.1.offset ts) :=
  Iff.rfl

@[simp] theorem agrees_error {α : Type} {P : Cursor → Prop} {next : α → IncrementalDecoder} :
    Agrees (P := P) d c (.error s) next ↔ StopsLike d c s :=
  Iff.rfl

/-- A read that starts with bytes the decoder has taken, and then agrees with it, agrees from
the start. `hrr` says the two reads give the same results up to `f`, forgetting proofs about
the cursor; `hnext` that the decoder's states after them are the same. -/
theorem Agrees.of_readsTo {α β : Type} {P Q : Cursor → Prop} {r : Except Stop (α × Subtype P)}
    {r' : Except Stop (β × Subtype Q)} {f : α → β} {next' : α → IncrementalDecoder}
    {next : β → IncrementalDecoder} (h : ReadsTo d c c' d') (hr : d'.ready = d.ready)
    (ha : Agrees d' c' r next')
    (hrr : r.map (fun p => (f p.1, p.2.1)) = r'.map (fun p => (p.1, p.2.1)))
    (hnext : ∀ x o ts, (next' x).headAt o ts = (next (f x)).headAt o ts) :
    Agrees d c r' next := by
  rcases r with s | ⟨x, c₁⟩ <;> rcases r' with s' | ⟨y, c₂⟩ <;>
    simp only [Except.map, Except.error.injEq, reduceCtorEq, Except.ok.injEq, Prod.mk.injEq]
      at hrr
  · rw [← hrr]
    exact StopsLike.of_readsTo h ha hr
  · obtain ⟨ts, hts⟩ := ha
    obtain ⟨rfl, hc⟩ := hrr
    refine ⟨ts, h.trans ?_⟩
    rw [← hc, ← hnext]
    exact hts

end Relations

/-! ### A head and its argument -/

theorem Between.push_head {cfg : Config} {o : Nat} {d : IncrementalDecoder} (hd : Between cfg o d)
    {b : UInt8} (hE : d.EntryOk b) :
    d.push b = d.absorb o (o + 1) (Scanner.afterHead cfg d.scanner.chunking o (Head.ofByte b)) := by
  rw [push_eq_take hd.fault hE, take_head d b hd.phase, hd.offset, hd.scanner_config]

/-- A head other than a Break, of the major type of the string it may be a chunk of, is read by
its additional information. -/
theorem afterHead_of_ne_break {cfg : Config} {ch : Option Chunking} {o : Nat} {b : UInt8}
    (hb : b ≠ breakByte) (hch : (ch.any fun k => k.major ≠ (Head.ofByte b).major) = false) :
    Scanner.afterHead cfg ch o (Head.ofByte b) = match Argument.ofInfo? (Head.ofByte b).info with
      | none => .error ⟨.reservedInfo (Head.ofByte b).info, o⟩
      | some (.immediate v) => Scanner.afterArgument cfg ch o (o + 1) (Head.ofByte b) v
      | some (.follows w) => .ok (.argument (Head.ofByte b) 0 w, none)
      | some .indefinite =>
        (Scanner.indefiniteToken cfg ch (Head.ofByte b) o).map fun t => (.head, some t) := by
  have hnb : ¬ ((Head.ofByte b).major = .simple ∧ (Head.ofByte b).info = 31) :=
    fun h => hb (Head.eq_breakByte_of_ofByte h)
  rw [Scanner.afterHead, if_neg hnb, hch]
  rfl

/-- A Break closes what it closes, read at `o`. -/
theorem Between.push_break {cfg : Config} {o : Nat} {d : IncrementalDecoder}
    (hd : Between cfg o d) : d.push breakByte = (d.headAt (o + 1) o).close o := by
  rw [hd.push_head (entryOk_break d), Scanner.afterHead, if_pos (by decide)]
  rfl

/-- A Break read at `o` is taken, and closes what it closes. -/
theorem readsTo_break {cfg : Config} {o : Nat} {d : IncrementalDecoder} (hd : Between cfg o d)
    (r : List UInt8) : ReadsTo d ⟨o, breakByte :: r⟩ ⟨o + 1, r⟩ ((d.headAt (o + 1) o).close o) := by
  have h := readsTo_push d o breakByte r
  rwa [hd.push_break] at h

/-- Inside an indefinite string, a head of another major type is not a chunk. -/
theorem afterHead_invalidChunk {cfg : Config} {k : Chunking} {o : Nat} {b : UInt8}
    (hb : b ≠ breakByte) (hk : (Head.ofByte b).major ≠ k.major) :
    Scanner.afterHead cfg (some k) o (Head.ofByte b) = .error ⟨.invalidChunk, o⟩ := by
  have hnb : ¬ ((Head.ofByte b).major = .simple ∧ (Head.ofByte b).info = 31) :=
    fun h => hb (Head.eq_breakByte_of_ofByte h)
  have hany : ((some k).any fun c => c.major ≠ (Head.ofByte b).major) = true := by
    simp [Ne.symm hk]
  rw [Scanner.afterHead, if_neg hnb, if_pos hany]

/-- The argument of a string's head: its length limit, then the payload it announces. -/
theorem afterArgument_string {cfg : Config} {h : Head} (hm : h.major = .bytes ∨ h.major = .text)
    (ts off v : Nat) :
    Scanner.afterArgument cfg none ts off h v =
      if cfg.stringTooLong v then .error ⟨.stringTooLong v, ts⟩
      else if v = 0 then (Scanner.stringToken h.major [] off).map fun t => (.head, some t)
      else .ok (.payload h.major #[] v off, none) := by
  rcases hm with hm | hm <;> simp [Scanner.afterArgument, hm]

/-- The argument of a chunk's head: the limit applies to the bytes gathered with it. -/
theorem afterArgument_chunk {cfg : Config} {h : Head} (hm : h.major = .bytes ∨ h.major = .text)
    (k : Chunking) (ts off v : Nat) :
    Scanner.afterArgument cfg (some k) ts off h v =
      if cfg.stringTooLong (min (k.gathered + v) (Nat.pow 2 64 - 1)) then
        .error ⟨.stringTooLong (min (k.gathered + v) (Nat.pow 2 64 - 1)), k.start⟩
      else if v = 0 then (Scanner.stringToken h.major [] off).map fun t => (.head, some t)
      else .ok (.payload h.major #[] v off, none) := by
  rcases hm with hm | hm <;> simp [Scanner.afterArgument, hm]

/-- The head at `o` and the bytes of its argument: the decoder gathers them as the reader reads
them, and a missing or reserved argument stops both alike. -/
theorem agrees_argument {cfg : Config} {o : Nat} {d : IncrementalDecoder} (hd : Between cfg o d)
    {b : UInt8} (rest : List UInt8) (hE : d.EntryOk b) (hb : b ≠ breakByte)
    (hch : (d.scanner.chunking.any fun k => k.major ≠ (Head.ofByte b).major) = false) :
    match (Cursor.mk (o + 1) rest).argument (Head.ofByte b).info o with
    | .error s => StopsLike d ⟨o, b :: rest⟩ s
    | .ok (some v, c₂) => ReadsTo d ⟨o, b :: rest⟩ c₂.1
        (d.absorb o c₂.1.offset
          (Scanner.afterArgument cfg d.scanner.chunking o c₂.1.offset (Head.ofByte b) v))
    | .ok (none, c₂) => c₂.1 = ⟨o + 1, rest⟩ ∧ ReadsTo d ⟨o, b :: rest⟩ c₂.1
        (d.absorb o (o + 1)
          ((Scanner.indefiniteToken cfg d.scanner.chunking (Head.ofByte b) o).map
            fun t => (.head, some t))) := by
  have hpush := hd.push_head hE
  rw [afterHead_of_ne_break hb hch] at hpush
  unfold Cursor.argument
  cases hi : Argument.ofInfo? (Head.ofByte b).info with
  | none =>
    simp only [hi] at hpush
    exact StopsLike.of_fault (readsTo_push d o b rest) (by rw [hpush]; rfl) (by rw [hpush]; rfl)
  | some a =>
    cases a with
    | immediate v =>
      simp only [hi] at hpush
      dsimp only [Cursor.here]
      rw [← hpush]
      exact readsTo_push d o b rest
    | indefinite =>
      simp only [hi] at hpush
      dsimp only [Cursor.here]
      rw [← hpush]
      exact ⟨rfl, readsTo_push d o b rest⟩
    | follows w =>
      simp only [hi] at hpush
      have hw : 0 < w := by rcases ofInfo?_follows hi with h | h | h | h <;> omega
      have hp : (d.push b).scanner.phase = .argument (Head.ofByte b) 0 w := by rw [hpush]; rfl
      have hf : (d.push b).fault = none := by rw [hpush]; exact hd.fault
      unfold Cursor.take
      dsimp only
      by_cases hlen : w ≤ rest.length
      · rw [if_pos hlen]
        dsimp only
        refine (readsTo_push d o b rest).trans ⟨rest.take w, by simp, ?_, ?_⟩
        · simp only [List.length_take, Nat.min_eq_left hlen]
        · rw [run_argument_eq _ hf hp _ (by simp [hlen]) hw, hpush]
          simp only [absorb_absorb_none, absorb_none_tokenStart, absorb_none_offset,
            absorb_none_scanner_config, absorb_none_chunking, hd.scanner_config]
          rfl
      · rw [if_neg hlen]
        dsimp only
        refine StopsLike.of_readsTo (readsTo_push d o b rest) ⟨?_, ?_⟩ (by rw [hpush]; rfl)
        · rw [run_argument_lt _ hf hp rest (by omega)]
          simp [finish, Scanner.pendingSince, hpush, hd.fault, Cursor.stop]
        · rw [run_argument_lt _ hf hp rest (by omega)]

/-! ### Items -/

/-- What must hold of the decoder before the item at `c`: it waits for a head there, outside
any string (neither the scanner's context nor the innermost frame is one); the length limit admits
the entry the item would be; and where the input ends or a Break stands, a frame is open that
turns them into the reader's error. -/
structure AtItem (cfg : Config) (c : Cursor) (d : IncrementalDecoder) : Prop where
  between : Between cfg c.offset d
  chunking : d.scanner.chunking = none
  innermost : d.frames.head?.bind Frame.chunking = none
  entry : ∀ b rest, c.rest = b :: rest → d.EntryOk b
  frames_of_end : c.rest = [] → d.frames ≠ []
  frames_of_break : c.rest.head? = some breakByte → ∃ f F, d.frames = f :: F ∧ f.indefinite = false

/-- The reader's item at `c` and the decoder agree from every state ready for it. -/
def ItemAgrees (cfg : Config) (c : Cursor) : Prop :=
  ∀ d, AtItem cfg c d →
    Agrees d c (c.readItem cfg d.frames.length) (fun x => d.complete x c.offset)

section Heads

variable {cfg : Config} {o : Nat} {b : UInt8} {rest : List UInt8} {d : IncrementalDecoder}

/-- The head at the item's start, read outside any string. -/
theorem AtItem.agrees_argument (ha : AtItem cfg ⟨o, b :: rest⟩ d) (hb : b ≠ breakByte) :
    match (Cursor.mk (o + 1) rest).argument (Head.ofByte b).info o with
    | .error s => StopsLike d ⟨o, b :: rest⟩ s
    | .ok (some v, c₂) => ReadsTo d ⟨o, b :: rest⟩ c₂.1
        (d.absorb o c₂.1.offset (Scanner.afterArgument cfg none o c₂.1.offset (Head.ofByte b) v))
    | .ok (none, c₂) => c₂.1 = ⟨o + 1, rest⟩ ∧ ReadsTo d ⟨o, b :: rest⟩ c₂.1
        (d.absorb o (o + 1)
          ((Scanner.indefiniteToken cfg none (Head.ofByte b) o).map fun t => (.head, some t))) := by
  have h := IncrementalDecoder.agrees_argument ha.between rest (ha.entry b rest rfl) hb
    (by rw [ha.chunking]; rfl)
  rwa [ha.chunking] at h

/-- A head that cannot be indefinite, marked indefinite, is refused as reserved. -/
theorem indefiniteToken_of_definite {h : Head} (hm : h.major.allowsIndefinite = false) :
    Scanner.indefiniteToken cfg none h o = .error ⟨.reservedInfo h.info, o⟩ := by
  obtain ⟨m, i⟩ := h
  cases m <;> simp_all [Scanner.indefiniteToken, Major.allowsIndefinite]

/-- The decoder ends in the error the reader stops with on an indefinite integer or tag. -/
theorem stopsLike_indefinite (hm : (Head.ofByte b).major.allowsIndefinite = false)
    {c₂ : Cursor} (h : ReadsTo d ⟨o, b :: rest⟩ c₂ (d.absorb o (o + 1)
      ((Scanner.indefiniteToken cfg none (Head.ofByte b) o).map fun t => (.head, some t)))) :
    StopsLike d ⟨o, b :: rest⟩ ((Cursor.mk (o + 1) rest).stop (.reservedInfo (Head.ofByte b).info) o) := by
  rw [indefiniteToken_of_definite hm] at h
  exact StopsLike.of_fault h rfl rfl

theorem agrees_unsigned (ha : AtItem cfg ⟨o, b :: rest⟩ d) (hb : b ≠ breakByte)
    (hm : (Head.ofByte b).major = .unsigned) :
    Agrees d ⟨o, b :: rest⟩ ((Cursor.mk o (b :: rest)).readItem cfg d.frames.length)
      (fun x => d.complete x o) := by
  have hA := ha.agrees_argument hb
  rw [Cursor.readItem.eq_def]
  simp only [if_neg hb, hm, Cursor.definite]
  cases hx : (Cursor.mk (o + 1) rest).argument (Head.ofByte b).info o with
  | error s => rw [hx] at hA; exact hA
  | ok r =>
    obtain ⟨_ | v, c₂⟩ := r <;> rw [hx] at hA <;> dsimp only at hA ⊢
    · exact stopsLike_indefinite (by rw [hm]; rfl) hA.2
    · refine ⟨o, ?_⟩
      rw [complete_headAt]
      simpa [Scanner.afterArgument, hm, absorb_head_some, onToken] using hA

theorem agrees_negative (ha : AtItem cfg ⟨o, b :: rest⟩ d) (hb : b ≠ breakByte)
    (hm : (Head.ofByte b).major = .negative) :
    Agrees d ⟨o, b :: rest⟩ ((Cursor.mk o (b :: rest)).readItem cfg d.frames.length)
      (fun x => d.complete x o) := by
  have hA := ha.agrees_argument hb
  rw [Cursor.readItem.eq_def]
  simp only [if_neg hb, hm, Cursor.definite]
  cases hx : (Cursor.mk (o + 1) rest).argument (Head.ofByte b).info o with
  | error s => rw [hx] at hA; exact hA
  | ok r =>
    obtain ⟨_ | v, c₂⟩ := r <;> rw [hx] at hA <;> dsimp only at hA ⊢
    · exact stopsLike_indefinite (by rw [hm]; rfl) hA.2
    · -- the decoder makes the reader's check on the value read back from 64 bits
      have hv : v.toUInt64.toNat = v := by
        have := Cursor.argument_lt hx
        simp only [Nat.toUInt64_eq, UInt64.toNat_ofNat']
        omega
      simp only [Scanner.afterArgument, hm, absorb_head_some, onToken, hv,
        headAt_config, ha.between.config] at hA
      split_ifs at hA ⊢
      · exact StopsLike.of_fault hA rfl rfl
      · exact ⟨o, by rw [complete_headAt]; exact hA⟩

/-- The decoder after the head of a container or tag read at `o`, with frame `f` opened. -/
theorem AtItem.between_opened (ha : AtItem cfg ⟨o, b :: rest⟩ d) (f : Frame) (o' ts : Nat) :
    Between cfg o' { d.headAt o' ts with frames := f :: d.frames } :=
  ⟨ha.between.config, ha.between.scanner_config, rfl, rfl, ha.between.fault⟩

theorem agrees_tag (ha : AtItem cfg ⟨o, b :: rest⟩ d) (hb : b ≠ breakByte)
    (hm : (Head.ofByte b).major = .tag)
    (ih : ∀ c, c.rest.length ≤ rest.length → ItemAgrees cfg c) :
    Agrees d ⟨o, b :: rest⟩ ((Cursor.mk o (b :: rest)).readItem cfg d.frames.length)
      (fun x => d.complete x o) := by
  have hA := ha.agrees_argument hb
  rw [Cursor.readItem.eq_def]
  simp only [if_neg hb, hm, Cursor.definite]
  cases hx : (Cursor.mk (o + 1) rest).argument (Head.ofByte b).info o with
  | error s => rw [hx] at hA; exact hA
  | ok r =>
    obtain ⟨_ | t, ⟨c₂, h₂⟩⟩ := r <;> rw [hx] at hA <;> dsimp only at hA ⊢
    · exact stopsLike_indefinite (by rw [hm]; rfl) hA.2
    · simp only [Scanner.afterArgument, hm, absorb_head_some, onToken] at hA
      unfold Cursor.enter
      by_cases hdeep : cfg.maxDepth ≤ d.frames.length
      · rw [if_pos hdeep]
        rw [openFrame_deep _ _ (by simpa [ha.between.config] using hdeep)] at hA
        exact StopsLike.of_fault hA (by simp [fail, ha.between.config, Cursor.stop]) rfl
      · rw [if_neg hdeep]
        dsimp only
        rw [openFrame_eq (by simpa [ha.between.config] using hdeep) (by simp [Frame.declared])]
          at hA
        simp only [Frame.empty?] at hA
        have hi := ih c₂ (by simp at h₂; omega) _
          ⟨ha.between_opened (.tag o t.toUInt64) c₂.offset o, ha.chunking, rfl,
            fun b' _ _ => entryOk_of_count rfl b', fun _ => List.cons_ne_nil _ _,
            fun _ => ⟨_, _, rfl, rfl⟩⟩
        refine Agrees.of_readsTo hA rfl hi (f := Item.tagged t.toUInt64) ?_ ?_
        · rcases c₂.readItem cfg (d.frames.length + 1) with s | ⟨x, c₃, h₃⟩ <;> rfl
        · intro x o' ts
          rw [complete_tag rfl, complete_headAt, complete_headAt]
          rfl

/-- A token read at `o` that the decoder turns into the item `x`. -/
theorem readsTo_token {c₂ : Cursor} {t : Token} {x : Item}
    (h : ReadsTo d ⟨o, b :: rest⟩ c₂ (d.absorb o c₂.offset (.ok (.head, some t))))
    (ht : (d.headAt c₂.offset o).onToken t o = (d.headAt c₂.offset o).complete x o) :
    ∃ ts, ReadsTo d ⟨o, b :: rest⟩ c₂ ((d.complete x o).headAt c₂.offset ts) :=
  ⟨o, by rw [complete_headAt, ← ht]; exact h⟩

/-- Given the same argument, the reader's simple value is the item of the scanner's token, and an
unassigned simple value in the byte after the head stops both. -/
theorem simple_agrees_token {c : Cursor} {info start v : Nat} {c₂ : c.Ahead}
    (h : c.argument info start = .ok (some v, c₂)) :
    (∃ t x, Scanner.simpleToken info v start = .ok t ∧ c.simple info start = .ok (x, c₂) ∧
        ∀ (d : IncrementalDecoder) s, d.onToken t s = d.complete x s) ∨
      (Scanner.simpleToken info v start = .error ⟨.unsupportedSimple v, start⟩ ∧
        c.simple info start = .error (c₂.1.stop (.unsupportedSimple v) start)) := by
  rcases Cursor.argument_eq_some h with ⟨hlt, hv, rfl⟩ | ⟨w, bs, hw, ht, rfl⟩
  · subst v
    left
    rcases simpleInfo_cases info with h20 | rfl | rfl | rfl | rfl | h | h | h | h | h
    · exact ⟨.simple info.toUInt8, .simple info.toUInt8, Scanner.simpleToken_small h20 info start,
        Cursor.simple_small c h20 start, fun _ _ => rfl⟩
    · exact ⟨_, _, rfl, rfl, fun _ _ => rfl⟩
    · exact ⟨_, _, rfl, rfl, fun _ _ => rfl⟩
    · exact ⟨_, _, rfl, rfl, fun _ _ => rfl⟩
    · exact ⟨_, _, rfl, rfl, fun _ _ => rfl⟩
    -- 24 and up do not fit in the initial byte
    all_goals omega
  · rcases ofInfo?_follows hw with ⟨rfl, rfl⟩ | ⟨rfl, rfl⟩ | ⟨rfl, rfl⟩ | ⟨rfl, rfl⟩
    · by_cases hv : bigEndian bs < 32
      · exact .inr ⟨by rw [Scanner.simpleToken_24, if_pos hv], by simp [Cursor.simple, ht, hv]⟩
      · exact .inl ⟨.simple (bigEndian bs).toUInt8, .simple (bigEndian bs).toUInt8,
          by rw [Scanner.simpleToken_24, if_neg hv], by simp [Cursor.simple, ht, hv], fun _ _ => rfl⟩
    all_goals exact .inl ⟨_, _, rfl, by simp [Cursor.simple, ht], fun _ _ => rfl⟩

theorem agrees_simple (ha : AtItem cfg ⟨o, b :: rest⟩ d) (hb : b ≠ breakByte)
    (hm : (Head.ofByte b).major = .simple) :
    Agrees d ⟨o, b :: rest⟩ ((Cursor.mk o (b :: rest)).readItem cfg d.frames.length)
      (fun x => d.complete x o) := by
  have hA := ha.agrees_argument hb
  rw [Cursor.readItem.eq_def]
  simp only [if_neg hb, hm]
  -- both sides read the argument first, and decide the value from it alike
  cases hx : (Cursor.mk (o + 1) rest).argument (Head.ofByte b).info o with
  | error s =>
    rw [hx] at hA
    rw [Cursor.simple_of_argument_error hx]
    exact hA
  | ok r =>
    obtain ⟨_ | v, c₂⟩ := r <;> rw [hx] at hA <;> dsimp only at hA
    · have h31 := (Cursor.argument_eq_none hx).1
      have hs := stopsLike_indefinite (by rw [hm]; rfl) hA.2
      rw [h31, Cursor.simple_reserved _ (by decide)]
      rwa [h31] at hs
    · simp only [Scanner.afterArgument, hm] at hA
      rcases simple_agrees_token hx with ⟨t, x, ht, hs, hdec⟩ | ⟨ht, hs⟩
      · rw [hs]
        rw [ht] at hA
        exact readsTo_token hA (hdec _ _)
      · rw [hs]
        rw [ht] at hA
        exact StopsLike.of_fault hA rfl rfl

end Heads
/-! ### Strings -/

/-- The payload of a definite string whose argument `len` ended at `c₂`: the scanner gathers
`len` bytes and makes the string's token of them, or runs out where the reader does. -/
theorem readsTo_string {d : IncrementalDecoder} (hf : d.fault = none) (m : Major) (ts len : Nat)
    (c₂ : Cursor) :
    match c₂.take len with
    | .error s => StopsLike (d.absorb ts c₂.offset (if len = 0 then
        (Scanner.stringToken m [] c₂.offset).map (fun t => (.head, some t))
        else .ok (.payload m #[] len c₂.offset, none))) c₂ s
    | .ok (bs, c₃) => ReadsTo (d.absorb ts c₂.offset (if len = 0 then
        (Scanner.stringToken m [] c₂.offset).map (fun t => (.head, some t))
        else .ok (.payload m #[] len c₂.offset, none))) c₂ c₃.1
        (d.absorb ts c₃.1.offset ((Scanner.stringToken m bs c₂.offset).map fun t => (.head, some t))) := by
  unfold Cursor.take
  by_cases hlen : len ≤ c₂.rest.length
  · rw [if_pos hlen]
    dsimp only
    by_cases h0 : len = 0
    · subst h0
      exact ⟨[], by simp, by simp, by simp⟩
    · rw [if_neg h0]
      have hp : (d.absorb ts c₂.offset (.ok (.payload m #[] len c₂.offset, none))).scanner.phase =
          .payload m #[] len c₂.offset := rfl
      refine ⟨c₂.rest.take len, by simp, by simp [hlen], ?_⟩
      rw [run_payload_eq (d.absorb ts c₂.offset (.ok (.payload m #[] len c₂.offset, none))) hf hp _
        (by simp [hlen]) (by omega)]
      simp
  · rw [if_neg hlen]
    dsimp only
    rw [if_neg (by omega)]
    have hp : (d.absorb ts c₂.offset (.ok (.payload m #[] len c₂.offset, none))).scanner.phase =
        .payload m #[] len c₂.offset := rfl
    rw [StopsLike, run_payload_lt (d.absorb ts c₂.offset (.ok (.payload m #[] len c₂.offset, none)))
      hf hp _ (by omega)]
    exact ⟨by simp [finish, Scanner.pendingSince, hf, Cursor.stop], rfl⟩

/-- The decoder between the chunks of an indefinite string of major type `m` whose head is at
`start`, at offset `o`: the string's frame, innermost over the frames `F`, holds the bytes `buf`
gathered so far, and the scanner reads chunks of that string. -/
structure InString (cfg : Config) (o : Nat) (m : Major) (start : Nat) (buf : List UInt8)
    (F : List Frame) (d : IncrementalDecoder) : Prop where
  between : Between cfg o d
  frames : d.frames = .chunks start m buf.toArray :: F
  chunking : d.scanner.chunking = some ⟨m, buf.length, start⟩

/-- How an indefinite-length string of major type `major` is gathered from its chunks: on the
reader's side `content` reads a chunk's elements, on the decoder's `encode` gives the bytes of
elements; the fields after them make the two agree. -/
structure Gathering (β : Type) where
  major : Major
  content : List UInt8 → Nat → Cursor → Except Stop (List β)
  encode : List β → List UInt8
  item : List β → Item
  major_string : major = .bytes ∨ major = .text
  encode_nil : encode [] = []
  encode_append : ∀ xs ys, encode (xs ++ ys) = encode xs ++ encode ys
  content_ok : ∀ {bs first c xs}, content bs first c = .ok xs →
    ∃ t, Scanner.stringToken major bs first = .ok t ∧ t.chunkBytes = some bs ∧ encode xs = bs
  content_error : ∀ {bs first c s}, content bs first c = .error s →
    Scanner.stringToken major bs first = .error s.error
  close : ∀ {d : IncrementalDecoder} {s : Nat} {F : List Frame} (xs : List β) (pos : Nat),
    d.frames = .chunks s major (encode xs).toArray :: F →
      d.close pos = { d with frames := F, scanner := d.scanner.setChunking none }.complete
        (item xs) s

/-- Byte strings: a chunk's payload is its elements. -/
def Gathering.bytes : Gathering UInt8 where
  major := .bytes
  content bs _ _ := .ok bs
  encode := id
  item := .bytes
  major_string := .inl rfl
  encode_nil := rfl
  encode_append _ _ := rfl
  content_ok := by
    intro bs first c xs h
    cases h
    exact ⟨.bytes bs, rfl, rfl, rfl⟩
  content_error := by
    intro bs first c s h
    cases h
  close _ pos h := close_bytes h pos

/-- Text strings: a chunk's payload is decoded on its own, from its first byte on; the bytes
gathered are decoded again when the Break closes the string. -/
def Gathering.text : Gathering Char where
  major := .text
  content bs first d := d.chars bs first
  encode := Utf8.encode
  item xs := .text (String.ofList xs)
  major_string := .inr rfl
  encode_nil := rfl
  encode_append := Utf8.encode_append
  content_ok := by
    intro bs first c xs h
    unfold Cursor.chars at h
    split at h
    · rename_i cs hcs
      cases h
      have henc := Utf8.encode_eq_of_decode hcs
      exact ⟨.text (String.ofList xs), by simp [Scanner.stringToken, hcs],
        by simp [Token.chunkBytes, henc], henc⟩
    · cases h
  content_error := by
    intro bs first c s h
    unfold Cursor.chars at h
    split at h
    · cases h
    · rename_i k hk
      cases h
      simp [Scanner.stringToken, hk, Cursor.stop]
  close xs pos h := close_text h (Utf8.decode_encode xs) pos

/-- The chunks of an indefinite string up to its Break, read with the string's frame innermost
over `F`: the Break takes the frame off and leaves the scanner outside any string. -/
theorem agrees_chunks {β : Type} {cfg : Config} (g : Gathering β) (start : Nat) (F : List Frame)
    (c : Cursor) :
    ∀ (d : IncrementalDecoder) (acc : List β), InString cfg c.offset g.major start (g.encode acc) F d →
      Agrees d c (c.chunks cfg g.major g.content start acc (g.encode acc).length)
        (fun ys => { d with frames := F, scanner := d.scanner.setChunking none }.complete
          (g.item ys) start) := by
  -- by strong induction on the bytes left: each chunk takes at least its head
  suffices h : ∀ n (c : Cursor), c.rest.length = n → ∀ (d : IncrementalDecoder) (acc : List β),
      InString cfg c.offset g.major start (g.encode acc) F d →
      Agrees d c (c.chunks cfg g.major g.content start acc (g.encode acc).length)
        (fun ys => { d with frames := F, scanner := d.scanner.setChunking none }.complete
          (g.item ys) start) from h _ c rfl
  intro n
  induction n using Nat.strongRecOn with
  | ind n ih =>
  rintro ⟨o, rest⟩ hn d acc hd
  -- the string's frame counts no entries, so no byte is refused before it is read
  have hE : ∀ b, d.EntryOk b := entryOk_of_count (by rw [hd.frames]; rfl)
  rw [Cursor.chunks.eq_def]
  cases rest with
  | nil =>
    refine StopsLike.of_end rfl ?_
    rw [finish_open hd.between.fault hd.between.phase (by simp [hd.frames]), hd.between.offset]
    rfl
  | cons b rest =>
    dsimp only
    by_cases hb : b = breakByte
    · rw [if_pos hb]
      subst hb
      refine ⟨o, ?_⟩
      have h := readsTo_break hd.between rest
      rw [g.close (d := d.headAt (o + 1) o) acc o hd.frames] at h
      rw [complete_headAt]
      exact h
    rw [if_neg hb]
    by_cases hmaj : (Head.ofByte b).major = g.major
    swap
    · rw [if_pos hmaj]
      have hpush := hd.between.push_head (hE b)
      rw [hd.chunking, afterHead_invalidChunk hb hmaj] at hpush
      exact StopsLike.of_fault (readsTo_push d o b rest) (by rw [hpush]; rfl) (by rw [hpush]; rfl)
    rw [if_neg (not_not_intro hmaj)]
    have hA := agrees_argument hd.between rest (hE b) hb (by rw [hd.chunking]; simp [hmaj])
    cases hx : (Cursor.mk (o + 1) rest).argument (Head.ofByte b).info o with
    | error s => rw [hx] at hA; exact hA
    | ok r =>
      obtain ⟨_ | len, ⟨c₂, h₂⟩⟩ := r <;> rw [hx] at hA <;> dsimp only at hA ⊢
      · rw [hd.chunking, Scanner.indefiniteToken, Option.isSome_some, if_pos rfl] at hA
        exact StopsLike.of_fault hA.2 rfl rfl
      rw [hd.chunking, afterArgument_chunk (hmaj ▸ g.major_string), hmaj] at hA
      by_cases hlong : cfg.stringTooLong (min ((g.encode acc).length + len) (Nat.pow 2 64 - 1))
      · rw [if_pos hlong]
        rw [if_pos hlong] at hA
        exact StopsLike.of_fault hA rfl rfl
      rw [if_neg hlong]
      rw [if_neg hlong] at hA
      have hS := readsTo_string hd.between.fault g.major o len c₂
      cases ht : c₂.take len with
      | error s =>
        rw [ht] at hS
        have h0 : len ≠ 0 := by
          rintro rfl
          simp [Cursor.take] at ht
        exact StopsLike.of_readsTo hA hS (by rw [if_neg h0]; rfl)
      | ok p =>
        obtain ⟨bs, ⟨c₃, h₃⟩⟩ := p
        rw [ht] at hS
        dsimp only at hS ⊢
        have hAS := hA.trans hS
        cases hc : g.content bs c₂.offset c₃ with
        | error s =>
          rw [g.content_error hc] at hAS
          exact StopsLike.of_fault hAS rfl rfl
        | ok xs =>
          dsimp only
          obtain ⟨t, htok, hbytes, henc⟩ := g.content_ok hc
          rw [htok] at hAS
          change ReadsTo d _ c₃ ((d.headAt c₃.offset o).onToken t o) at hAS
          rw [onToken_chunk (d := d.headAt c₃.offset o) hd.frames hbytes] at hAS
          have hlen : (g.encode (acc ++ xs)).length = (g.encode acc).length + len := by
            rw [g.encode_append, List.length_append, henc, Cursor.length_of_take ht]
          have hi := ih c₃.rest.length (by simp at hn h₂ h₃; omega) c₃ rfl
            { d.headAt c₃.offset o with
              frames := .chunks start g.major ((g.encode acc).toArray ++ bs.toArray) :: F
              scanner := (d.headAt c₃.offset o).scanner.addChunk bs.length } (acc ++ xs)
            ⟨⟨hd.between.config, hd.between.scanner_config, rfl, rfl, hd.between.fault⟩,
              by simp [g.encode_append, henc], by simp [hd.chunking, hlen, Cursor.length_of_take ht]⟩
          rw [hlen] at hi
          refine Agrees.of_readsTo hAS rfl hi (f := id) ?_ ?_
          · rcases c₃.chunks cfg g.major g.content start (acc ++ xs)
              ((g.encode acc).length + len) with s | ⟨ys, c₄, h₄⟩ <;> rfl
          · intro ys o' ts
            rw [complete_headAt, complete_headAt]
            rfl

section Strings

variable {cfg : Config} {o : Nat} {b : UInt8} {rest : List UInt8} {d : IncrementalDecoder}

/-- With no string open, a definite string is an item of its own. -/
theorem AtItem.appendChunk {c : Cursor} (ha : AtItem cfg c d) (o ts : Nat) (bs : List UInt8) :
    (d.headAt o ts).appendChunk bs = none :=
  appendChunk_outside (d := d.headAt o ts) ha.innermost bs

/-- A string opened from a decoder outside any string and closed again leaves its frames and
chunking context as they were: only the scanner's place differs. -/
theorem headAt_open_close (d : IncrementalDecoder) (hch : d.scanner.chunking = none) (m : Major)
    (s o ts o' ts' : Nat) :
    { (d.headAt o ts).openChunks m s with
      frames := d.frames
      scanner := ((d.headAt o ts).openChunks m s).scanner.setChunking none }.headAt o' ts' =
      d.headAt o' ts' := by
  obtain ⟨_, ⟨_, _, _, _, ch⟩, _, _, _⟩ := d
  obtain rfl : ch = none := hch
  rfl

/-- An indefinite string's head opens the string, if the limits admit indefinite lengths. -/
theorem indefiniteToken_string {h : Head} (hm : h.major = .bytes ∨ h.major = .text) :
    Scanner.indefiniteToken cfg none h o =
      if cfg.allowIndefinite then
        .ok (if h.major = .bytes then .bytesStart else .textStart)
      else .error ⟨.indefiniteLength, o⟩ := by
  rcases hm with hm | hm <;> simp [Scanner.indefiniteToken, hm]

/-- The head of an indefinite string of `g`'s type read at `o`: the chunks are read with the
string's frame open, and its Break leaves the decoder as it was, with the string finished. -/
theorem AtItem.agrees_opened {β : Type} (g : Gathering β) (ha : AtItem cfg ⟨o, b :: rest⟩ d)
    (hA : ReadsTo d ⟨o, b :: rest⟩ ⟨o + 1, rest⟩ ((d.headAt (o + 1) o).openChunks g.major o)) :
    Agrees d ⟨o, b :: rest⟩ ((Cursor.mk (o + 1) rest).chunks cfg g.major g.content o [] 0)
      (fun ys => d.complete (g.item ys) o) := by
  have h := agrees_chunks g o d.frames ⟨o + 1, rest⟩ ((d.headAt (o + 1) o).openChunks g.major o) []
    ⟨⟨ha.between.config, ha.between.scanner_config, rfl, rfl, ha.between.fault⟩,
      by simp [g.encode_nil], by simp [g.encode_nil]⟩
  rw [g.encode_nil, List.length_nil] at h
  refine Agrees.of_readsTo hA rfl h (f := id) rfl ?_
  intro ys o' ts
  rw [complete_headAt, complete_headAt, headAt_open_close d ha.chunking]
  rfl

/-- The payload of a definite string whose head is at `o` and whose argument `len` ended at
`c₂`: the length limit and a missing byte stop both alike; otherwise the decoder has taken the
payload and answered the string's token of its bytes. -/
theorem agrees_payload (ha : AtItem cfg ⟨o, b :: rest⟩ d)
    (hm : (Head.ofByte b).major = .bytes ∨ (Head.ofByte b).major = .text) {len : Nat} {c₂ : Cursor}
    (hA : ReadsTo d ⟨o, b :: rest⟩ c₂
      (d.absorb o c₂.offset (Scanner.afterArgument cfg none o c₂.offset (Head.ofByte b) len))) :
    match c₂.payload cfg len o with
    | .error s => StopsLike d ⟨o, b :: rest⟩ s
    | .ok (bs, c₃) => ReadsTo d ⟨o, b :: rest⟩ c₃.1 (d.absorb o c₃.1.offset
        ((Scanner.stringToken (Head.ofByte b).major bs c₂.offset).map fun t => (.head, some t))) := by
  unfold Cursor.payload
  rw [afterArgument_string hm] at hA
  by_cases hlong : cfg.stringTooLong len
  · rw [if_pos hlong]
    rw [if_pos hlong] at hA
    exact StopsLike.of_fault hA rfl rfl
  rw [if_neg hlong]
  rw [if_neg hlong] at hA
  have hS := readsTo_string ha.between.fault (Head.ofByte b).major o len c₂
  cases ht : c₂.take len with
  | error s =>
    rw [ht] at hS
    have h0 : len ≠ 0 := by
      rintro rfl
      simp [Cursor.take] at ht
    exact StopsLike.of_readsTo hA hS (by rw [if_neg h0]; rfl)
  | ok p =>
    rw [ht] at hS
    exact hA.trans hS

theorem agrees_bytes (ha : AtItem cfg ⟨o, b :: rest⟩ d) (hb : b ≠ breakByte)
    (hm : (Head.ofByte b).major = .bytes) :
    Agrees d ⟨o, b :: rest⟩ ((Cursor.mk o (b :: rest)).readItem cfg d.frames.length)
      (fun x => d.complete x o) := by
  have hA := ha.agrees_argument hb
  rw [Cursor.readItem.eq_def]
  simp only [if_neg hb, hm, Cursor.length]
  cases hx : (Cursor.mk (o + 1) rest).argument (Head.ofByte b).info o with
  | error s => rw [hx] at hA; exact hA
  | ok r =>
    obtain ⟨_ | len, ⟨c₂, h₂⟩⟩ := r <;> rw [hx] at hA <;> dsimp only at hA ⊢
    · obtain ⟨rfl, hA⟩ := hA
      rw [indefiniteToken_string (.inl hm), if_pos hm] at hA
      by_cases hind : cfg.allowIndefinite
      · rw [if_pos hind]
        rw [if_pos hind] at hA
        dsimp only
        have hc := ha.agrees_opened Gathering.bytes hA
        dsimp only [Gathering.bytes] at hc
        refine Agrees.of_readsTo ⟨[], rfl, rfl, rfl⟩ rfl hc (f := Item.bytes) ?_ fun _ _ _ => rfl
        rcases (Cursor.mk (o + 1) rest).chunks cfg .bytes (fun bs _ _ => .ok bs) o [] 0 with
          s | ⟨ys, c₃, h₃⟩ <;> rfl
      · rw [if_neg hind]
        rw [if_neg hind] at hA
        exact StopsLike.of_fault hA rfl rfl
    · have hP := agrees_payload ha (.inl hm) hA
      cases hp : c₂.payload cfg len o with
      | error s => rw [hp] at hP; exact hP
      | ok p =>
        obtain ⟨bs, c₃, h₃⟩ := p
        rw [hp, hm] at hP
        dsimp only at hP ⊢
        exact readsTo_token hP (by simp [onToken, ha.appendChunk])

theorem agrees_text (ha : AtItem cfg ⟨o, b :: rest⟩ d) (hb : b ≠ breakByte)
    (hm : (Head.ofByte b).major = .text) :
    Agrees d ⟨o, b :: rest⟩ ((Cursor.mk o (b :: rest)).readItem cfg d.frames.length)
      (fun x => d.complete x o) := by
  have hA := ha.agrees_argument hb
  rw [Cursor.readItem.eq_def]
  simp only [if_neg hb, hm, Cursor.length]
  cases hx : (Cursor.mk (o + 1) rest).argument (Head.ofByte b).info o with
  | error s => rw [hx] at hA; exact hA
  | ok r =>
    obtain ⟨_ | len, ⟨c₂, h₂⟩⟩ := r <;> rw [hx] at hA <;> dsimp only at hA ⊢
    · obtain ⟨rfl, hA⟩ := hA
      rw [indefiniteToken_string (.inr hm), hm] at hA
      by_cases hind : cfg.allowIndefinite
      · rw [if_pos hind]
        rw [if_pos hind] at hA
        dsimp only
        have hc := ha.agrees_opened Gathering.text hA
        dsimp only [Gathering.text] at hc
        refine Agrees.of_readsTo ⟨[], rfl, rfl, rfl⟩ rfl hc (f := fun cs => .text (String.ofList cs))
          ?_ fun _ _ _ => rfl
        rcases (Cursor.mk (o + 1) rest).chunks cfg .text (fun bs first d => d.chars bs first) o
          [] 0 with s | ⟨ys, c₃, h₃⟩ <;> rfl
      · rw [if_neg hind]
        rw [if_neg hind] at hA
        exact StopsLike.of_fault hA rfl rfl
    · have hP := agrees_payload ha (.inr hm) hA
      cases hp : c₂.payload cfg len o with
      | error s => rw [hp] at hP; exact hP
      | ok p =>
        obtain ⟨bs, c₃, h₃⟩ := p
        rw [hp, hm] at hP
        dsimp only at hP ⊢
        -- the payload is decoded as a whole, on both sides
        unfold Cursor.chars
        cases hdec : Utf8.decode bs with
        | error k =>
          simp only [Scanner.stringToken, hdec, if_true, Except.map] at hP
          exact StopsLike.of_fault hP rfl rfl
        | ok cs =>
          simp only [Scanner.stringToken, hdec, if_true, Except.map] at hP
          exact readsTo_token hP (by simp [onToken, ha.appendChunk])

end Strings

/-! ### Containers -/

/-- Where the entries of an indefinite container would go on, the input ends inside it. -/
theorem stopsLike_end_of_frames {cfg : Config} {o : Nat} {d : IncrementalDecoder}
    (hd : Between cfg o d) (hne : d.frames ≠ []) :
    StopsLike d ⟨o, []⟩ ((Cursor.mk o []).stop .unexpectedEnd o) := by
  refine StopsLike.of_end rfl ?_
  rw [finish_open hd.fault hd.phase hne, hd.offset]
  rfl

/-- The decoder between two entries of the array or map whose frame `f` is innermost over the
frames `F`, at offset `o`: `seen` entries so far and, if it is definite, `rem` still to come. -/
structure BetweenEntries (cfg : Config) (o : Nat) (d : IncrementalDecoder) (f : Frame)
    (F : List Frame) (rem : Option Nat) (seen : Nat) : Prop where
  between : Between cfg o d
  chunking : d.scanner.chunking = none
  frames : d.frames = f :: F
  count : Frame.nextEntryCount d.frames = if rem.isNone then some (seen + 1) else none
  indefinite : f.indefinite = rem.isNone
  outside : f.chunking = none

section Entries

variable {cfg : Config} {o : Nat} {c : Cursor} {d : IncrementalDecoder} {f : Frame}
  {F : List Frame} {rem : Option Nat} {seen : Nat}

theorem BetweenEntries.array {s : Nat} {acc : Array Item} (hd : Between cfg o d)
    (hch : d.scanner.chunking = none) (hF : d.frames = .array s acc rem :: F) :
    BetweenEntries cfg o d (.array s acc rem) F rem acc.size :=
  ⟨hd, hch, hF, by cases rem <;> simp [hF, Frame.nextEntryCount], by cases rem <;> rfl, rfl⟩

theorem BetweenEntries.map {s : Nat} {acc : Array (Item × Item)} (hd : Between cfg o d)
    (hch : d.scanner.chunking = none) (hF : d.frames = .map s acc none rem :: F) :
    BetweenEntries cfg o d (.map s acc none rem) F rem acc.size :=
  ⟨hd, hch, hF, by cases rem <;> simp [hF, Frame.nextEntryCount], by cases rem <;> rfl, rfl⟩

/-- Where a container's entries stop before one more (the input ends, or the length limit of an
indefinite container refuses it), the decoder stops alike: it refuses the byte that would begin
the entry, and takes nothing. -/
theorem BetweenEntries.stopsLike {e : Stop} (h : BetweenEntries cfg c.offset d f F rem seen)
    (hne : c.nextEntry cfg rem seen = .error e) : StopsLike d c e := by
  obtain ⟨o, rest⟩ := c
  obtain ⟨rfl, ⟨hnil, rfl⟩ | ⟨b, r, hr, hb, ht, rfl⟩⟩ := Cursor.nextEntry_error hne
  · simp only at hnil
    subst hnil
    exact stopsLike_end_of_frames h.between (by simp [h.frames])
  · simp only at hr
    subst hr
    have hpush := push_of_tooMany h.between.fault (by simp [Scanner.isIdle, h.between.phase]) hb
      (by simpa using h.count) (by rw [h.between.config]; exact ht)
    exact StopsLike.of_fault (readsTo_push d o b r)
      (by rw [hpush]; simp [fail, offset, h.between.offset, Cursor.stop]) (by rw [hpush]; rfl)

/-- Where a container's entries end before a definite count ran out, a Break ended them: the
decoder takes it and closes the innermost frame. -/
theorem BetweenEntries.readsTo_done {c₁ : c.Ahead} (h : BetweenEntries cfg c.offset d f F rem seen)
    (hrem : rem ≠ some 0) (hne : c.nextEntry cfg rem seen = .ok (none, c₁)) :
    rem = none ∧ ReadsTo d c c₁.1 ((d.headAt c₁.1.offset c.offset).close c.offset) := by
  rcases Cursor.nextEntry_done hne with rfl | ⟨rfl, r, hr, hc₁⟩
  · exact absurd rfl hrem
  obtain ⟨o, rest⟩ := c
  simp only at hr
  subst hr
  rw [hc₁]
  exact ⟨rfl, readsTo_break h.between r⟩

/-- Before each entry, the decoder is ready for an item: a definite container admits the entry
by its count, an indefinite one by the limit that `nextEntry` checked, and a Break there is
refused by a definite container's frame. -/
theorem BetweenEntries.atItem {left : Option Nat} {c₁ : c.Ahead}
    (h : BetweenEntries cfg c.offset d f F rem seen)
    (hne : c.nextEntry cfg rem seen = .ok (some left, c₁)) : AtItem cfg c₁.1 d := by
  obtain ⟨hc₁, hleft⟩ := Cursor.nextEntry_more hne
  rw [hc₁]
  refine ⟨h.between, h.chunking, by simp [h.frames, h.outside], ?_, fun _ => by simp [h.frames], ?_⟩
  · rcases hleft with ⟨j, rfl, rfl⟩ | ⟨rfl, rfl, -, ht⟩
    · exact fun b _ _ => entryOk_of_count (by simpa using h.count) b
    · intro b _ _ _ _ n hn
      simp only [h.count, Option.isNone_none, if_true, Option.some.injEq] at hn
      rw [← hn, h.between.config]
      exact ht
  · intro hh
    rcases hleft with ⟨j, rfl, rfl⟩ | ⟨rfl, rfl, ⟨b, r, hr, hb⟩, -⟩
    · exact ⟨f, F, h.frames, by simpa using h.indefinite⟩
    · rw [hr] at hh
      exact absurd (Option.some.inj hh) hb

/-- The entries after one more, read from the state that entry left: the container's item comes
out as from `d`, wherever the scanner stood. -/
theorem ReadsTo.agrees_entries {α : Type} {P Q : Cursor → Prop} {c' : Cursor}
    {r : Except Stop (List α × Subtype P)} {r' : Except Stop (List α × Subtype Q)}
    {g : List α → Item} {s : Nat} {d₁ : IncrementalDecoder} (h : ReadsTo d c c' d₁)
    (hr : d₁.ready = d.ready) (hs : ∀ o ts, { d₁ with frames := F }.headAt o ts = { d with frames := F }.headAt o ts)
    (hl : Agrees d₁ c' r (fun xs => { d₁ with frames := F }.complete (g xs) s))
    (hrr : r.map (fun p => (p.1, p.2.1)) = r'.map (fun p => (p.1, p.2.1))) :
    Agrees d c r' (fun xs => { d with frames := F }.complete (g xs) s) :=
  Agrees.of_readsTo h hr hl (f := id) hrr fun _ o ts => by simp only [complete_headAt, hs, id]

end Entries

/-- The entries of an array from `c` on, with its frame innermost over the frames `F`: `s` is
where the array's head is. -/
theorem agrees_readArray {cfg : Config} {n : Nat} (ih : ∀ c, c.rest.length ≤ n → ItemAgrees cfg c)
    (s : Nat) (F : List Frame) (c : Cursor) (hc : c.rest.length ≤ n) (d : IncrementalDecoder)
    (acc : Array Item) (rem : Option Nat) (hd : Between cfg c.offset d)
    (hch : d.scanner.chunking = none) (hF : d.frames = .array s acc rem :: F) (hrem : rem ≠ some 0) :
    Agrees d c (c.readArray cfg (F.length + 1) rem acc)
      (fun xs => { d with frames := F }.complete (.array xs) s) := by
  -- by strong induction on the bytes left: each entry takes at least one byte
  obtain ⟨m, hm⟩ : ∃ m, c.rest.length = m := ⟨_, rfl⟩
  induction m using Nat.strongRecOn generalizing c d acc rem with
  | ind m ihm =>
  have hE := BetweenEntries.array hd hch hF
  rw [Cursor.readArray.eq_def]
  rcases hne : c.nextEntry cfg rem acc.size with e | ⟨_ | left, ⟨c₁, h₁⟩⟩
  · exact hE.stopsLike hne
  · obtain ⟨rfl, h⟩ := hE.readsTo_done hrem hne
    rw [close_array (d := d.headAt _ _) hF] at h
    exact ⟨c.offset, by rw [complete_headAt]; exact h⟩
  obtain ⟨hc₁, hleft⟩ := Cursor.nextEntry_more hne
  simp only at hc₁
  subst hc₁
  dsimp only
  have hi := ih c₁ hc d (hE.atItem hne)
  rw [hF, List.length_cons] at hi
  cases hr : c₁.readItem cfg (F.length + 1) with
  | error e => rw [hr] at hi; exact hi
  | ok p =>
    obtain ⟨x, c₂, h₂⟩ := p
    rw [hr] at hi
    obtain ⟨ts, hts⟩ := hi
    dsimp only at hts ⊢
    have hlt : c₂.rest.length < m := by omega
    rcases hleft with ⟨j, rfl, rfl⟩ | ⟨rfl, rfl, -, -⟩
    · cases j with
      | zero =>
        rw [complete_array_close hF le_rfl] at hts
        rw [Cursor.readArray_zero]
        exact ⟨ts, hts⟩
      | succ j =>
        rw [complete_array_next hF (by omega), Nat.add_sub_cancel] at hts
        refine hts.agrees_entries rfl (fun _ _ => rfl)
          (ihm _ hlt c₂ (by omega) _ _ _ ⟨hd.config, hd.scanner_config, rfl, rfl, hd.fault⟩ hch
            rfl (by simp) rfl) ?_
        rcases c₂.readArray cfg (F.length + 1) (some (j + 1)) (acc.push x) with
          e | ⟨xs, c₃, h₃⟩ <;> rfl
    · rw [complete_array_open hF] at hts
      refine hts.agrees_entries rfl (fun _ _ => rfl)
        (ihm _ hlt c₂ (by omega) _ _ _ ⟨hd.config, hd.scanner_config, rfl, rfl, hd.fault⟩ hch
          rfl (by simp) rfl) ?_
      rcases c₂.readArray cfg (F.length + 1) none (acc.push x) with e | ⟨xs, c₃, h₃⟩ <;> rfl

/-- The entries of a map from `c` on, with its frame innermost over the frames `F` and waiting
for a key: `s` is where the map's head is. -/
theorem agrees_readMap {cfg : Config} {n : Nat} (ih : ∀ c, c.rest.length ≤ n → ItemAgrees cfg c)
    (s : Nat) (F : List Frame) (c : Cursor) (hc : c.rest.length ≤ n) (d : IncrementalDecoder)
    (acc : Array (Item × Item)) (rem : Option Nat) (hd : Between cfg c.offset d)
    (hch : d.scanner.chunking = none) (hF : d.frames = .map s acc none rem :: F)
    (hrem : rem ≠ some 0) :
    Agrees d c (c.readMap cfg (F.length + 1) rem.isNone rem acc)
      (fun es => { d with frames := F }.complete (.map es) s) := by
  -- by strong induction on the bytes left: each entry takes at least two bytes
  obtain ⟨m, hm⟩ : ∃ m, c.rest.length = m := ⟨_, rfl⟩
  induction m using Nat.strongRecOn generalizing c d acc rem with
  | ind m ihm =>
  have hE := BetweenEntries.map hd hch hF
  rw [Cursor.readMap.eq_def]
  rcases hne : c.nextEntry cfg rem acc.size with e | ⟨_ | left, ⟨c₁, h₁⟩⟩
  · exact hE.stopsLike hne
  · obtain ⟨rfl, h⟩ := hE.readsTo_done hrem hne
    rw [close_map (d := d.headAt _ _) hF] at h
    exact ⟨c.offset, by rw [complete_headAt]; exact h⟩
  obtain ⟨hc₁, hleft⟩ := Cursor.nextEntry_more hne
  simp only at hc₁
  subst hc₁
  dsimp only
  have hi := ih c₁ hc d (hE.atItem hne)
  rw [hF, List.length_cons] at hi
  cases hr : c₁.readItem cfg (F.length + 1) with
  | error e => rw [hr] at hi; exact hi
  | ok p =>
    obtain ⟨k, c₂, h₂⟩ := p
    rw [hr] at hi
    obtain ⟨ts, hts⟩ := hi
    dsimp only at hts ⊢
    by_cases hdup : (cfg.rejectDuplicateKeys && acc.any fun e => e.1.valueEq k) = true
    · rw [if_pos hdup]
      rw [complete_key_dup hF (by rw [hd.config]; exact hdup)] at hts
      exact StopsLike.of_fault hts rfl rfl
    rw [if_neg hdup]
    rw [complete_key hF (by rw [hd.config]; simpa using hdup)] at hts
    have hd₂ : Between cfg c₂.offset
        ({ d with frames := .map s acc (some k) rem :: F }.headAt c₂.offset ts) :=
      ⟨hd.config, hd.scanner_config, rfl, rfl, hd.fault⟩
    by_cases htr : (rem.isNone && c₂.rest.head? = some breakByte) = true
    · rw [if_pos htr]
      obtain ⟨hnone, hhead⟩ : rem = none ∧ c₂.rest.head? = some breakByte := by simpa using htr
      obtain ⟨o₂, rest₂⟩ := c₂
      obtain ⟨r₂, rfl⟩ : ∃ r₂, rest₂ = breakByte :: r₂ := by
        cases rest₂ with
        | nil => cases hhead
        | cons b₂ r₂ => exact ⟨r₂, by simpa using hhead⟩
      have h := readsTo_break hd₂ r₂
      have hclose : ((({ d with frames := .map s acc (some k) rem :: F }.headAt o₂ ts).headAt
          (o₂ + 1) o₂).close o₂).fault = some ⟨.truncatedMapPair, o₂⟩ := by
        simp [close, hnone, fail]
      refine StopsLike.of_fault (hts.trans h) hclose ?_
      simp [close, hnone, fail]
    rw [if_neg htr]
    have hv := ih c₂ (by omega) _ ⟨hd₂, hch, rfl,
      fun b _ _ => entryOk_of_count (by simp [Frame.nextEntryCount]) b, fun _ => by simp,
      fun hh => by
        rcases hleft with ⟨j, rfl, rfl⟩ | ⟨rfl, rfl, -, -⟩
        · exact ⟨_, _, rfl, rfl⟩
        · exact absurd (by simpa using hh) htr⟩
    simp only [headAt_frames, List.length_cons] at hv
    cases hr₂ : c₂.readItem cfg (F.length + 1) with
    | error e =>
      rw [hr₂] at hv
      exact StopsLike.of_readsTo hts hv rfl
    | ok p =>
      obtain ⟨v, c₃, h₃⟩ := p
      rw [hr₂] at hv
      obtain ⟨ts₂, hts₂⟩ := hv
      dsimp only at hts₂ ⊢
      have hall := hts.trans hts₂
      have hlt : c₃.rest.length < m := by omega
      rcases hleft with ⟨j, rfl, rfl⟩ | ⟨rfl, rfl, -, -⟩
      · cases j with
        | zero =>
          rw [complete_value_close rfl le_rfl] at hall
          rw [Cursor.readMap_zero]
          refine ⟨ts₂, ?_⟩
          rw [complete_headAt] at hall ⊢
          exact hall
        | succ j =>
          rw [complete_value_next rfl (by omega), Nat.add_sub_cancel] at hall
          rw [show (some (j + 1 + 1)).isNone = (some (j + 1)).isNone from rfl]
          refine hall.agrees_entries rfl (fun _ _ => rfl)
            (ihm _ hlt c₃ (by omega) _ _ _ ⟨hd.config, hd.scanner_config, rfl, rfl, hd.fault⟩
              hch rfl (by simp) rfl) ?_
          rcases c₃.readMap cfg (F.length + 1) (some (j + 1)).isNone (some (j + 1))
            (acc.push (k, v)) with e | ⟨es, c₄, h₄⟩ <;> rfl
      · rw [complete_value_open rfl] at hall
        refine hall.agrees_entries rfl (fun _ _ => rfl)
          (ihm _ hlt c₃ (by omega) _ _ _ ⟨hd.config, hd.scanner_config, rfl, rfl, hd.fault⟩
            hch rfl (by simp) rfl) ?_
        rcases c₃.readMap cfg (F.length + 1) (none : Option Nat).isNone none (acc.push (k, v)) with
          e | ⟨es, c₄, h₄⟩ <;> rfl

section Opening

variable {cfg : Config} {o : Nat} {b : UInt8} {rest : List UInt8} {d : IncrementalDecoder}

/-- The frame a container head of major type `m` read at `s` opens, with `count` entries
declared (`none` for an indefinite length). -/
def openedFrame (m : Major) (s : Nat) (count : Option Nat) : Frame :=
  if m = .map then .map s #[] none count else .array s #[] count

@[simp] theorem declared_openedFrame (m : Major) (s : Nat) (count : Option Nat) :
    (openedFrame m s count).declared = count := by
  unfold openedFrame
  split_ifs <;> rfl

/-- The head of an array or map: its count, or an indefinite length where the limits admit
one, opens its frame. -/
theorem agrees_length (ha : AtItem cfg ⟨o, b :: rest⟩ d) (hb : b ≠ breakByte)
    (hm : (Head.ofByte b).major = .array ∨ (Head.ofByte b).major = .map) :
    match (Cursor.mk (o + 1) rest).length cfg (Head.ofByte b).info o with
    | .error s => StopsLike d ⟨o, b :: rest⟩ s
    | .ok (count, c₂) => ReadsTo d ⟨o, b :: rest⟩ c₂.1
        ((d.headAt c₂.1.offset o).openFrame (openedFrame (Head.ofByte b).major o count) o) := by
  have hA := ha.agrees_argument hb
  unfold Cursor.length
  cases hx : (Cursor.mk (o + 1) rest).argument (Head.ofByte b).info o with
  | error s => rw [hx] at hA; exact hA
  | ok r =>
    obtain ⟨_ | v, c₂⟩ := r <;> rw [hx] at hA <;> dsimp only at hA ⊢
    · obtain ⟨hc₂, hA⟩ := hA
      by_cases hind : cfg.allowIndefinite
      · rw [if_pos hind]
        dsimp only
        rw [hc₂] at hA ⊢
        rcases hm with hm | hm <;>
          simpa [Scanner.indefiniteToken, hm, hind, absorb_head_some, onToken, openedFrame,
            Except.map] using hA
      · rw [if_neg hind]
        have hi : Scanner.indefiniteToken cfg none (Head.ofByte b) o = .error ⟨.indefiniteLength, o⟩ := by
          rcases hm with hm | hm <;> simp [Scanner.indefiniteToken, hm, hind]
        rw [hi] at hA
        exact StopsLike.of_fault hA rfl rfl
    · have hv : v.toUInt64.toNat = v := by
        have := Cursor.argument_lt hx
        simp only [Nat.toUInt64_eq, UInt64.toNat_ofNat']
        omega
      rcases hm with hm | hm <;>
        simpa [Scanner.afterArgument, hm, absorb_head_some, onToken, openedFrame, hv] using hA

/-- A container or tag opened at `o`: the depth limit, then a definite container's length
limit, stop both alike; past them an empty container is finished at once. -/
theorem agrees_enter (ha : AtItem cfg ⟨o, b :: rest⟩ d) {f : Frame} {c₂ : Cursor}
    (h : ReadsTo d ⟨o, b :: rest⟩ c₂ ((d.headAt c₂.offset o).openFrame f o)) :
    match c₂.enter cfg d.frames.length f.declared o with
    | .error s => StopsLike d ⟨o, b :: rest⟩ s
    | .ok () => ReadsTo d ⟨o, b :: rest⟩ c₂ (match f.empty? with
        | some x => (d.headAt c₂.offset o).complete x o
        | none => { d.headAt c₂.offset o with frames := f :: d.frames }) := by
  unfold Cursor.enter
  by_cases hdeep : cfg.maxDepth ≤ d.frames.length
  · rw [if_pos hdeep]
    rw [openFrame_deep _ _ (by simpa [ha.between.config] using hdeep)] at h
    exact StopsLike.of_fault h (by simp [fail, ha.between.config, Cursor.stop]) rfl
  rw [if_neg hdeep]
  have hdeep' : ¬ (d.headAt c₂.offset o).config.maxDepth ≤ (d.headAt c₂.offset o).frames.length := by
    simpa [ha.between.config] using hdeep
  cases hdecl : f.declared with
  | none =>
    rw [openFrame_eq hdeep' (by simp [hdecl])] at h
    exact h
  | some n =>
    dsimp only
    by_cases ht : cfg.tooManyItems n
    · rw [if_pos ht]
      rw [openFrame_long hdeep' hdecl (by simpa [ha.between.config] using ht)] at h
      exact StopsLike.of_fault h (by simp [fail, Cursor.stop]) rfl
    · rw [if_neg ht]
      rw [openFrame_eq hdeep' (by simp [hdecl, ha.between.config, ht])] at h
      exact h

theorem agrees_array (ha : AtItem cfg ⟨o, b :: rest⟩ d) (hb : b ≠ breakByte)
    (hm : (Head.ofByte b).major = .array)
    (ih : ∀ c, c.rest.length ≤ rest.length → ItemAgrees cfg c) :
    Agrees d ⟨o, b :: rest⟩ ((Cursor.mk o (b :: rest)).readItem cfg d.frames.length)
      (fun x => d.complete x o) := by
  have hL := agrees_length ha hb (.inl hm)
  rw [Cursor.readItem.eq_def]
  simp only [if_neg hb, hm]
  cases hx : (Cursor.mk (o + 1) rest).length cfg (Head.ofByte b).info o with
  | error s => rw [hx] at hL; exact hL
  | ok r =>
    obtain ⟨count, c₂, h₂⟩ := r
    rw [hx, hm] at hL
    dsimp only at hL ⊢
    have hE := agrees_enter ha hL
    rw [declared_openedFrame] at hE
    cases hen : c₂.enter cfg d.frames.length count o with
    | error s => rw [hen] at hE; exact hE
    | ok u =>
      rw [hen] at hE
      dsimp only at hE ⊢
      by_cases h0 : count = some 0
      · subst h0
        rw [Cursor.readArray_zero]
        exact ⟨o, by rw [complete_headAt]; exact hE⟩
      have hempty : (openedFrame .array o count).empty? = none := by
        rcases count with _ | _ | k <;> simp_all [openedFrame, Frame.empty?]
      rw [hempty] at hE
      dsimp only at hE
      have hR := agrees_readArray ih o d.frames c₂ h₂
        { d.headAt c₂.offset o with frames := openedFrame .array o count :: d.frames } #[] count
        ⟨ha.between.config, ha.between.scanner_config, rfl, rfl, ha.between.fault⟩ ha.chunking
        (by simp [openedFrame]) h0
      refine Agrees.of_readsTo hE rfl hR (f := Item.array) ?_ ?_
      · rcases c₂.readArray cfg (d.frames.length + 1) count #[] with e | ⟨xs, c₃, h₃⟩ <;> rfl
      · intro xs o' ts
        rw [complete_headAt, complete_headAt]
        rfl

theorem agrees_map (ha : AtItem cfg ⟨o, b :: rest⟩ d) (hb : b ≠ breakByte)
    (hm : (Head.ofByte b).major = .map)
    (ih : ∀ c, c.rest.length ≤ rest.length → ItemAgrees cfg c) :
    Agrees d ⟨o, b :: rest⟩ ((Cursor.mk o (b :: rest)).readItem cfg d.frames.length)
      (fun x => d.complete x o) := by
  have hL := agrees_length ha hb (.inr hm)
  rw [Cursor.readItem.eq_def]
  simp only [if_neg hb, hm]
  cases hx : (Cursor.mk (o + 1) rest).length cfg (Head.ofByte b).info o with
  | error s => rw [hx] at hL; exact hL
  | ok r =>
    obtain ⟨count, c₂, h₂⟩ := r
    rw [hx, hm] at hL
    dsimp only at hL ⊢
    have hE := agrees_enter ha hL
    rw [declared_openedFrame] at hE
    cases hen : c₂.enter cfg d.frames.length count o with
    | error s => rw [hen] at hE; exact hE
    | ok u =>
      rw [hen] at hE
      dsimp only at hE ⊢
      by_cases h0 : count = some 0
      · subst h0
        rw [Cursor.readMap_zero]
        exact ⟨o, by rw [complete_headAt]; exact hE⟩
      have hempty : (openedFrame .map o count).empty? = none := by
        rcases count with _ | _ | k <;> simp_all [openedFrame, Frame.empty?]
      rw [hempty] at hE
      dsimp only at hE
      have hR := agrees_readMap ih o d.frames c₂ h₂
        { d.headAt c₂.offset o with frames := openedFrame .map o count :: d.frames } #[] count
        ⟨ha.between.config, ha.between.scanner_config, rfl, rfl, ha.between.fault⟩ ha.chunking
        (by simp [openedFrame]) h0
      refine Agrees.of_readsTo hE rfl hR (f := Item.map) ?_ ?_
      · rcases c₂.readMap cfg (d.frames.length + 1) count.isNone count #[] with
          e | ⟨es, c₃, h₃⟩ <;> rfl
      · intro es o' ts
        rw [complete_headAt, complete_headAt]
        rfl

end Opening

/-- **The reader's item and the decoder agree**, from every state ready for an item: by strong
induction on the bytes left, each major type by its own lemma. -/
theorem agrees_readItem (cfg : Config) (c : Cursor) : ItemAgrees cfg c := by
  obtain ⟨m, hm⟩ : ∃ m, c.rest.length = m := ⟨_, rfl⟩
  induction m using Nat.strongRecOn generalizing c with
  | ind m ih =>
  intro d ha
  obtain ⟨o, rest⟩ := c
  cases rest with
  | nil =>
    rw [Cursor.readItem.eq_def]
    exact stopsLike_end_of_frames ha.between (ha.frames_of_end rfl)
  | cons b rest =>
    have ih' : ∀ c, c.rest.length ≤ rest.length → ItemAgrees cfg c :=
      fun c hc => ih _ (by simp at hm; omega) c rfl
    by_cases hb : b = breakByte
    · -- a Break where an item should start closes a frame that cannot take it
      subst hb
      obtain ⟨f, F, hF, hi⟩ := ha.frames_of_break rfl
      rw [Cursor.readItem.eq_def]
      simp only
      have h := readsTo_break ha.between rest
      have hc : f.chunking = none := by simpa [hF] using ha.innermost
      rw [close_definite (d := d.headAt (o + 1) o) (by rw [headAt_frames, hF]) hi hc] at h
      exact StopsLike.of_fault h rfl rfl
    cases hmaj : (Head.ofByte b).major
    · exact agrees_unsigned ha hb hmaj
    · exact agrees_negative ha hb hmaj
    · exact agrees_bytes ha hb hmaj
    · exact agrees_text ha hb hmaj
    · exact agrees_array ha hb hmaj ih'
    · exact agrees_map ha hb hmaj ih'
    · exact agrees_tag ha hb hmaj ih'
    · exact agrees_simple ha hb hmaj

/-! ### Sequences -/

/-- What the decoder reports at the end of input: the items it finished and, if it failed or the
input ended inside an item, the error. -/
def result (d : IncrementalDecoder) : Except (SequenceError Item) (List Item) :=
  match d.finish with
  | .ok () => .ok d.ready
  | .error e => .error ⟨e, d.ready⟩

theorem result_of_stopsLike {d : IncrementalDecoder} {c : Cursor} {s : Stop}
    (h : StopsLike d c s) : (c.rest.foldl push d).result = .error ⟨s.error, d.ready⟩ := by
  rw [result, h.1, h.2]

/-- **A sequence read from `c` and the decoder fed its bytes end alike**, from a decoder with no
item under way and the items `acc` finished. -/
theorem result_readSequence (cfg : Config) (c : Cursor) (d : IncrementalDecoder) (acc : Array Item)
    (hd : Between cfg c.offset d) (hch : d.scanner.chunking = none) (hF : d.frames = [])
    (hr : d.ready = acc.toList) :
    (c.rest.foldl push d).result = c.readSequence cfg acc := by
  -- by strong induction on the bytes left: each item takes at least one byte
  obtain ⟨m, hm⟩ : ∃ m, c.rest.length = m := ⟨_, rfl⟩
  induction m using Nat.strongRecOn generalizing c d acc with
  | ind m ih =>
  obtain ⟨o, rest⟩ := c
  rw [Cursor.readSequence.eq_def]
  cases rest with
  | nil =>
    simp only [List.foldl_nil, result, finish_idle hd.fault hd.phase hF, hr]
  | cons b rest =>
    dsimp only
    by_cases hb : b = breakByte
    · rw [if_pos hb]
      subst hb
      have hp : d.push breakByte = (d.headAt (o + 1) o).fail ⟨.trailingGarbage, o⟩ := by
        rw [hd.push_break, close_nil (d := d.headAt (o + 1) o) hF]
      have h : StopsLike d ⟨o, breakByte :: rest⟩ ((Cursor.mk (o + 1) rest).stop .trailingGarbage o) :=
        StopsLike.of_fault (readsTo_push d o breakByte rest) (by rw [hp]; rfl) (by rw [hp]; rfl)
      rw [result_of_stopsLike h, hr]
      rfl
    rw [if_neg hb]
    have ha : AtItem cfg ⟨o, b :: rest⟩ d :=
      ⟨hd, hch, by rw [hF]; rfl, fun b' _ _ => entryOk_of_count (by rw [hF]; rfl) b',
        fun h => absurd h (by simp),
        fun h => absurd (Option.some.inj h) hb⟩
    have hi := agrees_readItem cfg ⟨o, b :: rest⟩ d ha
    rw [hF, List.length_nil] at hi
    cases hx : (Cursor.mk o (b :: rest)).readItem cfg 0 with
    | error s =>
      rw [hx] at hi
      rw [result_of_stopsLike hi, hr]
    | ok p =>
      obtain ⟨x, c', hc'⟩ := p
      rw [hx] at hi
      obtain ⟨ts, bs, hrest, -, hrun⟩ := hi
      dsimp only at hrest hrun ⊢
      rw [complete_nil hF] at hrun
      have hnext := ih _ (by simp at hm hc'; omega) c'
        ({ d with ready := d.ready ++ [x] }.headAt c'.offset ts) (acc.push x)
        ⟨hd.config, hd.scanner_config, rfl, rfl, hd.fault⟩ hch hF (by simp [hr]) rfl
      rw [hrest, List.foldl_append, hrun]
      exact hnext

/-- **The decoder fed a whole input ends as `Item.decodeAll` reads it.** -/
theorem result_eq_decodeAll (cfg : Config) (bytes : List UInt8) :
    (bytes.foldl push (ofConfig cfg)).result = Item.decodeAll cfg bytes :=
  result_readSequence cfg (Cursor.start bytes) (ofConfig cfg) #[] ⟨rfl, rfl, rfl, rfl, rfl⟩ rfl rfl
    rfl

end IncrementalDecoder

end Cbor
