import Cbor.Incremental
import Cbor.Proofs.Head
import Cbor.Proofs.Utf8
/-! # The incremental decoder, one byte at a time

What `IncrementalDecoder.push` does with one byte, said once so that the simulation of the
whole-buffer reader never unfolds it. A byte goes to the scanner, whose answer the decoder puts in
place (`absorb`): the scanner moves on, and a finished token opens a frame, completes an item or
closes what a Break closes. Before a byte that begins an entry of an indefinite container the
length limit is checked, and a failed decoder takes nothing.

Runs over several bytes follow: the bytes of an argument or of a payload only feed the scanner
(`run_argument_lt`, `run_argument_eq`, `run_payload_lt`, `run_payload_eq`), and a failed decoder
stays as it is (`run_of_fault`). Then come the equations of `complete`, one per kind of innermost
frame; of an open string, which takes the bytes of its chunks (`onToken_chunk`) and makes its item
at its Break (`close_bytes`, `close_text`); of `close` on a container or tag; and of `finish`.
-/

namespace Cbor.IncrementalDecoder

/-! ### The scanner's answer put in place -/

/-- The decoder with its scanner expecting a head at offset `o`, the last token's head at `ts`. -/
def headAt (d : IncrementalDecoder) (o ts : Nat) : IncrementalDecoder :=
  { d with scanner := { d.scanner with phase := .head, offset := o, tokenStart := ts } }

/-- The decoder after the scanner answered a byte with `r`: the scanner moves to offset `o` with
token start `ts`, in the phase the answer gives or failed with its error, and a finished token is
put in place. -/
def absorb (d : IncrementalDecoder) (ts o : Nat) :
    Except Error (Scanner.Phase × Option Token) → IncrementalDecoder
  | .error e =>
    ({ d with scanner := { d.scanner with phase := .failed e, offset := o, tokenStart := ts } }).fail e
  | .ok (p, none) => { d with scanner := { d.scanner with phase := p, offset := o, tokenStart := ts } }
  | .ok (p, some t) =>
    { d with scanner := { d.scanner with phase := p, offset := o, tokenStart := ts } }.onToken t ts

@[simp] theorem headAt_config (d : IncrementalDecoder) (o ts : Nat) :
    (d.headAt o ts).config = d.config := rfl

@[simp] theorem headAt_frames (d : IncrementalDecoder) (o ts : Nat) :
    (d.headAt o ts).frames = d.frames := rfl

@[simp] theorem headAt_chunking (d : IncrementalDecoder) (o ts : Nat) :
    (d.headAt o ts).scanner.chunking = d.scanner.chunking := rfl

@[simp] theorem headAt_ready (d : IncrementalDecoder) (o ts : Nat) :
    (d.headAt o ts).ready = d.ready := rfl

@[simp] theorem headAt_fault (d : IncrementalDecoder) (o ts : Nat) :
    (d.headAt o ts).fault = d.fault := rfl

@[simp] theorem headAt_phase (d : IncrementalDecoder) (o ts : Nat) :
    (d.headAt o ts).scanner.phase = .head := rfl

@[simp] theorem headAt_offset (d : IncrementalDecoder) (o ts : Nat) :
    (d.headAt o ts).scanner.offset = o := rfl

@[simp] theorem headAt_scanner_config (d : IncrementalDecoder) (o ts : Nat) :
    (d.headAt o ts).scanner.config = d.scanner.config := rfl

@[simp] theorem headAt_headAt (d : IncrementalDecoder) (o ts o' ts' : Nat) :
    (d.headAt o ts).headAt o' ts' = d.headAt o' ts' := rfl

theorem absorb_head_some (d : IncrementalDecoder) (ts o : Nat) (t : Token) :
    d.absorb ts o (.ok (.head, some t)) = (d.headAt o ts).onToken t ts := rfl

theorem absorb_error (d : IncrementalDecoder) (ts o : Nat) (e : Error) :
    (d.absorb ts o (.error e)).fault = some e := rfl

/-! While a token is under way the decoder's state is its scanner's: an answer that finishes no
token changes nothing else, and a later answer overwrites it. -/

@[simp] theorem absorb_none_fault (d : IncrementalDecoder) (ts o : Nat) (p : Scanner.Phase) :
    (d.absorb ts o (.ok (p, none))).fault = d.fault := rfl

@[simp] theorem absorb_none_ready (d : IncrementalDecoder) (ts o : Nat) (p : Scanner.Phase) :
    (d.absorb ts o (.ok (p, none))).ready = d.ready := rfl

@[simp] theorem absorb_none_chunking (d : IncrementalDecoder) (ts o : Nat) (p : Scanner.Phase) :
    (d.absorb ts o (.ok (p, none))).scanner.chunking = d.scanner.chunking := rfl

@[simp] theorem absorb_none_offset (d : IncrementalDecoder) (ts o : Nat) (p : Scanner.Phase) :
    (d.absorb ts o (.ok (p, none))).scanner.offset = o := rfl

@[simp] theorem absorb_none_tokenStart (d : IncrementalDecoder) (ts o : Nat) (p : Scanner.Phase) :
    (d.absorb ts o (.ok (p, none))).scanner.tokenStart = ts := rfl

@[simp] theorem absorb_none_scanner_config (d : IncrementalDecoder) (ts o : Nat)
    (p : Scanner.Phase) : (d.absorb ts o (.ok (p, none))).scanner.config = d.scanner.config := rfl

@[simp] theorem absorb_absorb_none (d : IncrementalDecoder) (ts o ts' o' : Nat) (p : Scanner.Phase)
    (r : Except Error (Scanner.Phase × Option Token)) :
    (d.absorb ts o (.ok (p, none))).absorb ts' o' r = d.absorb ts' o' r := by
  rcases r with e | ⟨p', _ | t⟩ <;> rfl

/-- Reading a head: the scanner answers from the head byte alone, in the scanner's chunking
context. -/
theorem take_head (d : IncrementalDecoder) (b : UInt8) (h : d.scanner.phase = .head) :
    d.take b = d.absorb d.scanner.offset (d.scanner.offset + 1)
      (Scanner.afterHead d.scanner.config d.scanner.chunking d.scanner.offset (Head.ofByte b)) := by
  unfold take Scanner.push
  rw [h]
  cases Scanner.afterHead d.scanner.config d.scanner.chunking d.scanner.offset (Head.ofByte b) with
  | error e => rfl
  | ok r =>
    obtain ⟨p, _ | t⟩ := r <;> rfl

/-- One more byte of an argument: its value so far is shifted in, and the last one gives what
the whole argument gives. -/
theorem take_argument (d : IncrementalDecoder) (b : UInt8) {h : Head} {v p : Nat}
    (hp : d.scanner.phase = .argument h v p) :
    d.take b = d.absorb d.scanner.tokenStart (d.scanner.offset + 1)
      (if 1 < p then .ok (.argument h (v * 256 + b.toNat) (p - 1), none)
       else Scanner.afterArgument d.scanner.config d.scanner.chunking d.scanner.tokenStart
        (d.scanner.offset + 1) h (v * 256 + b.toNat)) := by
  unfold take Scanner.push
  rw [hp]
  dsimp only
  by_cases h1 : 1 < p
  · rw [if_pos h1]
    rfl
  · rw [if_neg h1]
    cases Scanner.afterArgument d.scanner.config d.scanner.chunking d.scanner.tokenStart
      (d.scanner.offset + 1) h (v * 256 + b.toNat) with
    | error e => rfl
    | ok r =>
      obtain ⟨p, _ | t⟩ := r <;> rfl

/-- One more byte of a payload; the last one gives the string's token. -/
theorem take_payload (d : IncrementalDecoder) (b : UInt8) {m : Major} {bytes : Array UInt8}
    {p start : Nat} (hp : d.scanner.phase = .payload m bytes p start) :
    d.take b = d.absorb d.scanner.tokenStart (d.scanner.offset + 1)
      (if 1 < p then .ok (.payload m (bytes.push b) (p - 1) start, none)
       else (Scanner.stringToken m (bytes.push b).toList start).map fun t => (.head, some t)) := by
  unfold take Scanner.push
  rw [hp]
  dsimp only
  by_cases h1 : 1 < p
  · rw [if_pos h1]
    rfl
  · rw [if_neg h1]
    cases Scanner.stringToken m (bytes.push b).toList start with
    | error e => rfl
    | ok t => rfl

/-! ### Pushing a byte -/

theorem push_of_fault {d : IncrementalDecoder} {e : Error} (h : d.fault = some e) (b : UInt8) :
    d.push b = d := by
  simp [push, h]

/-- Whether the length limit admits the entry that byte `b` would begin: it only concerns a head
byte other than a Break when the innermost frame is an indefinite container. -/
def EntryOk (d : IncrementalDecoder) (b : UInt8) : Prop :=
  d.scanner.isIdle = true → b ≠ breakByte →
    ∀ n, Frame.nextEntryCount d.frames = some n → d.config.tooManyItems n = false

theorem push_eq_take {d : IncrementalDecoder} (hf : d.fault = none) {b : UInt8}
    (h : d.EntryOk b) : d.push b = d.take b := by
  unfold push
  rw [hf]
  simp only
  split
  · rename_i n hn
    split at hn
    · rename_i hc
      simp only [Bool.and_eq_true, bne_iff_ne, ne_eq] at hc
      rw [h hc.1 hc.2 n hn]
      rfl
    · cases hn
  · rfl

/-- Inside a token, or for a Break, there is no entry to admit. -/
theorem entryOk_of_busy {d : IncrementalDecoder} (h : d.scanner.isIdle = false) (b : UInt8) :
    d.EntryOk b := by
  intro hi
  rw [h] at hi
  cases hi

theorem entryOk_break (d : IncrementalDecoder) : d.EntryOk breakByte :=
  fun _ hb => absurd rfl hb

theorem entryOk_of_count {d : IncrementalDecoder} (h : Frame.nextEntryCount d.frames = none)
    (b : UInt8) : d.EntryOk b := by
  intro _ _ n hn
  rw [h] at hn
  cases hn

/-- An indefinite container refuses an entry past its length limit at the byte that begins it,
which it does not take. -/
theorem push_of_tooMany {d : IncrementalDecoder} (hf : d.fault = none) {b : UInt8}
    (hi : d.scanner.isIdle = true) (hb : b ≠ breakByte) {n : Nat}
    (hn : Frame.nextEntryCount d.frames = some n) (ht : d.config.tooManyItems n = true) :
    d.push b = d.fail ⟨.tooManyItems n, d.offset⟩ := by
  unfold push
  rw [hf]
  simp only [hi, Bool.true_and, bne_iff_ne, ne_eq, hb, not_false_eq_true, if_true, hn, ht]

/-! ### Runs -/

theorem run_of_fault {d : IncrementalDecoder} {e : Error} (h : d.fault = some e)
    (bs : List UInt8) : bs.foldl push d = d := by
  induction bs with
  | nil => rfl
  | cons b bs ih => rw [List.foldl_cons, push_of_fault h, ih]

theorem ready_fail (d : IncrementalDecoder) (e : Error) : (d.fail e).ready = d.ready := rfl

theorem isIdle_argument {s : Scanner} {h : Head} {v p : Nat} (hp : s.phase = .argument h v p) :
    s.isIdle = false := by
  simp [Scanner.isIdle, hp]

theorem isIdle_payload {s : Scanner} {m : Major} {bytes : Array UInt8} {p start : Nat}
    (hp : s.phase = .payload m bytes p start) : s.isIdle = false := by
  simp [Scanner.isIdle, hp]

/-- The bytes of an argument, fewer than it needs: the scanner only shifts them in. -/
theorem run_argument_lt (d : IncrementalDecoder) (hf : d.fault = none) {h : Head} {v p : Nat}
    (hp : d.scanner.phase = .argument h v p) (bs : List UInt8) (hlt : bs.length < p) :
    bs.foldl push d = { d with scanner := { d.scanner with
      phase := .argument h (bs.foldl (fun acc b => acc * 256 + b.toNat) v) (p - bs.length),
      offset := d.scanner.offset + bs.length } } := by
  induction bs generalizing d v p with
  | nil =>
    simp only [List.foldl_nil, List.length_nil, Nat.sub_zero, Nat.add_zero, ← hp]
  | cons b bs ih =>
    simp only [List.length_cons] at hlt
    rw [List.foldl_cons, push_eq_take hf (entryOk_of_busy (isIdle_argument hp) b),
      take_argument d b hp, if_pos (by omega)]
    have hf' : (d.absorb d.scanner.tokenStart (d.scanner.offset + 1)
        (.ok (.argument h (v * 256 + b.toNat) (p - 1), none))).fault = none := hf
    rw [ih _ hf' rfl (by omega)]
    simp only [absorb, List.foldl_cons, List.length_cons, Nat.sub_sub, Nat.add_comm 1,
      Nat.add_assoc]

/-- The last byte of an argument gives what the whole argument gives. -/
theorem run_argument_eq (d : IncrementalDecoder) (hf : d.fault = none) {h : Head} {v p : Nat}
    (hp : d.scanner.phase = .argument h v p) (bs : List UInt8) (heq : bs.length = p)
    (hpos : 0 < p) :
    bs.foldl push d = d.absorb d.scanner.tokenStart (d.scanner.offset + p)
      (Scanner.afterArgument d.scanner.config d.scanner.chunking d.scanner.tokenStart
        (d.scanner.offset + p) h (bs.foldl (fun acc b => acc * 256 + b.toNat) v)) := by
  induction bs generalizing d v p with
  | nil => simp at heq; omega
  | cons b bs ih =>
    simp only [List.length_cons] at heq
    rw [List.foldl_cons, push_eq_take hf (entryOk_of_busy (isIdle_argument hp) b),
      take_argument d b hp]
    by_cases h1 : 1 < p
    · have hf' : (d.absorb d.scanner.tokenStart (d.scanner.offset + 1)
          (.ok (.argument h (v * 256 + b.toNat) (p - 1), none))).fault = none := hf
      rw [if_pos h1, ih _ hf' rfl (by omega) (by omega)]
      simp only [absorb_absorb_none, absorb_none_offset, absorb_none_tokenStart,
        absorb_none_scanner_config, absorb_none_chunking, List.foldl_cons]
      rw [show d.scanner.offset + 1 + (p - 1) = d.scanner.offset + p by omega]
    · have hbs : bs = [] := List.eq_nil_of_length_eq_zero (by omega)
      subst hbs
      rw [if_neg h1, show p = 1 by omega]
      rfl

/-- The bytes of a payload, fewer than it needs: the scanner only gathers them. -/
theorem run_payload_lt (d : IncrementalDecoder) (hf : d.fault = none) {m : Major}
    {bytes : Array UInt8} {p start : Nat} (hp : d.scanner.phase = .payload m bytes p start)
    (bs : List UInt8) (hlt : bs.length < p) :
    bs.foldl push d = { d with scanner := { d.scanner with
      phase := .payload m (bytes ++ bs.toArray) (p - bs.length) start,
      offset := d.scanner.offset + bs.length } } := by
  induction bs generalizing d bytes p with
  | nil => simp [← hp]
  | cons b bs ih =>
    simp only [List.length_cons] at hlt
    rw [List.foldl_cons, push_eq_take hf (entryOk_of_busy (isIdle_payload hp) b),
      take_payload d b hp, if_pos (by omega)]
    have hf' : (d.absorb d.scanner.tokenStart (d.scanner.offset + 1)
        (.ok (.payload m (bytes.push b) (p - 1) start, none))).fault = none := hf
    rw [ih _ hf' rfl (by omega)]
    simp only [absorb, List.length_cons, Nat.sub_sub, Nat.add_comm 1, Nat.add_assoc]
    simp

/-- The last byte of a payload gives the string's token. -/
theorem run_payload_eq (d : IncrementalDecoder) (hf : d.fault = none) {m : Major}
    {bytes : Array UInt8} {p start : Nat} (hp : d.scanner.phase = .payload m bytes p start)
    (bs : List UInt8) (heq : bs.length = p) (hpos : 0 < p) :
    bs.foldl push d = d.absorb d.scanner.tokenStart (d.scanner.offset + p)
      ((Scanner.stringToken m (bytes.toList ++ bs) start).map fun t => (.head, some t)) := by
  induction bs generalizing d bytes p with
  | nil => simp at heq; omega
  | cons b bs ih =>
    simp only [List.length_cons] at heq
    rw [List.foldl_cons, push_eq_take hf (entryOk_of_busy (isIdle_payload hp) b),
      take_payload d b hp]
    by_cases h1 : 1 < p
    · have hf' : (d.absorb d.scanner.tokenStart (d.scanner.offset + 1)
          (.ok (.payload m (bytes.push b) (p - 1) start, none))).fault = none := hf
      rw [if_pos h1, ih _ hf' rfl (by omega) (by omega)]
      simp only [absorb_absorb_none, absorb_none_offset, absorb_none_tokenStart,
        Array.toList_push, List.append_assoc, List.singleton_append]
      rw [show d.scanner.offset + 1 + (p - 1) = d.scanner.offset + p by omega]
    · have hbs : bs = [] := List.eq_nil_of_length_eq_zero (by omega)
      subst hbs
      rw [if_neg h1, show p = 1 by omega, Array.toList_push]
      rfl

/-! ### Finished items into frames -/

section Settle

-- The equations of `complete` and `Frame.settle` are generated here, once, for the lemmas below.
attribute [local simp] complete Frame.settle

theorem config_complete (d : IncrementalDecoder) (x : Item) (s : Nat) :
    (d.complete x s).config = d.config := by
  unfold complete
  split <;> rfl

theorem scanner_complete (d : IncrementalDecoder) (x : Item) (s : Nat) :
    (d.complete x s).scanner = d.scanner := by
  unfold complete
  split <;> rfl

@[simp] theorem complete_headAt (d : IncrementalDecoder) (x : Item) (s o ts : Nat) :
    (d.complete x s).headAt o ts = (d.headAt o ts).complete x s := by
  simp only [complete, headAt_config, headAt_frames]
  split <;> rfl

theorem complete_nil {d : IncrementalDecoder} (h : d.frames = []) (x : Item) (s : Nat) :
    d.complete x s = { d with ready := d.ready ++ [x] } := by
  simp [complete, h, Frame.settle]

theorem complete_tag {d : IncrementalDecoder} {s : Nat} {t : UInt64} {F : List Frame}
    (h : d.frames = .tag s t :: F) (x : Item) (xs : Nat) :
    d.complete x xs = { d with frames := F }.complete (.tagged t x) s := by
  simp [complete, h, Frame.settle]

/-- The last entry of a definite array closes it. -/
theorem complete_array_close {d : IncrementalDecoder} {s : Nat} {items : Array Item} {n : Nat}
    {F : List Frame} (h : d.frames = .array s items (some n) :: F) (hn : n ≤ 1) (x : Item)
    (xs : Nat) :
    d.complete x xs = { d with frames := F }.complete (.array (items.push x).toList) s := by
  simp [complete, h, Frame.settle, hn]

theorem complete_array_next {d : IncrementalDecoder} {s : Nat} {items : Array Item} {n : Nat}
    {F : List Frame} (h : d.frames = .array s items (some n) :: F) (hn : 1 < n) (x : Item)
    (xs : Nat) :
    d.complete x xs = { d with frames := .array s (items.push x) (some (n - 1)) :: F } := by
  simp [complete, h, Frame.settle, Nat.not_le.mpr hn]

theorem complete_array_open {d : IncrementalDecoder} {s : Nat} {items : Array Item}
    {F : List Frame} (h : d.frames = .array s items none :: F) (x : Item) (xs : Nat) :
    d.complete x xs = { d with frames := .array s (items.push x) none :: F } := by
  simp [complete, h, Frame.settle]

/-- A key equal to an earlier one is refused, where the limits say so, at the key's start. -/
theorem complete_key_dup {d : IncrementalDecoder} {s : Nat} {es : Array (Item × Item)}
    {rem : Option Nat} {F : List Frame} (h : d.frames = .map s es none rem :: F) {x : Item}
    (hd : (d.config.rejectDuplicateKeys && es.any (fun e => e.1.valueEq x)) = true) (xs : Nat) :
    d.complete x xs = { d with fault := some ⟨.duplicateKey, xs⟩ } := by
  simp only [complete, h, Frame.settle, hd, if_true]

theorem complete_key {d : IncrementalDecoder} {s : Nat} {es : Array (Item × Item)}
    {rem : Option Nat} {F : List Frame} (h : d.frames = .map s es none rem :: F) {x : Item}
    (hd : (d.config.rejectDuplicateKeys && es.any (fun e => e.1.valueEq x)) = false) (xs : Nat) :
    d.complete x xs = { d with frames := .map s es (some x) rem :: F } := by
  simp [complete, h, Frame.settle, hd]

/-- The value of the last entry of a definite map closes it. -/
theorem complete_value_close {d : IncrementalDecoder} {s : Nat} {es : Array (Item × Item)}
    {k : Item} {n : Nat} {F : List Frame} (h : d.frames = .map s es (some k) (some n) :: F)
    (hn : n ≤ 1) (x : Item) (xs : Nat) :
    d.complete x xs = { d with frames := F }.complete (.map (es.push (k, x)).toList) s := by
  simp [complete, h, Frame.settle, hn]

theorem complete_value_next {d : IncrementalDecoder} {s : Nat} {es : Array (Item × Item)}
    {k : Item} {n : Nat} {F : List Frame} (h : d.frames = .map s es (some k) (some n) :: F)
    (hn : 1 < n) (x : Item) (xs : Nat) :
    d.complete x xs = { d with frames := .map s (es.push (k, x)) none (some (n - 1)) :: F } := by
  simp [complete, h, Frame.settle, Nat.not_le.mpr hn]

theorem complete_value_open {d : IncrementalDecoder} {s : Nat} {es : Array (Item × Item)}
    {k : Item} {F : List Frame} (h : d.frames = .map s es (some k) none :: F) (x : Item)
    (xs : Nat) : d.complete x xs = { d with frames := .map s (es.push (k, x)) none none :: F } := by
  simp [complete, h, Frame.settle]

/-- A string's frame takes no item: the decoder stays as it is. -/
theorem complete_chunks {d : IncrementalDecoder} {s : Nat} {m : Major} {buf : Array UInt8}
    {F : List Frame} (h : d.frames = .chunks s m buf :: F) (x : Item) (xs : Nat) :
    d.complete x xs = d := by
  obtain ⟨_, _, frames, _, _⟩ := d
  subst h
  simp [complete, Frame.settle]

end Settle

/-! ### Opening and closing -/

/-- Opening a container or tag makes the checks `Cursor.enter` makes, in the same order. -/
theorem openFrame_eq {d : IncrementalDecoder} {f : Frame} {s : Nat}
    (hd : ¬ d.config.maxDepth ≤ d.frames.length)
    (hc : ∀ n, f.declared = some n → d.config.tooManyItems n = false) :
    d.openFrame f s = match f.empty? with
      | some x => d.complete x s
      | none => { d with frames := f :: d.frames } := by
  unfold openFrame
  rw [if_neg hd]
  cases hf : f.declared with
  | none =>
    have : f.empty? = none := by
      cases f with
      | array _ _ r => simp only [Frame.declared] at hf; simp [Frame.empty?, hf]
      | map _ _ _ r => simp only [Frame.declared] at hf; simp [Frame.empty?, hf]
      | tag _ _ | chunks _ _ _ => rfl
    simp only [this]
  | some n => exact if_neg (by simp [hc n hf])

theorem openFrame_deep {d : IncrementalDecoder} (f : Frame) (s : Nat)
    (hd : d.config.maxDepth ≤ d.frames.length) :
    d.openFrame f s = d.fail ⟨.nestingTooDeep d.config.maxDepth, s⟩ := by
  simp [openFrame, hd]

theorem openFrame_long {d : IncrementalDecoder} {f : Frame} {s n : Nat}
    (hd : ¬ d.config.maxDepth ≤ d.frames.length) (hn : f.declared = some n)
    (ht : d.config.tooManyItems n = true) :
    d.openFrame f s = d.fail ⟨.tooManyItems n, s⟩ := by
  simp [openFrame, hd, hn, ht]

end Cbor.IncrementalDecoder

namespace Cbor.Frame

/-- Whether a Break closes the frame: an indefinite array or map. -/
def indefinite : Frame → Bool
  | .array _ _ none | .map _ _ _ none => true
  | _ => false

/-- The context a frame gives the scanner: an open string's major type, the bytes it has gathered
and its head's offset. -/
def chunking : Frame → Option Chunking
  | .chunks s m buf => some ⟨m, buf.size, s⟩
  | _ => none

end Cbor.Frame

namespace Cbor.Scanner

@[simp] theorem chunking_addChunk (s : Scanner) (n : Nat) :
    (s.addChunk n).chunking = s.chunking.map fun c => { c with gathered := c.gathered + n } := rfl

@[simp] theorem chunking_setChunking (s : Scanner) (ch : Option Chunking) :
    (s.setChunking ch).chunking = ch := rfl

@[simp] theorem phase_setChunking (s : Scanner) (ch : Option Chunking) :
    (s.setChunking ch).phase = s.phase := rfl

end Cbor.Scanner

namespace Cbor.Token

/-- The bytes a definite string adds to an open string of its major type. -/
def chunkBytes : Token → Option (List UInt8)
  | .bytes bs => some bs
  | .text s => some (Utf8.encode s.toList)
  | _ => none

end Cbor.Token

namespace Cbor.IncrementalDecoder

/-! ### Open strings -/

@[simp] theorem openChunks_frames (d : IncrementalDecoder) (m : Major) (s : Nat) :
    (d.openChunks m s).frames = .chunks s m #[] :: d.frames := rfl

@[simp] theorem openChunks_chunking (d : IncrementalDecoder) (m : Major) (s : Nat) :
    (d.openChunks m s).scanner.chunking = some ⟨m, 0, s⟩ := rfl

/-- With a string open, a definite string adds its bytes to it, and the scanner counts them. -/
theorem onToken_chunk {d : IncrementalDecoder} {s : Nat} {m : Major} {buf : Array UInt8}
    {F : List Frame} (h : d.frames = .chunks s m buf :: F) {t : Token} {bs : List UInt8}
    (ht : t.chunkBytes = some bs) (ts : Nat) :
    d.onToken t ts =
      { d with frames := .chunks s m (buf ++ bs.toArray) :: F
               scanner := d.scanner.addChunk bs.length } := by
  cases t <;> simp only [Token.chunkBytes, reduceCtorEq, Option.some.injEq] at ht <;> subst ht <;>
    simp [onToken, appendChunk, h]

theorem appendChunk_outside {d : IncrementalDecoder}
    (h : d.frames.head?.bind Frame.chunking = none) (bs : List UInt8) : d.appendChunk bs = none := by
  unfold appendChunk
  split
  · simp_all [Frame.chunking]
  · rfl

theorem appendChunk_eq_some {d d' : IncrementalDecoder} {bs : List UInt8}
    (h : d.appendChunk bs = some d') :
    ∃ s m buf F, d.frames = .chunks s m buf :: F ∧ d' = { d with
      frames := .chunks s m (buf ++ bs.toArray) :: F
      scanner := d.scanner.addChunk bs.length } := by
  unfold appendChunk at h
  split at h
  · next s m buf F hF =>
    cases h
    exact ⟨s, m, buf, F, hF, rfl⟩
  · cases h

/-! ### Closing -/

/-- A Break closes an open byte string: its bytes are the item. -/
theorem close_bytes {d : IncrementalDecoder} {s : Nat} {buf : Array UInt8} {F : List Frame}
    (h : d.frames = .chunks s .bytes buf :: F) (pos : Nat) :
    d.close pos = { d with frames := F, scanner := d.scanner.setChunking none }.complete
      (.bytes buf.toList) s := by
  simp [close, h]

/-- A Break closes an open text string whose bytes are UTF-8: their characters are the item. -/
theorem close_text {d : IncrementalDecoder} {s : Nat} {buf : Array UInt8} {F : List Frame}
    (h : d.frames = .chunks s .text buf :: F) {cs : List Char}
    (hcs : Utf8.decode buf.toList = .ok cs) (pos : Nat) :
    d.close pos = { d with frames := F, scanner := d.scanner.setChunking none }.complete
      (.text (String.ofList cs)) s := by
  simp [close, h, hcs]

theorem close_nil {d : IncrementalDecoder} (h : d.frames = []) (pos : Nat) :
    d.close pos = d.fail ⟨.trailingGarbage, pos⟩ := by
  simp [close, h]

theorem close_array {d : IncrementalDecoder} {s : Nat} {items : Array Item} {F : List Frame}
    (h : d.frames = .array s items none :: F) (pos : Nat) :
    d.close pos = { d with frames := F }.complete (.array items.toList) s := by
  simp [close, h]

theorem close_map {d : IncrementalDecoder} {s : Nat} {es : Array (Item × Item)} {F : List Frame}
    (h : d.frames = .map s es none none :: F) (pos : Nat) :
    d.close pos = { d with frames := F }.complete (.map es.toList) s := by
  simp [close, h]

/-- A Break after a key of an indefinite map leaves the pair without its value. -/
theorem close_key {d : IncrementalDecoder} {s : Nat} {es : Array (Item × Item)} {k : Item}
    {F : List Frame} (h : d.frames = .map s es (some k) none :: F) (pos : Nat) :
    d.close pos = { d with frames := F }.fail ⟨.truncatedMapPair, pos⟩ := by
  simp [close, h]

/-- A Break where a definite container or a tag waits for an item is misplaced. -/
theorem close_definite {d : IncrementalDecoder} {f : Frame} {F : List Frame}
    (h : d.frames = f :: F) (hi : f.indefinite = false) (hc : f.chunking = none) (pos : Nat) :
    d.close pos = { d with frames := F }.fail ⟨.unexpectedBreak, pos⟩ := by
  cases f with
  | array s items r => cases r <;> simp_all [close, Frame.indefinite]
  | map s es k r => cases r <;> cases k <;> simp_all [close, Frame.indefinite]
  | tag s t => simp [close, h]
  | chunks s m buf => cases hc

/-- A Break on a container or tag takes its frame off, and either finishes the container or
fails. -/
theorem close_container {d : IncrementalDecoder} {f : Frame} {F : List Frame}
    (h : d.frames = f :: F) (hc : f.chunking = none) (pos : Nat) :
    (∃ x s, d.close pos = { d with frames := F }.complete x s) ∨
      ∃ e, d.close pos = { d with frames := F }.fail e := by
  rcases f with ⟨s, items, _ | n⟩ | ⟨s, es, _ | k, _ | n⟩ | ⟨s, t⟩ | ⟨s, m, buf⟩
  · exact .inl ⟨_, _, close_array h pos⟩
  · exact .inr ⟨_, close_definite h rfl rfl pos⟩
  · exact .inl ⟨_, _, close_map h pos⟩
  · exact .inr ⟨_, close_definite h rfl rfl pos⟩
  · exact .inr ⟨_, close_key h pos⟩
  · exact .inr ⟨_, close_definite h rfl rfl pos⟩
  · exact .inr ⟨_, close_definite h rfl rfl pos⟩
  · simp [Frame.chunking] at hc

/-! ### The end of input -/

theorem finish_of_fault {d : IncrementalDecoder} {e : Error} (h : d.fault = some e) :
    d.finish = .error e := by
  simp [finish, h]

/-- Input that ends inside an argument ends right after the head. -/
theorem finish_argument {d : IncrementalDecoder} (hf : d.fault = none) {h : Head} {v p : Nat}
    (hp : d.scanner.phase = .argument h v p) :
    d.finish = .error ⟨.unexpectedEnd, d.scanner.tokenStart + 1⟩ := by
  simp [finish, hf, Scanner.pendingSince, hp]

/-- Input that ends inside a payload ends at the payload's start. -/
theorem finish_payload {d : IncrementalDecoder} (hf : d.fault = none) {m : Major}
    {bytes : Array UInt8} {p start : Nat} (hp : d.scanner.phase = .payload m bytes p start) :
    d.finish = .error ⟨.unexpectedEnd, start⟩ := by
  simp [finish, hf, Scanner.pendingSince, hp]

/-- Input that ends between tokens inside an item ends where it ends. -/
theorem finish_open {d : IncrementalDecoder} (hf : d.fault = none) (hp : d.scanner.phase = .head)
    (h : d.frames ≠ []) : d.finish = .error ⟨.unexpectedEnd, d.scanner.offset⟩ := by
  simp [finish, hf, Scanner.pendingSince, hp, List.isEmpty_iff, h, offset]

theorem finish_idle {d : IncrementalDecoder} (hf : d.fault = none) (hp : d.scanner.phase = .head)
    (h : d.frames = []) : d.finish = .ok () := by
  simp [finish, hf, Scanner.pendingSince, hp, h]

end Cbor.IncrementalDecoder
