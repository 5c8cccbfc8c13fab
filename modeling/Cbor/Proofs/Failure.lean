import Cbor.Proofs.Incremental.Streaming
import Cbor.Proofs.Token.Scanner
/-! # Failure is final

A scanner keeps the first error it meets in its phase. Every later byte is refused with that error
and not taken, so the scanner, its offset included, stays as the failing byte left it, and
`finish` reports the error (`Scanner.failed_is_final`). `feed` passes the bytes one by one to
`push`, so a piece of input with at least one byte is refused with the error, while an empty piece
has no byte to refuse and is answered with no tokens (`Scanner.feed_nil`).

An incremental decoder records its first error, whether the scanner found it or one of its own
checks did. From then on a piece of input of any length, the empty one included, leaves the
decoder as it is and is refused with that error, `finish` reports it, and taking queued items
changes nothing else (`IncrementalDecoder.fault_is_final`). A piece that fails keeps the items
finished before the failing byte, those of the same piece included: items are only ever appended
to the queue, and the failing byte appends none (`IncrementalDecoder.feed_error_keeps_items`).
-/

namespace Cbor

/-! ### The scanner -/

namespace Scanner

variable {s s' : Scanner} {e : Error}

theorem push_of_failed (h : s.phase = .failed e) (b : UInt8) : s.push b = (s, .error e) := by
  unfold push
  rw [h]

theorem advance_error_phase {ts : Nat} {r : Except Error (Phase × Option Token)}
    (h : s.advance ts r = (s', .error e)) : s'.phase = .failed e := by
  cases r with
  | ok pt =>
    rw [advance_ok] at h
    simp at h
  | error e' =>
    rw [advance_error, Prod.mk.injEq] at h
    obtain ⟨rfl, h2⟩ := h
    cases h2
    rfl

/-- A byte refused by the scanner leaves it failed with the error it gave. -/
theorem push_error {b : UInt8} (h : s.push b = (s', .error e)) : s'.phase = .failed e := by
  unfold push at h
  split at h
  · next e' hp =>
    obtain ⟨rfl, h2⟩ := Prod.mk.inj h
    cases h2
    exact hp
  all_goals exact advance_error_phase h

@[simp] theorem feed_nil (s : Scanner) : s.feed [] = (s, .ok []) := rfl

/-- A failed scanner refuses every byte of a piece at its first byte. -/
theorem feed_of_failed (h : s.phase = .failed e) (b : UInt8) (bs : List UInt8) :
    s.feed (b :: bs) = (s, .error e) :=
  feed_go_error (push_of_failed h b) bs #[]

/-- A piece that fails leaves the scanner failed with the error it gave. -/
theorem feed_go_error_phase {bs : List UInt8} :
    ∀ {s s' : Scanner} {acc : Array Token}, feed.go s bs acc = (s', .error e) →
      s'.phase = .failed e := by
  induction bs with
  | nil =>
    intro s s' acc h
    cases h
  | cons b bs ih =>
    intro s s' acc h
    rcases hp : s.push b with ⟨s₁, _ | _ | t⟩
    · rw [feed_go_error hp] at h
      obtain ⟨rfl, h2⟩ := Prod.mk.inj h
      cases h2
      exact push_error hp
    · rw [feed_go_none hp] at h
      exact ih h
    · rw [feed_go_some hp] at h
      exact ih h

theorem feed_error {bs : List UInt8} (h : s.feed bs = (s', .error e)) : s'.phase = .failed e :=
  feed_go_error_phase h

theorem finish_of_failed (h : s.phase = .failed e) : s.finish = .error e := by
  unfold finish
  rw [h]

/-- A scanner that has failed with `e` stays exactly as it is: every byte pushed and every
nonempty piece fed is refused with `e`, an empty piece is answered with no tokens, and the end
of input reports `e`. -/
theorem failed_is_final (h : s.phase = .failed e) :
    (∀ b, s.push b = (s, .error e)) ∧ (∀ b bs, s.feed (b :: bs) = (s, .error e)) ∧
      s.feed [] = (s, .ok []) ∧ s.finish = .error e :=
  ⟨push_of_failed h, feed_of_failed h, feed_nil s, finish_of_failed h⟩

end Scanner

/-! ### The incremental decoder -/

namespace IncrementalDecoder

variable {d : IncrementalDecoder} {e : Error}

theorem feed_of_fault (h : d.fault = some e) (bs : List UInt8) : d.feed bs = (d, .error e) := by
  simp [feed, run_of_fault h, h]

/-- A piece refused with `e` leaves the decoder failed with `e`. -/
theorem feed_error_fault {bs : List UInt8} (h : (d.feed bs).2 = .error e) :
    (d.feed bs).1.fault = some e := by
  simp only [feed] at h ⊢
  split at h
  · next e' he => cases h; exact he
  · cases h

@[simp] theorem nextItem_fault (d : IncrementalDecoder) : d.nextItem.2.fault = d.fault := by
  unfold nextItem
  split <;> rfl

@[simp] theorem nextItem_scanner (d : IncrementalDecoder) : d.nextItem.2.scanner = d.scanner := by
  unfold nextItem
  split <;> rfl

/-- `nextItem` takes the oldest queued item and leaves the others in order. -/
theorem nextItem_ready (d : IncrementalDecoder) : d.nextItem.1.toList ++ d.nextItem.2.ready = d.ready := by
  unfold nextItem
  split <;> simp_all

/-- A decoder that has failed with `e` stays failed with `e`: every piece, of any length, leaves
it exactly as it is and is refused with `e`, the end of input reports `e`, and taking the queued
items, the oldest first, leaves its scanner, and so its offset, and its error as they are. -/
theorem fault_is_final (h : d.fault = some e) :
    (∀ bs, d.feed bs = (d, .error e)) ∧ d.finish = .error e ∧
      (d.nextItem.2.fault = some e ∧ d.nextItem.2.scanner = d.scanner ∧
        d.nextItem.1.toList ++ d.nextItem.2.ready = d.ready) ∧
      (d.drain.2.fault = some e ∧ d.drain.2.scanner = d.scanner ∧ d.drain.1 = d.ready) :=
  ⟨feed_of_fault h, finish_of_fault h, ⟨by simpa using h, nextItem_scanner d, nextItem_ready d⟩,
    ⟨h, rfl, rfl⟩⟩

/-! ### Items are only appended, and a failing byte appends none -/

/-- From `d` to `d'` the queue only grew, and it grew only if no error was recorded. -/
def Appends (d d' : IncrementalDecoder) : Prop :=
  (∃ new, d'.ready = d.ready ++ new) ∧ (d'.fault = d.fault ∨ d'.ready = d.ready)

theorem Appends.refl (d : IncrementalDecoder) : Appends d d := ⟨⟨[], by simp⟩, .inl rfl⟩

theorem appends_fail (d : IncrementalDecoder) (e : Error) : Appends d (d.fail e) :=
  ⟨⟨[], by simp [ready_fail]⟩, .inr rfl⟩

/-- A change of frames or of the scanner alone appends nothing. -/
theorem appends_of_ready {d d' : IncrementalDecoder} (hr : d'.ready = d.ready) : Appends d d' :=
  ⟨⟨[], by simp [hr]⟩, .inr hr⟩

/-- Appends are kept when frames or the scanner change on the way. -/
theorem Appends.of_eq {d₀ d d' : IncrementalDecoder} (hr : d₀.ready = d.ready)
    (hf : d₀.fault = d.fault) (h : Appends d₀ d') : Appends d d' := by
  obtain ⟨⟨new, hn⟩, hor⟩ := h
  exact ⟨⟨new, by rw [hn, hr]⟩, by rwa [← hr, ← hf]⟩

theorem appends_complete (d : IncrementalDecoder) (x : Item) (s : Nat) :
    Appends d (d.complete x s) := by
  unfold complete
  split
  · next F done _ => exact ⟨⟨done.toList, rfl⟩, .inl rfl⟩
  · exact appends_of_ready rfl

theorem appends_openFrame (d : IncrementalDecoder) (f : Frame) (s : Nat) :
    Appends d (d.openFrame f s) := by
  unfold openFrame
  split_ifs
  · exact appends_fail d _
  split
  · split_ifs
    · exact appends_fail d _
    split
    · exact appends_complete d _ _
    · exact appends_of_ready rfl
  · exact appends_of_ready rfl

theorem appends_close (d : IncrementalDecoder) (pos : Nat) : Appends d (d.close pos) := by
  unfold close
  split
  · exact appends_fail d _
  · exact (appends_complete _ _ _).of_eq rfl rfl
  · exact (appends_fail _ _).of_eq rfl rfl
  · exact (appends_complete _ _ _).of_eq rfl rfl
  · dsimp only
    split_ifs
    · split
      · exact (appends_complete _ _ _).of_eq rfl rfl
      · exact (appends_fail _ _).of_eq rfl rfl
    · exact (appends_complete _ _ _).of_eq rfl rfl
  · exact (appends_fail _ _).of_eq rfl rfl

theorem appends_onToken (d : IncrementalDecoder) (t : Token) (s : Nat) :
    Appends d (d.onToken t s) := by
  cases t <;> simp only [onToken]
  case breakMark => exact appends_close d s
  case bytesStart | textStart => exact appends_of_ready rfl
  case array | arrayStart | map | mapStart | tag => exact appends_openFrame d _ _
  case bytes | text =>
    split
    · next d' h =>
      obtain ⟨_, _, _, _, -, rfl⟩ := appendChunk_eq_some h
      exact appends_of_ready rfl
    · exact appends_complete d _ _
  case negative =>
    split
    · exact appends_fail d _
    · exact appends_complete d _ _
  all_goals exact appends_complete d _ _

theorem appends_take (d : IncrementalDecoder) (b : UInt8) : Appends d (d.take b) := by
  unfold take
  split
  next s r _ =>
  dsimp only
  split
  · exact (appends_fail _ _).of_eq rfl rfl
  · exact appends_of_ready rfl
  · exact (appends_onToken _ _ _).of_eq rfl rfl

theorem appends_push (d : IncrementalDecoder) (b : UInt8) : Appends d (d.push b) := by
  cases hf : d.fault with
  | some e => rw [push_of_fault hf]; exact Appends.refl d
  | none =>
    by_cases hE : d.EntryOk b
    · rw [push_eq_take hf hE]
      exact appends_take d b
    simp only [EntryOk, not_forall, Bool.not_eq_false] at hE
    obtain ⟨hi, hb, n, hn, ht⟩ := hE
    rw [push_of_tooMany hf hi hb hn ht]
    exact appends_fail d _

/-- A run of bytes only appends to the queue. -/
theorem run_appends (d : IncrementalDecoder) (bs : List UInt8) :
    ∃ new, (bs.foldl push d).ready = d.ready ++ new := by
  induction bs generalizing d with
  | nil => exact ⟨[], by simp⟩
  | cons b bs ih =>
    obtain ⟨new₁, h₁⟩ := (appends_push d b).1
    obtain ⟨new₂, h₂⟩ := ih (d.push b)
    exact ⟨new₁ ++ new₂, by rw [List.foldl_cons, h₂, h₁, List.append_assoc]⟩

/-- A run of bytes that ends failed, from a decoder that had not failed, splits at the failing
byte: the bytes before it are taken without failure, the failing byte appends no item, and the
bytes after it are not taken. -/
theorem run_error_split (hd : d.fault = none) {bs : List UInt8}
    (h : (bs.foldl push d).fault = some e) :
    ∃ pre b post, bs = pre ++ b :: post ∧ (pre.foldl push d).fault = none ∧
      bs.foldl push d = (pre.foldl push d).push b ∧
      (bs.foldl push d).ready = (pre.foldl push d).ready := by
  induction bs generalizing d with
  | nil => rw [List.foldl_nil, hd] at h; cases h
  | cons b bs ih =>
    rw [List.foldl_cons] at h ⊢
    cases hb : (d.push b).fault with
    | some e' =>
      -- `b` is the failing byte: what follows it is not taken, and it appends nothing
      rw [run_of_fault hb bs]
      have hkeep : (d.push b).ready = d.ready :=
        (appends_push d b).2.resolve_left (by rw [hd, hb]; simp)
      exact ⟨[], b, bs, rfl, hd, rfl, hkeep⟩
    | none =>
      obtain ⟨pre, b', post, rfl, hpre, heq, hr⟩ := ih hb h
      exact ⟨b :: pre, b', post, rfl, hpre, heq, hr⟩

/-- A piece refused with `e` by a decoder that had not failed splits at the failing byte: the
bytes before it are taken without failure, the failing byte appends no item, the bytes after it
are not taken, and the queue holds the items it held before the piece followed by those that the
bytes before the failing one finished. -/
theorem feed_error_keeps_items (hd : d.fault = none) {bs : List UInt8}
    (h : (d.feed bs).2 = .error e) :
    ∃ pre b post, bs = pre ++ b :: post ∧ (pre.foldl push d).fault = none ∧
      (d.feed bs).1 = (pre.foldl push d).push b ∧ (d.feed bs).1.fault = some e ∧
      (d.feed bs).1.ready = (pre.foldl push d).ready ∧
      ∃ new, (pre.foldl push d).ready = d.ready ++ new := by
  have hfault := feed_error_fault h
  obtain ⟨pre, b, post, hbs, hpre, heq, hr⟩ := run_error_split hd hfault
  exact ⟨pre, b, post, hbs, hpre, heq, hfault, hr, run_appends d pre⟩

end IncrementalDecoder

end Cbor
