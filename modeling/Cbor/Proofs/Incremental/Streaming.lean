import Cbor.Proofs.Incremental.Simulation
/-! # Feeding the input in pieces

A caller of the incremental decoder feeds the input in pieces of any size, takes the finished
items after each piece, stops at the first piece that fails, and calls `finish` at the end
(`decodePieces`). However the input is cut, this gives exactly what `Item.decodeAll` gives for
the whole input, and between pieces a decoder that has not failed is idle exactly when the bytes
so far form a complete sequence (`decodePieces_eq_decodeAll`).

Two facts about the decoder carry this over from `result_eq_decodeAll`: finished items are only
ever appended to the queue, never read, so taking them out changes nothing else (`run_prepend`);
and the scanner fails only together with the decoder (`run_sound`).
-/

namespace Cbor.IncrementalDecoder

/-! ### Finished items are only appended -/

/-- The decoder with the items `r` queued before its own. -/
def prepend (r : List Item) (d : IncrementalDecoder) : IncrementalDecoder :=
  { d with ready := r ++ d.ready }

@[simp] theorem prepend_config (r : List Item) (d : IncrementalDecoder) :
    (d.prepend r).config = d.config := rfl

@[simp] theorem prepend_scanner (r : List Item) (d : IncrementalDecoder) :
    (d.prepend r).scanner = d.scanner := rfl

@[simp] theorem prepend_frames (r : List Item) (d : IncrementalDecoder) :
    (d.prepend r).frames = d.frames := rfl

@[simp] theorem prepend_fault (r : List Item) (d : IncrementalDecoder) :
    (d.prepend r).fault = d.fault := rfl

@[simp] theorem prepend_ready (r : List Item) (d : IncrementalDecoder) :
    (d.prepend r).ready = r ++ d.ready := rfl

theorem prepend_prepend (r r' : List Item) (d : IncrementalDecoder) :
    (d.prepend r').prepend r = d.prepend (r ++ r') := by
  simp [prepend, List.append_assoc]

theorem finish_prepend (r : List Item) (d : IncrementalDecoder) :
    (d.prepend r).finish = d.finish := rfl

@[simp] theorem isIdle_prepend (r : List Item) (d : IncrementalDecoder) :
    (d.prepend r).isIdle = d.isIdle := rfl

theorem complete_prepend (r : List Item) (d : IncrementalDecoder) (x : Item) (s : Nat) :
    (d.prepend r).complete x s = (d.complete x s).prepend r := by
  simp only [complete, prepend_config, prepend_frames]
  rcases Frame.settle d.config x s d.frames with ⟨e, fs⟩ | ⟨fs, done⟩ <;>
    simp [prepend, List.append_assoc]

theorem openFrame_prepend (r : List Item) (d : IncrementalDecoder) (f : Frame) (s : Nat) :
    (d.prepend r).openFrame f s = (d.openFrame f s).prepend r := by
  by_cases hd : d.config.maxDepth ≤ d.frames.length
  · rw [openFrame_deep _ _ hd, openFrame_deep _ _ (by simpa using hd)]
    rfl
  have hd' : ¬ (d.prepend r).config.maxDepth ≤ (d.prepend r).frames.length := by simpa using hd
  cases hn : f.declared with
  | some n =>
    by_cases ht : d.config.tooManyItems n = true
    · rw [openFrame_long hd hn ht, openFrame_long hd' hn (by simpa using ht)]
      rfl
    have hc : ∀ n', f.declared = some n' → d.config.tooManyItems n' = false := by
      intro n' hn'
      rw [hn] at hn'
      cases hn'
      simpa using ht
    rw [openFrame_eq hd hc, openFrame_eq hd' (by simpa using hc)]
    cases f.empty? with
    | some x => exact complete_prepend r d x s
    | none => rfl
  | none =>
    have hc : ∀ n', f.declared = some n' → d.config.tooManyItems n' = false := by
      intro n' hn'
      rw [hn] at hn'
      cases hn'
    rw [openFrame_eq hd hc, openFrame_eq hd' (by simpa using hc)]
    cases f.empty? with
    | some x => exact complete_prepend r d x s
    | none => rfl

theorem close_prepend (r : List Item) (d : IncrementalDecoder) (pos : Nat) :
    (d.prepend r).close pos = (d.close pos).prepend r := by
  unfold close
  dsimp only [prepend_frames]
  cases d.frames with
  | nil => rfl
  | cons f F =>
    rcases f with ⟨s, items, _ | n⟩ | ⟨s, es, _ | k, _ | n⟩ | ⟨s, t⟩ | ⟨s, m, buf⟩
    · exact complete_prepend r { d with frames := F } _ s
    · rfl
    · exact complete_prepend r { d with frames := F } _ s
    · rfl
    · rfl
    · rfl
    · rfl
    · dsimp only
      split_ifs
      · cases Utf8.decode buf.toList with
        | ok cs =>
          exact complete_prepend r { d with frames := F, scanner := d.scanner.setChunking none } _ s
        | error k => rfl
      · exact complete_prepend r { d with frames := F, scanner := d.scanner.setChunking none } _ s

theorem appendChunk_prepend (r : List Item) (d : IncrementalDecoder) (bs : List UInt8) :
    (d.prepend r).appendChunk bs = (d.appendChunk bs).map (prepend r) := by
  unfold appendChunk
  dsimp only [prepend_frames]
  cases d.frames with
  | nil => rfl
  | cons f F => cases f <;> rfl

theorem onToken_prepend (r : List Item) (d : IncrementalDecoder) (t : Token) (s : Nat) :
    (d.prepend r).onToken t s = (d.onToken t s).prepend r := by
  cases t <;> simp only [onToken, prepend_config, complete_prepend, openFrame_prepend,
    close_prepend, appendChunk_prepend]
  case bytesStart | textStart => rfl
  case bytes bs => cases d.appendChunk bs <;> rfl
  case text x => cases d.appendChunk (Utf8.encode x.toList) <;> rfl
  case negative n => split_ifs <;> rfl

theorem take_prepend (r : List Item) (d : IncrementalDecoder) (b : UInt8) :
    (d.prepend r).take b = (d.take b).prepend r := by
  unfold take
  rw [prepend_scanner]
  rcases d.scanner.push b with ⟨s', e | _ | t⟩
  · rfl
  · rfl
  · exact onToken_prepend r { d with scanner := s' } t _

theorem push_prepend (r : List Item) (d : IncrementalDecoder) (b : UInt8) :
    (d.prepend r).push b = (d.push b).prepend r := by
  cases hf : d.fault with
  | some e => rw [push_of_fault hf, push_of_fault (by simpa using hf)]
  | none =>
    have hf' : (d.prepend r).fault = none := by simpa using hf
    by_cases hE : d.EntryOk b
    · rw [push_eq_take hf hE, push_eq_take hf' hE, take_prepend]
    -- the length limit turns the byte away in both
    simp only [EntryOk, not_forall, Bool.not_eq_false] at hE
    obtain ⟨hi, hb, n, hn, ht⟩ := hE
    rw [push_of_tooMany hf hi hb hn ht, push_of_tooMany hf' hi hb hn ht]
    rfl

/-- Queued items in front ride along unchanged through any run. -/
theorem run_prepend (r : List Item) (d : IncrementalDecoder) (bs : List UInt8) :
    bs.foldl push (d.prepend r) = (bs.foldl push d).prepend r := by
  induction bs generalizing d with
  | nil => rfl
  | cons b bs ih => rw [List.foldl_cons, push_prepend, ih, List.foldl_cons]

theorem drain_prepend (d : IncrementalDecoder) : d.drain.2.prepend d.drain.1 = d := by
  cases d
  simp [drain, prepend]

@[simp] theorem prepend_nil (d : IncrementalDecoder) : d.prepend [] = d := rfl

/-! ### The scanner fails only with the decoder -/

/-- The scanner has not failed unless the decoder has. -/
def ScannerSound (d : IncrementalDecoder) : Prop :=
  d.fault = none → ∀ e, d.scanner.phase ≠ .failed e

theorem scanner_openFrame (d : IncrementalDecoder) (f : Frame) (s : Nat) :
    (d.openFrame f s).scanner = d.scanner := by
  unfold openFrame
  split
  · rfl
  split
  · split
    · rfl
    split
    · exact scanner_complete d _ s
    · rfl
  · rfl

theorem phase_close (d : IncrementalDecoder) (pos : Nat) :
    (d.close pos).scanner.phase = d.scanner.phase := by
  unfold close
  split
  · rfl
  · rw [scanner_complete]
  · rfl
  · rw [scanner_complete]
  · dsimp only
    split_ifs
    · split
      · simp only [scanner_complete, Scanner.phase_setChunking]
      · rfl
    · simp only [scanner_complete, Scanner.phase_setChunking]
  · rfl

theorem phase_onToken (d : IncrementalDecoder) (t : Token) (s : Nat) :
    (d.onToken t s).scanner.phase = d.scanner.phase := by
  cases t <;> simp only [onToken, scanner_complete, scanner_openFrame, phase_close]
  case bytesStart | textStart => rfl
  case bytes | text =>
    split
    · next d' h =>
      obtain ⟨_, _, _, _, -, rfl⟩ := appendChunk_eq_some h
      rfl
    · rw [scanner_complete]
  case negative => split <;> simp only [fail, scanner_complete]

/-- An answer of the scanner that is not an error never leaves it failed. -/
def Answer.Live (r : Except Error (Scanner.Phase × Option Token)) : Prop :=
  ∀ p t e, r = .ok (p, t) → p ≠ .failed e

theorem absorb_sound (d : IncrementalDecoder) (ts o : Nat)
    {r : Except Error (Scanner.Phase × Option Token)} (hr : Answer.Live r) :
    ScannerSound (d.absorb ts o r) := by
  intro hf e
  match r, hr with
  | .error _, _ => simp [absorb, fail] at hf
  | .ok (p, none), hr => exact hr p none e rfl
  | .ok (p, some t), hr =>
    rw [absorb, phase_onToken]
    exact hr p (some t) e rfl

theorem live_map_head (r : Except Error Token) :
    Answer.Live (r.map fun t => (.head, some t)) := by
  intro p t e h
  cases r <;> simp [Except.map] at h
  rw [← h.1]
  simp

theorem live_afterArgument (cfg : Config) (ch : Option Chunking) (ts o : Nat) (h : Head) (v : Nat) :
    Answer.Live (Scanner.afterArgument cfg ch ts o h v) := by
  intro p t e hr
  unfold Scanner.afterArgument at hr
  split at hr
  case h_6 | h_7 =>
    split at hr
    split at hr
    · simp at hr
    split at hr
    · exact live_map_head _ p t e hr
    · simp at hr
      rw [← hr.1]
      simp
  case h_8 => exact live_map_head _ p t e hr
  all_goals
    simp only [Except.ok.injEq, Prod.mk.injEq] at hr
    rw [← hr.1]
    simp

theorem live_afterHead (cfg : Config) (ch : Option Chunking) (ts : Nat) (h : Head) :
    Answer.Live (Scanner.afterHead cfg ch ts h) := by
  intro p t e hr
  unfold Scanner.afterHead at hr
  split at hr
  · simp at hr
    rw [← hr.1]
    simp
  split at hr
  · simp at hr
  split at hr
  · simp at hr
  · exact live_afterArgument cfg ch ts (ts + 1) h _ p t e hr
  · simp at hr
    rw [← hr.1]
    simp
  · exact live_map_head _ p t e hr

theorem take_sound {d : IncrementalDecoder} (hs : ScannerSound d) (hf : d.fault = none)
    (b : UInt8) : ScannerSound (d.take b) := by
  cases hp : d.scanner.phase with
  | head =>
    rw [take_head d b hp]
    exact absorb_sound _ _ _ (live_afterHead _ _ _ _)
  | argument h v n =>
    rw [take_argument d b hp]
    refine absorb_sound _ _ _ ?_
    split
    · intro p t e hr
      simp at hr
      rw [← hr.1]
      simp
    · exact live_afterArgument _ _ _ _ _ _
  | payload m bytes n start =>
    rw [take_payload d b hp]
    refine absorb_sound _ _ _ ?_
    split
    · intro p t e hr
      simp at hr
      rw [← hr.1]
      simp
    · exact live_map_head _
  | failed e => exact absurd hp (hs hf e)

theorem push_sound {d : IncrementalDecoder} (hs : ScannerSound d) (b : UInt8) :
    ScannerSound (d.push b) := by
  cases hf : d.fault with
  | some e => rwa [push_of_fault hf]
  | none =>
    by_cases hE : d.EntryOk b
    · rw [push_eq_take hf hE]
      exact take_sound hs hf b
    simp only [EntryOk, not_forall, Bool.not_eq_false] at hE
    obtain ⟨hi, hb, n, hn, ht⟩ := hE
    rw [push_of_tooMany hf hi hb hn ht]
    intro h
    simp [fail] at h

/-- No run leaves the scanner failed behind a decoder that has not failed. -/
theorem run_sound {d : IncrementalDecoder} (hs : ScannerSound d) (bs : List UInt8) :
    ScannerSound (bs.foldl push d) := by
  induction bs generalizing d with
  | nil => exact hs
  | cons b bs ih => exact ih (push_sound hs b)

theorem ofConfig_sound (cfg : Config) : ScannerSound (ofConfig cfg) := by
  intro _ e
  simp [ofConfig, Scanner.ofConfig]

/-- Where the scanner has not failed alone, the end of input is accepted exactly when the
decoder is idle and has not failed. -/
theorem finish_eq_ok_iff {d : IncrementalDecoder} (hs : ScannerSound d) :
    d.finish = .ok () ↔ d.fault = none ∧ d.isIdle = true := by
  cases hf : d.fault with
  | some e => simp [finish, hf]
  | none =>
    have hp := hs hf
    simp only [finish, hf, isIdle, Scanner.pendingSince, Scanner.isIdle, true_and]
    cases hq : d.scanner.phase with
    | head => split <;> simp_all
    | argument => simp
    | payload => simp
    | failed e => exact absurd hq (hp e)

/-! ### Feeding pieces -/

/-- What a caller gets who feeds `pieces` to `d` one after another, takes the finished items
after each piece, stops at the first piece that fails, and otherwise calls `finish` at the end;
`acc` holds the items taken before. -/
def decodeFrom (d : IncrementalDecoder) (acc : List Item) :
    List (List UInt8) → Except (SequenceError Item) (List Item)
  | [] =>
    match d.finish with
    | .ok () => .ok acc
    | .error e => .error ⟨e, acc⟩
  | p :: ps =>
    let (d, r) := d.feed p
    let (items, d) := d.drain
    match r with
    | .error e => .error ⟨e, acc ++ items⟩
    | .ok () => decodeFrom d (acc ++ items) ps

/-- The pieces fed to a fresh decoder. -/
def decodePieces (cfg : Config) (pieces : List (List UInt8)) :
    Except (SequenceError Item) (List Item) :=
  decodeFrom (ofConfig cfg) [] pieces

/-- The decoder after each of `pieces` is fed to `d` and its finished items taken. -/
def feedPieces (d : IncrementalDecoder) : List (List UInt8) → IncrementalDecoder
  | [] => d
  | p :: ps => feedPieces (d.feed p).1.drain.2 ps

/-- Taking the items out between pieces changes nothing but where they are: the caller's result
is that of the decoder fed everything with the taken items left in its queue. -/
theorem decodeFrom_eq_result (d : IncrementalDecoder) (acc : List Item) (hd : d.ready = [])
    (pieces : List (List UInt8)) :
    decodeFrom d acc pieces = (pieces.flatten.foldl push (d.prepend acc)).result := by
  induction pieces generalizing d acc with
  | nil =>
    rw [List.flatten_nil, List.foldl_nil]
    cases hf : d.finish <;> simp [decodeFrom, result, finish_prepend, hf, hd]
  | cons p ps ih =>
    -- `d'` is the decoder after `p`, before its items are taken
    set d' := p.foldl push d with hd'
    have hrun : (p ++ ps.flatten).foldl push (d.prepend acc) = ps.flatten.foldl push (d'.prepend acc) := by
      rw [List.foldl_append, run_prepend]
    rw [List.flatten_cons, hrun]
    simp only [decodeFrom, feed, drain, ← hd']
    cases hf : d'.fault with
    | some e =>
      rw [run_of_fault (by simpa using hf)]
      simp [result, finish, hf]
    | none =>
      rw [ih _ _ rfl]
      simp [prepend, hf]

/-- The decoder after the pieces is the one fed all of them at once, but for the items taken. -/
theorem feedPieces_prepend (d : IncrementalDecoder) (pieces : List (List UInt8)) :
    ∃ r, pieces.flatten.foldl push d = (feedPieces d pieces).prepend r := by
  induction pieces generalizing d with
  | nil => exact ⟨[], rfl⟩
  | cons p ps ih =>
    obtain ⟨r, hr⟩ := ih (p.foldl push d).drain.2
    refine ⟨(p.foldl push d).drain.1 ++ r, ?_⟩
    calc (p :: ps).flatten.foldl push d
        = ps.flatten.foldl push ((p.foldl push d).drain.2.prepend (p.foldl push d).drain.1) := by
          rw [drain_prepend, List.flatten_cons, List.foldl_append]
      _ = ((feedPieces (p.foldl push d).drain.2 ps).prepend r).prepend
            (p.foldl push d).drain.1 := by rw [run_prepend, hr]
      _ = (feedPieces d (p :: ps)).prepend ((p.foldl push d).drain.1 ++ r) := by
          rw [prepend_prepend]
          rfl

theorem result_isOk_iff (d : IncrementalDecoder) : (∃ ts, d.result = .ok ts) ↔ d.finish = .ok () := by
  unfold result
  cases d.finish <;> simp

/-- However the input is cut into pieces, feeding them gives what decoding the whole input at
once gives, items and error alike; and after the pieces, the decoder has not failed and is idle
exactly when the input read so far is a complete sequence. -/
theorem decodePieces_eq_decodeAll (cfg : Config) (pieces : List (List UInt8)) :
    decodePieces cfg pieces = Item.decodeAll cfg pieces.flatten ∧
      ((feedPieces (ofConfig cfg) pieces).fault = none ∧
          (feedPieces (ofConfig cfg) pieces).isIdle = true ↔
        ∃ ts, Item.decodeAll cfg pieces.flatten = .ok ts) := by
  refine ⟨?_, ?_⟩
  · rw [decodePieces, decodeFrom_eq_result _ _ rfl, prepend_nil, result_eq_decodeAll]
  · -- the decoder fed everything at once differs only in its queue
    obtain ⟨r, hr⟩ := feedPieces_prepend (ofConfig cfg) pieces
    have hs : ScannerSound ((feedPieces (ofConfig cfg) pieces).prepend r) :=
      hr ▸ run_sound (ofConfig_sound cfg) _
    rw [← result_eq_decodeAll, hr, result_isOk_iff, finish_eq_ok_iff hs, prepend_fault,
      isIdle_prepend]

end Cbor.IncrementalDecoder
