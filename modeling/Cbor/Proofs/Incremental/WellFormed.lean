import Cbor.Proofs.Incremental.Streaming
/-! # The shape of the open frames

Whatever bytes an incremental decoder is fed, and whenever its finished items are taken out, its
open frames keep one shape (`IncrementalDecoder.WellFormed`):

* a definite container on the stack still waits for at least one entry, so none is ever counted
  down from zero;
* only the innermost frame may be an indefinite string's, and the scanner's own chunking context
  is exactly the one that frame gives: the string's major type, its head's offset and the bytes
  gathered so far, or no context when no string is open;
* an open string gathers bytes, or text whose bytes so far are UTF-8;
* at most `maxDepth` containers and tags are open, so at most `maxDepth + 1` frames.

A well-formed stack has one of two shapes: no string is open, or one is open innermost over
containers and tags only (`WellFormed.outside`, `WellFormed.inside`). While a string is open,
every token the scanner gives is the string's Break or a definite chunk of its type
(`WellFormed.chunkOf`): a chunk is added to the string, and no item is handed to a string's frame
nor a container opened inside one. The Break that ends a string always makes its item
(`WellFormed.close_chunks`): the check for UTF-8 there never fails.

Each byte keeps the shape (`WellFormed.push`), so every state reached from a fresh decoder has it
(`Reachable.wellFormed`), errors included: a failure only records its error.
-/

namespace Cbor

/-! ### Phases, tokens and frames -/

/-- The phase of a scanner inside an indefinite string of major type `m`: between tokens, failed,
or part way through the argument or the payload of a chunk of type `m`. -/
def Scanner.Phase.InChunk (m : Major) : Scanner.Phase → Prop
  | .head | .failed _ => True
  | .argument h _ _ => h.major = m
  | .payload m' _ _ _ => m' = m

/-- A token that may come inside an indefinite string of major type `m`: the Break that ends it,
or a definite chunk of type `m`. -/
def Token.ChunkOf (m : Major) : Token → Prop
  | .breakMark => True
  | .bytes _ => m = .bytes
  | .text _ => m = .text
  | _ => False

/-- A definite container waits for at least one more entry; other frames count nothing. -/
def Frame.Waiting (f : Frame) : Prop := ∀ n, f.declared = some n → 0 < n

/-- An open string's frame gathers bytes, or text whose bytes so far are UTF-8. -/
def Frame.Gathers : Frame → Prop
  | .chunks _ m buf => m = .bytes ∨ m = .text ∧ ∃ cs, Utf8.decode buf.toList = .ok cs
  | _ => True

/-- A frame below any open string: a container or tag that still waits. -/
def Frame.Pending (f : Frame) : Prop := f.Waiting ∧ f.chunking = none

/-- The frames a settle leaves, whether the item is taken or refused. -/
def Frame.left : Except (Error × List Frame) (List Frame × Option Item) → List Frame
  | .ok (F, _) => F
  | .error (_, F) => F

namespace Frame

/-- Settling an item below any open string closes frames and counts one down, so the frames
stay pending and never grow in number. -/
theorem settle_pending (cfg : Config) (x : Item) (s : Nat) (F : List Frame)
    (hF : ∀ f ∈ F, f.Pending) :
    (∀ f ∈ left (settle cfg x s F), f.Pending) ∧ (left (settle cfg x s F)).length ≤ F.length := by
  -- the innermost frame is replaced by one that still waits
  have replace : ∀ g g' rest, g'.Waiting → g'.chunking = none → (∀ f ∈ g :: rest, f.Pending) →
      (∀ f ∈ left (.ok (g' :: rest, none)), f.Pending) ∧
        (left (.ok (g' :: rest, none))).length ≤ (g :: rest).length := by
    intro g g' rest hw hc hF
    refine ⟨?_, le_refl _⟩
    simp only [left, List.mem_cons]
    rintro f (rfl | hf)
    · exact ⟨hw, hc⟩
    · exact hF f (List.mem_cons_of_mem _ hf)
  -- or it is closed, and its item goes to the frames below
  have pop : ∀ (g : Frame) (rest : List Frame) (r : Except (Error × List Frame) (List Frame × Option Item)),
      ((∀ f ∈ rest, f.Pending) → (∀ f ∈ left r, f.Pending) ∧ (left r).length ≤ rest.length) →
      (∀ f ∈ g :: rest, f.Pending) →
      (∀ f ∈ left r, f.Pending) ∧ (left r).length ≤ (g :: rest).length := by
    intro g rest r ih hF
    obtain ⟨h1, h2⟩ := ih fun f hf => hF f (List.mem_cons_of_mem _ hf)
    exact ⟨h1, by simp only [List.length_cons]; omega⟩
  fun_induction settle cfg x s F
  case case1 => simp [left]
  case case2 ih | case7 ih | case10 ih => exact pop _ _ _ ih hF
  case case3 n hn | case8 n hn =>
    exact replace _ _ _ (fun k hk => by simp only [declared, Option.some.injEq] at hk; omega) rfl hF
  case case4 | case9 => exact replace _ _ _ (fun k hk => by simp [declared] at hk) rfl hF
  case case5 | case11 => exact ⟨hF, le_refl _⟩
  case case6 => exact replace _ _ _ (fun k hk => (hF _ List.mem_cons_self).1 k hk) rfl hF

/-- A frame that is no string's gathers nothing. -/
theorem Pending.gathers {f : Frame} (h : f.Pending) : f.Gathers := by
  obtain ⟨-, hc⟩ := h
  cases f <;> simp_all [chunking, Gathers]

/-- A container that declares entries and is not finished at once waits for one of them. -/
theorem waiting_of_empty? {f : Frame} (h : f.empty? = none) : f.Waiting := by
  intro n hn
  cases f with
  | array _ _ r =>
    simp only [declared] at hn
    subst hn
    cases n with
    | zero => simp [empty?] at h
    | succ n => omega
  | map _ _ _ r =>
    simp only [declared] at hn
    subst hn
    cases n with
    | zero => simp [empty?] at h
    | succ n => omega
  | tag | chunks => simp [declared] at hn

/-- A chunk of an open string's type keeps what the string gathers well formed: the bytes of a
text chunk are UTF-8, so the text gathered stays UTF-8. -/
theorem gathers_append {s : Nat} {m : Major} {buf : Array UInt8}
    (hg : (Frame.chunks s m buf).Gathers) {t : Token} (ht : t.ChunkOf m) {bs : List UInt8}
    (hbs : t.chunkBytes = some bs) : (Frame.chunks s m (buf ++ bs.toArray)).Gathers := by
  cases t <;> simp only [Token.ChunkOf] at ht <;> simp only [Token.chunkBytes, reduceCtorEq,
    Option.some.injEq] at hbs
  case bytes => exact .inl ht
  case text str =>
    subst ht hbs
    obtain ⟨cs, hcs⟩ : ∃ cs, Utf8.decode buf.toList = .ok cs := by simpa [Gathers] using hg
    exact .inr ⟨rfl, cs ++ str.toList, by
      simpa using Utf8.decode_append hcs (Utf8.decode_encode str.toList)⟩

end Frame

/-! ### What one byte does to the scanner -/

namespace Scanner

/-- An answer to a byte fits the chunking context `ch`: a finished token leaves the scanner
between tokens and, inside a string, is its Break or one of its chunks; an unfinished one leaves
it inside a chunk of the string. -/
def Answer.Fits (ch : Option Chunking) : Except Error (Phase × Option Token) → Prop
  | .ok (p, some t) => p = .head ∧ ∀ k, ch = some k → t.ChunkOf k.major
  | .ok (p, none) => ∀ k, ch = some k → p.InChunk k.major
  | .error _ => True

/-- What a scanner `s` answered to a byte fits the chunking context `ch`: a token leaves it between
tokens and, inside a string, is its Break or one of its chunks; otherwise, inside a string, it
stays inside a chunk of the string, or has failed. -/
def Fits (ch : Option Chunking) (s : Scanner) : Except Error (Option Token) → Prop
  | .ok (some t) => s.phase = .head ∧ ∀ k, ch = some k → t.ChunkOf k.major
  | _ => ∀ k, ch = some k → s.phase.InChunk k.major

/-- A scanner between tokens is where any string's chunks may begin. -/
theorem inChunk_of_head {s : Scanner} (hp : s.phase = .head) (m : Major) : s.phase.InChunk m := by
  rw [hp]
  trivial

/-- The context is that of an open string, which is a byte or a text string. -/
def Chunking.OfString (ch : Option Chunking) : Prop :=
  ∀ k, ch = some k → k.major = .bytes ∨ k.major = .text

section Answers

variable {cfg : Config} {ch : Option Chunking}

theorem fits_map_head {r : Except Error Token} (h : ∀ t, r = .ok t → ∀ k, ch = some k → t.ChunkOf k.major) :
    Answer.Fits ch (r.map fun t => (.head, some t)) := by
  cases r with
  | error e => trivial
  | ok t => exact ⟨rfl, h t rfl⟩

/-- A definite string's token has the string's major type. -/
theorem stringToken_chunkOf {m : Major} (hm : m = .bytes ∨ m = .text) (bs : List UInt8)
    (start : Nat) : ∀ t, stringToken m bs start = .ok t → t.ChunkOf m := by
  intro t ht
  unfold stringToken at ht
  rcases hm with rfl | rfl
  · simp only [reduceCtorEq, if_false, Except.ok.injEq] at ht
    subst ht
    rfl
  · simp only [if_true] at ht
    split at ht
    · simp only [Except.ok.injEq] at ht
      subst ht
      rfl
    · cases ht

/-- A complete argument: inside a string the head is a chunk's, so it gives the chunk's token or
waits for its payload. -/
theorem afterArgument_fits (hch : Chunking.OfString ch) (ts o : Nat) (h : Head) (v : Nat)
    (hm : ∀ k, ch = some k → h.major = k.major) :
    Answer.Fits ch (afterArgument cfg ch ts o h v) := by
  unfold afterArgument
  split
  case h_6 | h_7 =>
    next hmaj =>
    dsimp only
    split_ifs
    · trivial
    · refine fits_map_head fun t ht k hk => ?_
      rw [← hm k hk, hmaj] at *
      exact stringToken_chunkOf (by simp) [] o t ht
    · intro k hk
      simp only [Phase.InChunk]
      exact hm k hk
  case h_8 hmaj =>
    refine fits_map_head fun t _ k hk => ?_
    have := hch k hk
    rw [← hm k hk, hmaj] at this
    simp at this
  all_goals
    rename_i hmaj
    refine ⟨rfl, fun k hk => ?_⟩
    have := hch k hk
    rw [← hm k hk, hmaj] at this
    simp at this

/-- A head: inside a string only a Break or the head of a chunk of its type passes. -/
theorem afterHead_fits (hch : Chunking.OfString ch) (ts : Nat) (h : Head) :
    Answer.Fits ch (afterHead cfg ch ts h) := by
  unfold afterHead
  split
  · exact ⟨rfl, fun _ _ => trivial⟩
  split
  · trivial
  next hany =>
  -- past the check, the head has the string's major type
  have hm : ∀ k, ch = some k → h.major = k.major := by
    intro k hk
    subst hk
    simp only [Option.any_some, decide_eq_true_eq, not_not] at hany
    exact hany.symm
  split
  · trivial
  · exact afterArgument_fits hch ts (ts + 1) h _ hm
  · intro k hk
    exact hm k hk
  · unfold indefiniteToken
    cases ch with
    | none => exact fits_map_head fun t _ k hk => by cases hk
    | some k => trivial

end Answers

/-- The scanner moved on by a byte keeps its limits and its context, and what it answers fits
that context when the answer did. -/
theorem advance_fits (s : Scanner) {ch : Option Chunking} (ts : Nat)
    {r : Except Error (Phase × Option Token)} (hr : Answer.Fits ch r) :
    (s.advance ts r).1.config = s.config ∧ (s.advance ts r).1.chunking = s.chunking ∧
      Fits ch (s.advance ts r).1 (s.advance ts r).2 := by
  match r, hr with
  | .error e, _ => exact ⟨rfl, rfl, fun _ _ => trivial⟩
  | .ok (p, none), hr => exact ⟨rfl, rfl, hr⟩
  | .ok (p, some t), hr => exact ⟨rfl, rfl, hr⟩

/-- What one byte does, in the scanner's own context: a finished token leaves the scanner between
tokens and, inside a string, is its Break or one of its chunks; otherwise a scanner inside a chunk
of the string stays inside it, or fails. The limits and the context never change. -/
theorem push_fits (s : Scanner) (hch : Chunking.OfString s.chunking)
    (hs : ∀ k, s.chunking = some k → s.phase.InChunk k.major) (b : UInt8) :
    (s.push b).1.config = s.config ∧ (s.push b).1.chunking = s.chunking ∧
      Fits s.chunking (s.push b).1 (s.push b).2 := by
  unfold push
  split
  · next e hp => exact ⟨rfl, rfl, fun k hk => by rw [hp]; trivial⟩
  · exact s.advance_fits _ (afterHead_fits hch _ _)
  · next h v pending hp =>
    apply advance_fits
    split
    · intro k hk
      simpa [hp, Phase.InChunk] using hs k hk
    · exact afterArgument_fits hch _ _ h _ fun k hk => by simpa [hp, Phase.InChunk] using hs k hk
  · next m bytes pending start hp =>
    have hm : ∀ k, s.chunking = some k → m = k.major := fun k hk => by
      simpa [hp, Phase.InChunk] using hs k hk
    apply advance_fits
    split
    · intro k hk
      exact hm k hk
    · refine fits_map_head fun t ht k hk => ?_
      rw [← hm k hk]
      exact stringToken_chunkOf (hm k hk ▸ hch k hk) _ _ t ht

end Scanner

/-! ### The shape kept by every byte -/

namespace IncrementalDecoder

/-- The shape of the open frames under the limits `cfg`. -/
structure WellFormed (cfg : Config) (d : IncrementalDecoder) : Prop where
  config : d.config = cfg
  scanner_config : d.scanner.config = cfg
  /-- A definite container on the stack waits for at least one more entry. -/
  waiting : ∀ f ∈ d.frames, f.Waiting
  /-- Only the innermost frame may be an open string's. -/
  innermost : ∀ f ∈ d.frames.tail, f.chunking = none
  /-- The scanner's chunking context is the one the innermost frame gives: none unless a string is
  open, and then its major type, the bytes it has gathered and its head's offset. -/
  chunking_eq : d.scanner.chunking = d.frames.head?.bind Frame.chunking
  /-- An open string gathers bytes, or text whose bytes so far are UTF-8. -/
  gathers : ∀ f ∈ d.frames, f.Gathers
  /-- At most `cfg.maxDepth` containers and tags are open. -/
  depth_le : d.frames.countP (fun f => f.chunking.isNone) ≤ cfg.maxDepth
  /-- Inside an open string the scanner stands between tokens or inside a chunk of its type. -/
  inChunk : ∀ k, d.scanner.chunking = some k → d.scanner.phase.InChunk k.major

/-- The frames below any open string under the limits `cfg`: containers and tags, each still
waiting, at most `cfg.maxDepth` of them. -/
def Outer (cfg : Config) (F : List Frame) : Prop := (∀ f ∈ F, f.Pending) ∧ F.length ≤ cfg.maxDepth

/-- The states a decoder reaches from a fresh one under the limits `cfg`: by being fed bytes and
by having its finished items taken out. The end of input changes nothing. -/
inductive Reachable (cfg : Config) : IncrementalDecoder → Prop
  | ofConfig : Reachable cfg (ofConfig cfg)
  | feed {d : IncrementalDecoder} (bytes : List UInt8) :
      Reachable cfg d → Reachable cfg (d.feed bytes).1
  | nextItem {d : IncrementalDecoder} : Reachable cfg d → Reachable cfg d.nextItem.2
  | drain {d : IncrementalDecoder} : Reachable cfg d → Reachable cfg d.drain.2

section Shapes

variable {cfg : Config} {d : IncrementalDecoder} {s : Nat} {m : Major} {buf : Array UInt8}
  {F : List Frame}

theorem countP_outer (hF : ∀ f ∈ F, f.Pending) :
    F.countP (fun f => f.chunking.isNone) = F.length :=
  List.countP_eq_length.mpr fun f hf => by simp [(hF f hf).2]

theorem Outer.cons {f : Frame} (hO : Outer cfg F) (hf : f.Pending) (hl : F.length < cfg.maxDepth) :
    Outer cfg (f :: F) := by
  refine ⟨?_, by simp only [List.length_cons]; omega⟩
  simp only [List.mem_cons]
  rintro g (rfl | hg)
  · exact hf
  · exact hO.1 g hg

theorem Outer.tail {f : Frame} (hO : Outer cfg (f :: F)) : Outer cfg F :=
  ⟨fun g hg => hO.1 g (List.mem_cons_of_mem _ hg), by
    have := hO.2
    simp only [List.length_cons] at this
    omega⟩

/-- No string open: the frames are containers and tags within the limits. -/
theorem WellFormed.outside (hc : d.config = cfg) (hsc : d.scanner.config = cfg)
    (hF : Outer cfg d.frames) (hch : d.scanner.chunking = none) : WellFormed cfg d where
  config := hc
  scanner_config := hsc
  waiting f hf := (hF.1 f hf).1
  innermost f hf := (hF.1 f (List.mem_of_mem_tail hf)).2
  chunking_eq := by
    rw [hch]
    cases h : d.frames with
    | nil => rfl
    | cons f F => simp [(hF.1 f (by simp [h])).2]
  gathers f hf := (hF.1 f hf).gathers
  depth_le := by rw [countP_outer hF.1]; exact hF.2
  inChunk k hk := by simp [hch] at hk

/-- A string open innermost, over containers and tags within the limits; the scanner reads chunks
of it. -/
theorem WellFormed.inside (hc : d.config = cfg) (hsc : d.scanner.config = cfg)
    (hF : d.frames = .chunks s m buf :: F) (hO : Outer cfg F) (hg : (Frame.chunks s m buf).Gathers)
    (hch : d.scanner.chunking = some ⟨m, buf.size, s⟩) (hin : d.scanner.phase.InChunk m) :
    WellFormed cfg d where
  config := hc
  scanner_config := hsc
  waiting f hf := by
    rw [hF, List.mem_cons] at hf
    rcases hf with rfl | hf
    · intro n hn
      simp [Frame.declared] at hn
    · exact (hO.1 f hf).1
  innermost f hf := by
    rw [hF] at hf
    exact (hO.1 f hf).2
  chunking_eq := by simp [hF, hch, Frame.chunking]
  gathers f hf := by
    rw [hF, List.mem_cons] at hf
    rcases hf with rfl | hf
    · exact hg
    · exact (hO.1 f hf).gathers
  depth_le := by
    rw [hF, List.countP_cons_of_neg (by simp [Frame.chunking]), countP_outer hO.1]
    exact hO.2
  inChunk k hk := by
    rw [hch] at hk
    cases hk
    exact hin

/-- With no string open, the frames are containers and tags within the limits. -/
theorem WellFormed.outer (h : WellFormed cfg d) (hch : d.scanner.chunking = none) :
    Outer cfg d.frames := by
  have hF : ∀ f ∈ d.frames, f.Pending := by
    intro f hf
    refine ⟨h.waiting f hf, ?_⟩
    cases hd : d.frames with
    | nil => simp [hd] at hf
    | cons g G =>
      rw [hd, List.mem_cons] at hf
      rcases hf with rfl | hf
      · simpa [h.chunking_eq, hd] using hch
      · exact h.innermost f (by simp [hd, hf])
  exact ⟨hF, by rw [← countP_outer hF]; exact h.depth_le⟩

/-- Inside an open string: the frames below it are containers and tags within the limits, and the
scanner reads chunks of the string. -/
theorem WellFormed.inString (h : WellFormed cfg d) (hF : d.frames = .chunks s m buf :: F) :
    Outer cfg F ∧ (Frame.chunks s m buf).Gathers ∧
      d.scanner.chunking = some ⟨m, buf.size, s⟩ ∧ d.scanner.phase.InChunk m := by
  have hch : d.scanner.chunking = some ⟨m, buf.size, s⟩ := by
    simp [h.chunking_eq, hF, Frame.chunking]
  have hP : ∀ f ∈ F, f.Pending := fun f hf =>
    ⟨h.waiting f (by simp [hF, hf]), h.innermost f (by simp [hF, hf])⟩
  refine ⟨⟨hP, ?_⟩, h.gathers _ (by simp [hF]), hch, h.inChunk _ hch⟩
  have := h.depth_le
  rwa [hF, List.countP_cons_of_neg (by simp [Frame.chunking]), countP_outer hP] at this

/-- A scanner's context comes from an open string's frame, innermost. -/
theorem WellFormed.frames_of_chunking (h : WellFormed cfg d) {k : Chunking}
    (hk : d.scanner.chunking = some k) : ∃ s buf F, d.frames = .chunks s k.major buf :: F := by
  rw [h.chunking_eq] at hk
  cases hd : d.frames with
  | nil => simp [hd] at hk
  | cons f F =>
    rw [hd] at hk
    cases f <;> simp [Frame.chunking] at hk
    subst hk
    exact ⟨_, _, _, rfl⟩

/-- At most `maxDepth + 1` frames are open: containers and tags within the limit, and an open
string's frame above them. -/
theorem WellFormed.length_le (h : WellFormed cfg d) : d.frames.length ≤ cfg.maxDepth + 1 := by
  cases hch : d.scanner.chunking with
  | none => exact Nat.le_succ_of_le (h.outer hch).2
  | some k =>
    obtain ⟨s, buf, F, hF⟩ := h.frames_of_chunking hch
    have := (h.inString hF).1.2
    rw [hF, List.length_cons]
    omega

end Shapes

section Steps

variable {cfg : Config} {d : IncrementalDecoder} {s : Nat} {m : Major} {buf : Array UInt8}
  {F : List Frame}

/-- The shape depends only on the limits, the scanner and the frames. -/
theorem WellFormed.congr {d' : IncrementalDecoder} (h : WellFormed cfg d)
    (hc : d'.config = d.config) (hs : d'.scanner = d.scanner) (hf : d'.frames = d.frames) :
    WellFormed cfg d' := by
  obtain ⟨_, _, _, _, _⟩ := d'
  simp only at hc hs hf
  subst hc hs hf
  exact ⟨h.config, h.scanner_config, h.waiting, h.innermost, h.chunking_eq, h.gathers,
    h.depth_le, h.inChunk⟩

theorem WellFormed.fail (h : WellFormed cfg d) (e : Error) : WellFormed cfg (d.fail e) :=
  h.congr rfl rfl rfl

theorem frames_complete (d : IncrementalDecoder) (x : Item) (s : Nat) :
    (d.complete x s).frames = Frame.left (Frame.settle d.config x s d.frames) := by
  unfold complete
  split <;> next heq => rw [heq]; rfl

/-- A finished item goes to the frames below any open string; with a string open it would change
nothing. -/
theorem WellFormed.complete (h : WellFormed cfg d) (x : Item) (s : Nat) :
    WellFormed cfg (d.complete x s) := by
  cases hch : d.scanner.chunking with
  | none =>
    have hO := h.outer hch
    have hs := Frame.settle_pending d.config x s d.frames hO.1
    refine .outside (by rw [config_complete]; exact h.config)
      (by rw [scanner_complete]; exact h.scanner_config) ⟨?_, ?_⟩ (by rw [scanner_complete, hch])
    · rw [frames_complete]
      exact hs.1
    · rw [frames_complete]
      exact Nat.le_trans hs.2 hO.2
  | some k =>
    obtain ⟨s', buf, F, hF⟩ := h.frames_of_chunking hch
    rwa [complete_chunks hF]

/-- A container or tag is opened below any open string, only below the depth limit, and a
container that declares no entries is finished at once. -/
theorem WellFormed.openFrame (h : WellFormed cfg d) (hch : d.scanner.chunking = none) {f : Frame}
    (hf : f.chunking = none) (s : Nat) : WellFormed cfg (d.openFrame f s) := by
  have hO := h.outer hch
  have push : ¬ d.config.maxDepth ≤ d.frames.length → f.Waiting →
      WellFormed cfg { d with frames := f :: d.frames } := by
    intro hd hw
    rw [h.config] at hd
    exact .outside h.config h.scanner_config (hO.cons ⟨hw, hf⟩ (by omega)) hch
  unfold IncrementalDecoder.openFrame
  split_ifs with hd
  · exact h.fail _
  split
  · split_ifs
    · exact h.fail _
    split
    · exact h.complete _ _
    · next he => exact push hd (Frame.waiting_of_empty? he)
  · next hn => exact push hd fun n h' => by rw [hn] at h'; cases h'

/-- A string is opened below any open string, with the scanner between tokens: its frame goes on
top, empty, and the scanner is told its context. -/
theorem WellFormed.openChunks (h : WellFormed cfg d) (hch : d.scanner.chunking = none)
    (hp : d.scanner.phase = .head) (hm : m = .bytes ∨ m = .text) (s : Nat) :
    WellFormed cfg (d.openChunks m s) := by
  refine .inside h.config h.scanner_config rfl (h.outer hch) ?_ rfl (Scanner.inChunk_of_head hp m)
  rcases hm with rfl | rfl
  · exact .inl rfl
  · exact .inr ⟨rfl, [], rfl⟩

/-- A chunk of the open string's type, taken with the scanner between tokens, adds its bytes to
the string's frame and to the scanner's count. -/
theorem WellFormed.onToken_chunk (h : WellFormed cfg d) (hF : d.frames = .chunks s m buf :: F)
    (hp : d.scanner.phase = .head) {t : Token} (ht : t.ChunkOf m) {bs : List UInt8}
    (hbs : t.chunkBytes = some bs) (ts : Nat) : WellFormed cfg (d.onToken t ts) := by
  obtain ⟨hO, hg, hch, -⟩ := h.inString hF
  rw [IncrementalDecoder.onToken_chunk hF hbs]
  exact .inside h.config h.scanner_config rfl hO (Frame.gathers_append hg ht hbs) (by simp [hch])
    (Scanner.inChunk_of_head hp m)

/-- The Break that ends an open string always makes its item: the bytes a text string gathered
are UTF-8, so it is never refused. -/
theorem WellFormed.close_chunks (h : WellFormed cfg d) (hF : d.frames = .chunks s m buf :: F)
    (pos : Nat) :
    ∃ x, d.close pos = { d with frames := F, scanner := d.scanner.setChunking none }.complete x s := by
  rcases (h.inString hF).2.1 with rfl | ⟨rfl, cs, hcs⟩
  · exact ⟨_, close_bytes hF pos⟩
  · exact ⟨_, close_text hF hcs pos⟩

/-- A Break closes the innermost frame: a container or tag is taken off, and an open string is
taken off, the scanner told it is outside any string, and the string finished. -/
theorem WellFormed.close (h : WellFormed cfg d) (pos : Nat) : WellFormed cfg (d.close pos) := by
  cases hF : d.frames with
  | nil =>
    rw [close_nil hF]
    exact h.fail _
  | cons f F =>
    cases hc : f.chunking with
    | none =>
      have hch : d.scanner.chunking = none := by simp [h.chunking_eq, hF, hc]
      have hO := h.outer hch
      rw [hF] at hO
      have hpop : WellFormed cfg { d with frames := F } :=
        .outside h.config h.scanner_config hO.tail hch
      rcases close_container hF hc pos with ⟨x, s, hx⟩ | ⟨e, he⟩
      · rw [hx]
        exact hpop.complete _ _
      · rw [he]
        exact hpop.fail _
    | some k =>
      obtain ⟨s, m, buf, rfl⟩ : ∃ s m buf, f = .chunks s m buf := by
        cases f <;> simp_all [Frame.chunking]
      have hn : WellFormed cfg { d with frames := F, scanner := d.scanner.setChunking none } :=
        .outside h.config h.scanner_config (h.inString hF).1 rfl
      obtain ⟨x, hx⟩ := h.close_chunks hF pos
      rw [hx]
      exact hn.complete _ _

/-- A finished token, taken with the scanner between tokens; inside a string it is the string's
Break or one of its chunks. -/
theorem WellFormed.onToken (h : WellFormed cfg d) (hp : d.scanner.phase = .head) {t : Token}
    (ht : ∀ k, d.scanner.chunking = some k → t.ChunkOf k.major) (s : Nat) :
    WellFormed cfg (d.onToken t s) := by
  cases hch : d.scanner.chunking with
  | none =>
    -- no string open: a definite string is an item of its own
    have hout : d.frames.head?.bind Frame.chunking = none := by rw [← h.chunking_eq, hch]
    cases t <;> simp only [IncrementalDecoder.onToken, appendChunk_outside hout]
    case breakMark => exact h.close s
    case bytesStart => exact h.openChunks hch hp (.inl rfl) s
    case textStart => exact h.openChunks hch hp (.inr rfl) s
    case array | arrayStart | map | mapStart | tag => exact h.openFrame hch rfl _
    case negative =>
      split
      · exact h.fail _
      · exact h.complete _ _
    all_goals exact h.complete _ _
  | some k =>
    -- inside a string only its Break and its chunks come
    obtain ⟨s', buf, F, hF⟩ := h.frames_of_chunking hch
    have hk := ht k hch
    cases t <;> simp only [Token.ChunkOf] at hk
    case breakMark => exact h.close s
    case bytes bs => exact h.onToken_chunk hF hp (t := .bytes bs) hk rfl s
    case text str => exact h.onToken_chunk hF hp (t := .text str) hk rfl s

/-- The scanner moved on by a byte, before the token is put in place: its limits and context are
kept, and inside a string it stays inside a chunk of it. -/
theorem WellFormed.withScanner (h : WellFormed cfg d) {s' : Scanner}
    (hc : s'.config = d.scanner.config) (hch : s'.chunking = d.scanner.chunking)
    (hin : ∀ k, d.scanner.chunking = some k → s'.phase.InChunk k.major) :
    WellFormed cfg { d with scanner := s' } where
  config := h.config
  scanner_config := hc.trans h.scanner_config
  waiting := h.waiting
  innermost := h.innermost
  chunking_eq := hch.trans h.chunking_eq
  gathers := h.gathers
  depth_le := h.depth_le
  inChunk k hk := hin k (hch ▸ hk)

theorem WellFormed.ofString (h : WellFormed cfg d) : Scanner.Chunking.OfString d.scanner.chunking := by
  intro k hk
  obtain ⟨s, buf, F, hF⟩ := h.frames_of_chunking hk
  rcases (h.inString hF).2.1 with h' | ⟨h', -⟩
  · exact .inl h'
  · exact .inr h'

theorem WellFormed.take (h : WellFormed cfg d) (b : UInt8) : WellFormed cfg (d.take b) := by
  obtain ⟨hc, hch, hfit⟩ := d.scanner.push_fits h.ofString h.inChunk b
  unfold IncrementalDecoder.take
  split
  next s r hsr =>
  rw [hsr] at hc hch hfit
  dsimp only at hc hch hfit ⊢
  split
  · exact (h.withScanner hc hch hfit).fail _
  · exact h.withScanner hc hch hfit
  · next t =>
    refine (h.withScanner hc hch fun k _ => Scanner.inChunk_of_head hfit.1 k.major).onToken hfit.1
      ?_ _
    intro k hk
    exact hfit.2 k (hch ▸ hk)

theorem WellFormed.push (h : WellFormed cfg d) (b : UInt8) : WellFormed cfg (d.push b) := by
  cases hf : d.fault with
  | some e => rwa [push_of_fault hf]
  | none =>
    by_cases hE : d.EntryOk b
    · rw [push_eq_take hf hE]
      exact h.take b
    simp only [EntryOk, not_forall, Bool.not_eq_false] at hE
    obtain ⟨hi, hb, n, hn, ht⟩ := hE
    rw [push_of_tooMany hf hi hb hn ht]
    exact h.fail _

/-- A run of bytes keeps the shape, byte by byte. -/
theorem WellFormed.run (h : WellFormed cfg d) (bs : List UInt8) :
    WellFormed cfg (bs.foldl IncrementalDecoder.push d) := by
  induction bs generalizing d with
  | nil => exact h
  | cons b bs ih => exact ih (h.push b)

/-- While a string is open, every token the scanner gives is its Break or one of its chunks. -/
theorem WellFormed.chunkOf (h : WellFormed cfg d) (hF : d.frames = .chunks s m buf :: F)
    (b : UInt8) {t : Token} (ht : (d.scanner.push b).2 = .ok (some t)) : t.ChunkOf m := by
  obtain ⟨-, -, hch, -⟩ := h.inString hF
  obtain ⟨-, -, hfit⟩ := d.scanner.push_fits h.ofString h.inChunk b
  rw [ht] at hfit
  exact hfit.2 _ hch

end Steps

/-- Every state a decoder reaches has the shape of `WellFormed`. -/
theorem Reachable.wellFormed {cfg : Config} {d : IncrementalDecoder} (h : Reachable cfg d) :
    WellFormed cfg d := by
  induction h with
  | ofConfig => exact .outside rfl rfl ⟨by simp [IncrementalDecoder.ofConfig], by
      simp [IncrementalDecoder.ofConfig]⟩ rfl
  | feed bytes _ ih => exact ih.run bytes
  | nextItem _ ih =>
    unfold IncrementalDecoder.nextItem
    split
    · exact ih
    · exact ih.congr rfl rfl rfl
  | drain _ ih => exact ih.congr rfl rfl rfl

/-- Every state an incremental decoder reaches, whatever it was fed and whenever its items were
taken out, has well-formed frames, so at most `maxDepth + 1` of them; and while a string is open,
each token the scanner gives is the string's Break or a chunk of its type, and the Break makes
the string's item. -/
theorem Reachable.frames_wellFormed {cfg : Config} {d : IncrementalDecoder} (h : Reachable cfg d) :
    WellFormed cfg d ∧ d.frames.length ≤ cfg.maxDepth + 1 ∧
      ∀ s m buf F, d.frames = .chunks s m buf :: F →
        (∀ b t, (d.scanner.push b).2 = .ok (some t) → t.ChunkOf m) ∧
        ∀ pos, ∃ x, d.close pos =
          { d with frames := F, scanner := d.scanner.setChunking none }.complete x s :=
  ⟨h.wellFormed, h.wellFormed.length_le, fun _ _ _ _ hF =>
    ⟨fun b _ ht => h.wellFormed.chunkOf hF b ht, h.wellFormed.close_chunks hF⟩⟩

/-- Inside an indefinite text string opened within an indefinite array, after one of its chunks:
the string's frame is innermost and has gathered the chunk's byte. -/
theorem frames_wellFormed_inside_chunks :
    Reachable {} ((ofConfig {}).feed [0x9F, 0x7F, 0x61, 0x61]).1 ∧
      ((ofConfig {}).feed [0x9F, 0x7F, 0x61, 0x61]).1.frames =
        [.chunks 1 .text #[0x61], .array 0 #[] none] ∧
      (WellFormed {} ((ofConfig {}).feed [0x9F, 0x7F, 0x61, 0x61]).1 ∧
        ((ofConfig {}).feed [0x9F, 0x7F, 0x61, 0x61]).1.frames.length ≤ ({} : Config).maxDepth + 1 ∧
        ∀ s m buf F, ((ofConfig {}).feed [0x9F, 0x7F, 0x61, 0x61]).1.frames = .chunks s m buf :: F →
          (∀ b t, (((ofConfig {}).feed [0x9F, 0x7F, 0x61, 0x61]).1.scanner.push b).2 =
            .ok (some t) → t.ChunkOf m) ∧
          ∀ pos, ∃ x, ((ofConfig {}).feed [0x9F, 0x7F, 0x61, 0x61]).1.close pos =
            { ((ofConfig {}).feed [0x9F, 0x7F, 0x61, 0x61]).1 with
              frames := F
              scanner := ((ofConfig {}).feed [0x9F, 0x7F, 0x61, 0x61]).1.scanner.setChunking none
              }.complete x s) :=
  ⟨.feed _ .ofConfig, rfl, Reachable.frames_wellFormed (.feed _ .ofConfig)⟩

end IncrementalDecoder

end Cbor
