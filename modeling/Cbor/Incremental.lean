import Cbor.Incremental.Frame
import Cbor.Token.Scanner
/-! # Incremental decoding

An incremental decoder takes a CBOR sequence in pieces of any size and queues each top-level item
as it completes. It runs a token scanner and assembles the tokens into items with its frames of
open containers, so it gives the same items and the same errors, at the same offsets, as reading
the whole input at once with `Item.decodeAll`.

The checks sit where the information arrives: the length limit of an indefinite container before
the byte that begins its next entry (that byte is then not taken), the depth and length limits of
a container when its head is read, a repeated key when it is complete, a wide negative integer
when its head is read, and a misplaced Break when it comes. The first failure is final: later
input and the end of input report it again, nothing more is taken, and items already queued stay
available.

An indefinite-length string is a frame too. Opening one tells the scanner the string's context,
each chunk added tells it the bytes gathered, and the Break that closes the string clears the
context and makes the item of the bytes gathered, a text string only if they are UTF-8.
-/

namespace Cbor

/-- The state of an incremental decoder. -/
structure IncrementalDecoder where
  /-- The limits. -/
  config : Config
  /-- The token scanner, which has taken every byte fed so far. -/
  scanner : Scanner
  /-- Open containers, tags and strings, innermost first. -/
  frames : List Frame
  /-- Finished top-level items not yet taken, oldest first. -/
  ready : List Item
  /-- The error the decoder failed with. -/
  fault : Option Error
  deriving Repr

namespace IncrementalDecoder

/-- A fresh decoder. -/
def ofConfig (cfg : Config) : IncrementalDecoder := ⟨cfg, .ofConfig cfg, [], [], none⟩

/-- Bytes taken so far. -/
def offset (d : IncrementalDecoder) : Nat := d.scanner.offset

/-- Whether no item is partly read. -/
def isIdle (d : IncrementalDecoder) : Bool :=
  d.frames.isEmpty && d.scanner.isIdle

/-- The decoder failed with `e`. -/
def fail (d : IncrementalDecoder) (e : Error) : IncrementalDecoder := { d with fault := some e }

/-- The finished item `x`, whose encoding starts at `start`, goes to its container, or to the
ready items when none is open. -/
def complete (d : IncrementalDecoder) (x : Item) (start : Nat) : IncrementalDecoder :=
  match Frame.settle d.config x start d.frames with
  | .ok (frames, done) => { d with frames, ready := d.ready ++ done.toList }
  | .error (e, frames) => { d with frames, fault := some e }

/-- Opens a container or tag whose head is at `start`: the depth limit first, then the length
limit; a container that declares no entries is finished at once. -/
def openFrame (d : IncrementalDecoder) (f : Frame) (start : Nat) : IncrementalDecoder :=
  if d.config.maxDepth ≤ d.frames.length then d.fail ⟨.nestingTooDeep d.config.maxDepth, start⟩
  else
    match f.declared with
    | some n =>
      if d.config.tooManyItems n then d.fail ⟨.tooManyItems n, start⟩
      else
        match f.empty? with
        | some x => d.complete x start
        | none => { d with frames := f :: d.frames }
    | none => { d with frames := f :: d.frames }

/-- Opens an indefinite-length string of major type `m` whose head is at `start`: its frame goes
on the stack, and the scanner is told to read chunks of it. -/
def openChunks (d : IncrementalDecoder) (m : Major) (start : Nat) : IncrementalDecoder :=
  { d with
    scanner := d.scanner.setChunking (some ⟨m, 0, start⟩)
    frames := .chunks start m #[] :: d.frames }

/-- A chunk's bytes added to the open string, when the innermost frame is one; the scanner is
told how many bytes were added. -/
def appendChunk (d : IncrementalDecoder) (bytes : List UInt8) : Option IncrementalDecoder :=
  match d.frames with
  | .chunks s m buf :: rest =>
    some { d with
      frames := .chunks s m (buf ++ bytes.toArray) :: rest
      scanner := d.scanner.addChunk bytes.length }
  | _ => none

/-- A Break read at `pos` closes the innermost frame, which must be an indefinite container not
waiting for a value or a string; the frame is taken off either way. A string closed tells the
scanner it is outside any string, and its bytes make its item, for a text string only if they are
UTF-8: else it is refused at its head's offset plus the length of the longest valid prefix. -/
def close (d : IncrementalDecoder) (pos : Nat) : IncrementalDecoder :=
  match d.frames with
  | [] => d.fail ⟨.trailingGarbage, pos⟩
  | .array s items none :: rest => { d with frames := rest }.complete (.array items.toList) s
  | .map _ _ (some _) none :: rest => { d with frames := rest }.fail ⟨.truncatedMapPair, pos⟩
  | .map s entries none none :: rest =>
    { d with frames := rest }.complete (.map entries.toList) s
  | .chunks s m buf :: rest =>
    let d := { d with frames := rest, scanner := d.scanner.setChunking none }
    if m = .text then
      match Utf8.decode buf.toList with
      | .ok cs => d.complete (.text (String.ofList cs)) s
      | .error k => d.fail ⟨.invalidUtf8, s + k⟩
    else d.complete (.bytes buf.toList) s
  | _ :: rest => { d with frames := rest }.fail ⟨.unexpectedBreak, pos⟩

/-- What a token whose head is at `start` does. -/
def onToken (d : IncrementalDecoder) (t : Token) (start : Nat) : IncrementalDecoder :=
  match t with
  | .breakMark => d.close start
  | .bytesStart => d.openChunks .bytes start
  | .textStart => d.openChunks .text start
  | .array n => d.openFrame (.array start #[] (some n.toNat)) start
  | .arrayStart => d.openFrame (.array start #[] none) start
  | .map n => d.openFrame (.map start #[] none (some n.toNat)) start
  | .mapStart => d.openFrame (.map start #[] none none) start
  | .tag n => d.openFrame (.tag start n) start
  | .bytes bs =>
    match d.appendChunk bs with
    | some d => d
    | none => d.complete (.bytes bs) start
  | .text s =>
    match d.appendChunk (Utf8.encode s.toList) with
    | some d => d
    | none => d.complete (.text s) start
  | .unsigned n => d.complete (.unsigned n) start
  | .negative n =>
    if !d.config.allowWideNegative && Nat.pow 2 63 ≤ n.toNat then d.fail ⟨.integerOverflow, start⟩
    else d.complete (.negative n) start
  | .bool b => d.complete (.bool b) start
  | .null => d.complete .null start
  | .undefined => d.complete .undefined start
  | .simple v => d.complete (.simple v) start
  | .float x => d.complete (.float x) start

/-- The byte given to the scanner, and the token it completes put in place. -/
def take (d : IncrementalDecoder) (b : UInt8) : IncrementalDecoder :=
  let (s, r) := d.scanner.push b
  let d := { d with scanner := s }
  match r with
  | .error e => d.fail e
  | .ok none => d
  | .ok (some t) => d.onToken t s.tokenStart

/-- One byte. Before a byte that begins an entry of an indefinite container, the length limit
must admit that entry; a failed decoder takes nothing. -/
def push (d : IncrementalDecoder) (b : UInt8) : IncrementalDecoder :=
  match d.fault with
  | some _ => d
  | none =>
    let count := if d.scanner.isIdle && b != breakByte then Frame.nextEntryCount d.frames else none
    match count with
    | some n => if d.config.tooManyItems n then d.fail ⟨.tooManyItems n, d.offset⟩ else d.take b
    | none => d.take b

/-- A piece of input: the decoder after it, and its error if it has failed. -/
def feed (d : IncrementalDecoder) (bytes : List UInt8) : IncrementalDecoder × Except Error Unit :=
  let d := bytes.foldl push d
  (d, match d.fault with
    | some e => .error e
    | none => .ok ())

/-- The end of input: the error the decoder failed with, or running out inside an item. -/
def finish (d : IncrementalDecoder) : Except Error Unit :=
  match d.fault with
  | some e => .error e
  | none =>
    match d.scanner.pendingSince with
    | some first => .error ⟨.unexpectedEnd, first⟩
    | none =>
      if d.frames.isEmpty then .ok () else .error ⟨.unexpectedEnd, d.offset⟩

/-- The oldest finished item, taken out. -/
def nextItem (d : IncrementalDecoder) : Option Item × IncrementalDecoder :=
  match d.ready with
  | [] => (none, d)
  | x :: rest => (some x, { d with ready := rest })

/-- All finished items, taken out. -/
def drain (d : IncrementalDecoder) : List Item × IncrementalDecoder :=
  (d.ready, { d with ready := [] })

end IncrementalDecoder

end Cbor
