import Cbor.Config
import Cbor.Error
import Cbor.Head
import Cbor.Token
import Cbor.Text.Utf8
/-! # Scanning tokens one byte at a time

A scanner cuts bytes into tokens one byte at a time, so its input may be split anywhere. Between
bytes it expects a head, gathers the bytes of an argument, gathers the payload of a definite
string, or has failed; a failed scanner refuses every later byte with the same error and does not
count it.

Errors are found at the offset of the token's head, except that a text payload that is not UTF-8
is refused at its first bad sequence, and a string over the length limit inside an indefinite
string at the start of that string.

Inside an indefinite-length string (a `Chunking` context) only a Break or a definite string of the
same major type may come, and the length limit applies to the bytes gathered so far. The scanner
keeps that context in a field of its own, which only its owner writes: `setChunking` when a string
opens or closes, `addChunk` when a chunk is added to it. A scanner on its own has no context.

## Main definitions

* `Cbor.Scanner.push`: one byte, in the scanner's own chunking context.
* `Cbor.Scanner.feed`, `Cbor.Scanner.finish`: bytes one after another, and the end of input.
* `Cbor.Scanner.setChunking`, `Cbor.Scanner.addChunk`: what the owner tells the scanner.
-/

namespace Cbor

/-- The indefinite-length string a scanner is inside of: its major type, the bytes gathered so
far and the offset of its head. -/
structure Chunking where
  /-- Major type of the string. -/
  major : Major
  /-- Bytes of the chunks so far. -/
  gathered : Nat
  /-- Offset of the string's head. -/
  start : Nat
  deriving DecidableEq, Repr

namespace Scanner

/-- Where a scanner stands between two bytes. -/
inductive Phase where
  /-- The next byte is a head. -/
  | head
  /-- Gathering the argument of `head`: `pending` more bytes, the value so far `value`. -/
  | argument (head : Head) (value : Nat) (pending : Nat)
  /-- Gathering a definite string's payload, which starts at `start`: `pending` more bytes. -/
  | payload (major : Major) (bytes : Array UInt8) (pending : Nat) (start : Nat)
  /-- Failed with an error. -/
  | failed (e : Error)
  deriving DecidableEq, Repr

end Scanner

/-- A token scanner. -/
structure Scanner where
  /-- The limits: only those on string length and indefinite lengths concern tokens. -/
  config : Config
  /-- Where it stands. -/
  phase : Scanner.Phase
  /-- Bytes taken so far. -/
  offset : Nat
  /-- Offset of the head of the current or last token. -/
  tokenStart : Nat
  /-- The indefinite-length string it reads chunks of, as its owner last set it. -/
  chunking : Option Chunking
  deriving Repr

namespace Scanner

/-- A fresh scanner. -/
def ofConfig (cfg : Config) : Scanner := ⟨cfg, .head, 0, 0, none⟩

/-- The scanner told which indefinite-length string it reads chunks of, if any. -/
def setChunking (s : Scanner) (ch : Option Chunking) : Scanner := { s with chunking := ch }

/-- The scanner told that a chunk of `len` bytes joined the string it reads chunks of. -/
def addChunk (s : Scanner) (len : Nat) : Scanner :=
  { s with chunking := s.chunking.map fun c => { c with gathered := c.gathered + len } }

/-- Whether the next byte will be read as a head. -/
def isIdle (s : Scanner) : Bool :=
  match s.phase with
  | .head => true
  | _ => false

/-- Where the unfinished argument or payload began: the byte after the head, or the payload's
first byte. -/
def pendingSince (s : Scanner) : Option Nat :=
  match s.phase with
  | .argument .. => some (s.tokenStart + 1)
  | .payload _ _ _ start => some start
  | _ => none

/-- The token of a definite string of major type `major` whose payload, starting at `start`, is
`bytes`. -/
def stringToken (major : Major) (bytes : List UInt8) (start : Nat) : Except Error Token :=
  if major = .text then
    match Utf8.decode bytes with
    | .ok cs => .ok (.text (String.ofList cs))
    | .error k => .error ⟨.invalidUtf8, start + k⟩
  else .ok (.bytes bytes)

/-- The token of a head of major type 7 with additional information `info` and argument `v`. -/
def simpleToken (info v tokenStart : Nat) : Except Error Token :=
  if info = 20 then .ok (.bool false)
  else if info = 21 then .ok (.bool true)
  else if info = 22 then .ok .null
  else if info = 23 then .ok .undefined
  else if info < 20 then .ok (.simple info.toUInt8)
  else if info = 24 then
    if v < 32 then .error ⟨.unsupportedSimple v, tokenStart⟩ else .ok (.simple v.toUInt8)
  else if info = 25 then .ok (.float (.half v.toUInt16))
  else if info = 26 then .ok (.float (.single v.toUInt32))
  else if info = 27 then .ok (.float (.double v.toUInt64))
  else .error ⟨.reservedInfo info, tokenStart⟩

theorem simpleToken_small {info : Nat} (h : info < 20) (v o : Nat) :
    simpleToken info v o = .ok (.simple info.toUInt8) := by
  unfold simpleToken
  rw [if_neg (by omega), if_neg (by omega), if_neg (by omega), if_neg (by omega), if_pos h]

theorem simpleToken_24 (v o : Nat) :
    simpleToken 24 v o = if v < 32 then .error ⟨.unsupportedSimple v, o⟩ else .ok (.simple v.toUInt8) :=
  rfl

theorem simpleToken_25 (v o : Nat) : simpleToken 25 v o = .ok (.float (.half v.toUInt16)) := rfl

theorem simpleToken_26 (v o : Nat) : simpleToken 26 v o = .ok (.float (.single v.toUInt32)) := rfl

theorem simpleToken_27 (v o : Nat) : simpleToken 27 v o = .ok (.float (.double v.toUInt64)) := rfl

/-- What a complete argument `v` of head `h` gives: a token, or for a string the wait for its
payload. `offset` is the offset after the last byte read. -/
def afterArgument (cfg : Config) (chunking : Option Chunking) (tokenStart offset : Nat) (h : Head)
    (v : Nat) : Except Error (Phase × Option Token) :=
  match h.major with
  | .unsigned => .ok (.head, some (.unsigned v.toUInt64))
  | .negative => .ok (.head, some (.negative v.toUInt64))
  | .array => .ok (.head, some (.array v.toUInt64))
  | .map => .ok (.head, some (.map v.toUInt64))
  | .tag => .ok (.head, some (.tag v.toUInt64))
  | .bytes | .text =>
    -- inside an indefinite string the limit is on the bytes gathered, counted in 64 bits
    let (total, first) := match chunking with
      | some c => (min (c.gathered + v) (Nat.pow 2 64 - 1), c.start)
      | none => (v, tokenStart)
    if cfg.stringTooLong total then .error ⟨.stringTooLong total, first⟩
    else if v = 0 then (stringToken h.major [] offset).map fun t => (.head, some t)
    else .ok (.payload h.major #[] v offset, none)
  | .simple => (simpleToken h.info v tokenStart).map fun t => (.head, some t)

/-- The token of a head with an indefinite length. -/
def indefiniteToken (cfg : Config) (chunking : Option Chunking) (h : Head) (tokenStart : Nat) :
    Except Error Token :=
  if chunking.isSome then .error ⟨.invalidChunk, tokenStart⟩
  else
    let token : Option Token := match h.major with
      | .bytes => some .bytesStart
      | .text => some .textStart
      | .array => some .arrayStart
      | .map => some .mapStart
      | _ => none
    match token with
    | none => .error ⟨.reservedInfo h.info, tokenStart⟩
    | some t => if cfg.allowIndefinite then .ok t else .error ⟨.indefiniteLength, tokenStart⟩

/-- What a head byte gives, read at `tokenStart`. -/
def afterHead (cfg : Config) (chunking : Option Chunking) (tokenStart : Nat) (h : Head) :
    Except Error (Phase × Option Token) :=
  if h.major = .simple ∧ h.info = 31 then .ok (.head, some .breakMark)
  else if chunking.any (fun c => c.major ≠ h.major) then
    .error ⟨.invalidChunk, tokenStart⟩
  else
    match Argument.ofInfo? h.info with
    | none => .error ⟨.reservedInfo h.info, tokenStart⟩
    | some (.immediate v) => afterArgument cfg chunking tokenStart (tokenStart + 1) h v
    | some (.follows w) => .ok (.argument h 0 w, none)
    | some .indefinite => (indefiniteToken cfg chunking h tokenStart).map fun t => (.head, some t)

/-- The scanner after taking one more byte of the token whose head is at `tokenStart`, with
what that byte gave: the next phase and a finished token, or an error that it keeps. -/
def advance (s : Scanner) (tokenStart : Nat) :
    Except Error (Phase × Option Token) → Scanner × Except Error (Option Token)
  | .ok (p, t) => ({ s with phase := p, offset := s.offset + 1, tokenStart }, .ok t)
  | .error e => ({ s with phase := .failed e, offset := s.offset + 1, tokenStart }, .error e)

/-- One byte: the scanner after it and the token it completes, if any, read in the scanner's own
chunking context. A failed scanner keeps its error and does not take the byte. -/
def push (s : Scanner) (b : UInt8) : Scanner × Except Error (Option Token) :=
  match s.phase with
  | .failed e => (s, .error e)
  | .head => s.advance s.offset (afterHead s.config s.chunking s.offset (Head.ofByte b))
  | .argument h v pending =>
    let v := v * 256 + b.toNat
    s.advance s.tokenStart <|
      if 1 < pending then .ok (.argument h v (pending - 1), none)
      else afterArgument s.config s.chunking s.tokenStart (s.offset + 1) h v
  | .payload m bytes pending start =>
    let bytes := bytes.push b
    s.advance s.tokenStart <|
      if 1 < pending then .ok (.payload m bytes (pending - 1) start, none)
      else (stringToken m bytes.toList start).map fun t => (.head, some t)

/-- Bytes one after another: the tokens they complete, or the first error. -/
def feed (s : Scanner) (bytes : List UInt8) : Scanner × Except Error (List Token) :=
  go s bytes #[]
where
  /-- The tokens after those in `acc`. -/
  go (s : Scanner) : List UInt8 → Array Token → Scanner × Except Error (List Token)
    | [], acc => (s, .ok acc.toList)
    | b :: rest, acc =>
      match s.push b with
      | (s, .error e) => (s, .error e)
      | (s, .ok t) => go s rest (match t with
        | some t => acc.push t
        | none => acc)

/-- The end of input: an error if the scanner failed or stopped inside a token. -/
def finish (s : Scanner) : Except Error Unit :=
  match s.phase with
  | .failed e => .error e
  | _ =>
    match s.pendingSince with
    | some first => .error ⟨.unexpectedEnd, first⟩
    | none => .ok ()

end Scanner

end Cbor
