import Cbor.Config
import Cbor.Error
import Cbor.Head
import Cbor.Item.Basic
import Cbor.Text.Utf8
/-! # Decoding items from a byte string

Reading one data item from a position in a byte string, under the limits of a `Config`. The
reader stops at the first fault, reporting its cause, the offset where it was found and how far
reading had got; that last offset is where a sequence reader stands after a failed item.

The order of the checks on a head is part of the contract, since an input with two faults shows
which one wins: a Break where an item should start; then the argument (a reserved additional
information value, or too few bytes); then an indefinite length where the limits refuse it; then,
for containers and tags, the nesting depth, and for a definite container its length.

An indefinite-length string is a series of definite chunks of its own major type ending at a
Break; its length limit applies to the bytes gathered so far with each new chunk, and each text
chunk must be well-formed UTF-8 on its own. An indefinite container checks its length limit before
each entry, at the byte where that entry would start.

## Main definitions

* `Cbor.Cursor`: an offset and the bytes from there on.
* `Cbor.Cursor.readItem`: one item, with the cursor after it or a `Stop`.
* `Cbor.Item.decode`: the item at the start of a byte string and the number of bytes it took.

Each read returns the cursor after it as a subtype recording that it did not move back, or, for
a whole item, that it moved forward; the mutual recursion of items and their entries ends by the
measure `2 * c.rest.length + level`, level 0 for an item and 1 for an entry loop.
-/

namespace Cbor

/-- A place in an input: the offset of the next byte and the bytes from there on. -/
structure Cursor where
  /-- Offset of the next byte from the start of the input. -/
  offset : Nat
  /-- The bytes not read yet. -/
  rest : List UInt8
  deriving DecidableEq, Repr

/-- Why a read stopped: the error, and the offset up to which bytes had been consumed. -/
structure Stop where
  /-- The fault and where it was found. -/
  error : Error
  /-- The offset after the last byte consumed before the fault was found. -/
  readTo : Nat
  deriving DecidableEq, Repr

namespace Cursor

/-- The cursor at the start of an input. -/
def start (bytes : List UInt8) : Cursor := ⟨0, bytes⟩

/-- Cursors no further back than `c`. -/
abbrev Ahead (c : Cursor) : Type := { d : Cursor // d.rest.length ≤ c.rest.length }

/-- Cursors strictly past `c`. -/
abbrev Past (c : Cursor) : Type := { d : Cursor // d.rest.length < c.rest.length }

/-- The cursor itself, as one no further back. -/
def here (c : Cursor) : c.Ahead := ⟨c, Nat.le_refl _⟩

/-- A stop with this cursor as the end of reading: fault `kind` found at `offset`. -/
def stop (c : Cursor) (kind : ErrorKind) (offset : Nat) : Stop := ⟨⟨kind, offset⟩, c.offset⟩

/-- The next `n` bytes, or running out of input at this offset. -/
def take (c : Cursor) (n : Nat) : Except Stop (List UInt8 × c.Ahead) :=
  if n ≤ c.rest.length then
    .ok (c.rest.take n, ⟨⟨c.offset + n, c.rest.drop n⟩, by simp⟩)
  else .error (c.stop .unexpectedEnd c.offset)

/-- The argument that additional information `info` announces, for the head read at `start`;
`none` for an indefinite length. -/
def argument (c : Cursor) (info start : Nat) : Except Stop (Option Nat × c.Ahead) :=
  match Argument.ofInfo? info with
  | none => .error (c.stop (.reservedInfo info) start)
  | some (.immediate v) => .ok (some v, c.here)
  | some (.follows w) =>
    match c.take w with
    | .ok (bs, d) => .ok (some (bigEndian bs), d)
    | .error s => .error s
  | some .indefinite => .ok (none, c.here)

/-- The argument of an integer or a tag, which cannot be indefinite. -/
def definite (c : Cursor) (info start : Nat) : Except Stop (Nat × c.Ahead) :=
  match c.argument info start with
  | .ok (some v, d) => .ok (v, d)
  | .ok (none, _) => .error (c.stop (.reservedInfo info) start)
  | .error s => .error s

/-- The length of a string or container; `none` for an indefinite length if the limits admit
one. -/
def length (c : Cursor) (cfg : Config) (info start : Nat) :
    Except Stop (Option Nat × c.Ahead) :=
  match c.argument info start with
  | .ok (none, d) =>
    if cfg.allowIndefinite then .ok (none, d) else .error (c.stop .indefiniteLength start)
  | r => r

/-- The payload of a definite string of `len` bytes whose head is at `start`. -/
def payload (c : Cursor) (cfg : Config) (len start : Nat) : Except Stop (List UInt8 × c.Ahead) :=
  if cfg.stringTooLong len then .error (c.stop (.stringTooLong len) start) else c.take len

/-- The characters of a text payload that starts at offset `first`, reading having got to `c`. -/
def chars (c : Cursor) (bs : List UInt8) (first : Nat) : Except Stop (List Char) :=
  match Utf8.decode bs with
  | .ok cs => .ok cs
  | .error k => .error (c.stop .invalidUtf8 (first + k))

/-- Moving a cursor no further back than `d`, which is past `c`, to one past `c`. -/
def Ahead.past {c d : Cursor} (h : d.rest.length < c.rest.length) (e : d.Ahead) : c.Past :=
  ⟨e.1, Nat.lt_of_le_of_lt e.2 h⟩

/-- The chunks of an indefinite-length string of major type `m` whose head is at `start`, up to
and with its Break. `content` turns a chunk's payload, given its offset and the cursor after it,
into elements; `acc` holds the elements so far and `total` the bytes so far. -/
def chunks {β : Type} (c : Cursor) (cfg : Config) (m : Major)
    (content : List UInt8 → Nat → Cursor → Except Stop (List β))
    (start : Nat) (acc : List β) (total : Nat) : Except Stop (List β × c.Ahead) :=
  match h : c.rest with
  | [] => .error (c.stop .unexpectedEnd c.offset)
  | b :: rest =>
    let c1 : Cursor := ⟨c.offset + 1, rest⟩
    have h1 : c1.rest.length < c.rest.length := by simp [c1, h]
    if b = breakByte then .ok (acc, ⟨c1, Nat.le_of_lt h1⟩)
    else
      let head := Head.ofByte b
      if head.major ≠ m then .error (c1.stop .invalidChunk c.offset)
      else
        match c1.argument head.info c.offset with
        | .error s => .error s
        | .ok (none, _) => .error (c1.stop .invalidChunk c.offset)
        | .ok (some len, ⟨c2, h2⟩) =>
          -- the gathered length is counted in 64 bits, stopping at the largest value
          let size := min (total + len) (Nat.pow 2 64 - 1)
          if cfg.stringTooLong size then .error (c2.stop (.stringTooLong size) start)
          else
            match c2.take len with
            | .error s => .error s
            | .ok (bs, ⟨c3, h3⟩) =>
              match content bs c2.offset c3 with
              | .error s => .error s
              | .ok xs =>
                match c3.chunks cfg m content start (acc ++ xs) (total + len) with
                | .error s => .error s
                | .ok (ys, ⟨c4, h4⟩) => .ok (ys, ⟨c4, by omega⟩)
termination_by c.rest.length

/-- Whether another entry follows in a container with `remaining` entries left (`none` for an
indefinite length) after `seen` entries: `none` at the end, with an indefinite container's Break
consumed; otherwise the entries left after the next one. -/
def nextEntry (c : Cursor) (cfg : Config) (remaining : Option Nat) (seen : Nat) :
    Except Stop (Option (Option Nat) × c.Ahead) :=
  match remaining with
  | some 0 => .ok (none, c.here)
  | some (n + 1) => .ok (some (some n), c.here)
  | none =>
    match h : c.rest with
    | [] => .error (c.stop .unexpectedEnd c.offset)
    | b :: rest =>
      if b = breakByte then .ok (none, ⟨⟨c.offset + 1, rest⟩, by simp [h]⟩)
      else if cfg.tooManyItems (seen + 1) then .error (c.stop (.tooManyItems (seen + 1)) c.offset)
      else .ok (some none, c.here)

/-- A simple value or float whose initial byte, with additional information `info`, is at
`start`; `c` is after that byte. -/
def simple (c : Cursor) (info start : Nat) : Except Stop (Item × c.Ahead) :=
  if info = 20 then .ok (.bool false, c.here)
  else if info = 21 then .ok (.bool true, c.here)
  else if info = 22 then .ok (.null, c.here)
  else if info = 23 then .ok (.undefined, c.here)
  else if info < 20 then .ok (.simple info.toUInt8, c.here)
  else if info = 24 then
    match c.take 1 with
    | .error s => .error s
    | .ok (bs, d) =>
      let v := bigEndian bs
      if v < 32 then .error (d.1.stop (.unsupportedSimple v) start) else .ok (.simple v.toUInt8, d)
  else if info = 25 then
    match c.take 2 with
    | .error s => .error s
    | .ok (bs, d) => .ok (.float (.half (bigEndian bs).toUInt16), d)
  else if info = 26 then
    match c.take 4 with
    | .error s => .error s
    | .ok (bs, d) => .ok (.float (.single (bigEndian bs).toUInt32), d)
  else if info = 27 then
    match c.take 8 with
    | .error s => .error s
    | .ok (bs, d) => .ok (.float (.double (bigEndian bs).toUInt64), d)
  else .error (c.stop (.reservedInfo info) start)

/-- The checks on a container or tag whose head is at `start`, read to `c`, at nesting depth
`depth`: the depth first, then a definite container's length. -/
def enter (c : Cursor) (cfg : Config) (depth : Nat) (count : Option Nat) (start : Nat) :
    Except Stop Unit :=
  if cfg.maxDepth ≤ depth then .error (c.stop (.nestingTooDeep cfg.maxDepth) start)
  else
    match count with
    | some n => if cfg.tooManyItems n then .error (c.stop (.tooManyItems n) start) else .ok ()
    | none => .ok ()

mutual

/-- The item that starts at `c`, inside `depth` open containers and tags. -/
def readItem (c : Cursor) (cfg : Config) (depth : Nat) : Except Stop (Item × c.Past) :=
  match h : c.rest with
  | [] => .error (c.stop .unexpectedEnd c.offset)
  | b :: rest =>
    let start := c.offset
    let c1 : Cursor := ⟨start + 1, rest⟩
    have h1 : c1.rest.length < c.rest.length := by simp [c1, h]
    let head := Head.ofByte b
    if b = breakByte then .error (c1.stop .unexpectedBreak start)
    else
      match head.major with
      | .unsigned =>
        match c1.definite head.info start with
        | .error s => .error s
        | .ok (v, d) => .ok (.unsigned v.toUInt64, d.past h1)
      | .negative =>
        match c1.definite head.info start with
        | .error s => .error s
        | .ok (v, d) =>
          if !cfg.allowWideNegative && Nat.pow 2 63 ≤ v then
            .error (d.1.stop .integerOverflow start)
          else .ok (.negative v.toUInt64, d.past h1)
      | .bytes =>
        match c1.length cfg head.info start with
        | .error s => .error s
        | .ok (some len, ⟨c2, h2⟩) =>
          match c2.payload cfg len start with
          | .error s => .error s
          | .ok (bs, ⟨c3, h3⟩) => .ok (.bytes bs, ⟨c3, by omega⟩)
        | .ok (none, ⟨c2, h2⟩) =>
          match c2.chunks cfg .bytes (fun bs _ _ => .ok bs) start [] 0 with
          | .error s => .error s
          | .ok (bs, ⟨c3, h3⟩) => .ok (.bytes bs, ⟨c3, by omega⟩)
      | .text =>
        match c1.length cfg head.info start with
        | .error s => .error s
        | .ok (some len, ⟨c2, h2⟩) =>
          match c2.payload cfg len start with
          | .error s => .error s
          | .ok (bs, ⟨c3, h3⟩) =>
            match c3.chars bs c2.offset with
            | .error s => .error s
            | .ok cs => .ok (.text (String.ofList cs), ⟨c3, by omega⟩)
        | .ok (none, ⟨c2, h2⟩) =>
          match c2.chunks cfg .text (fun bs first d => d.chars bs first) start [] 0 with
          | .error s => .error s
          | .ok (cs, ⟨c3, h3⟩) => .ok (.text (String.ofList cs), ⟨c3, by omega⟩)
      | .array =>
        match c1.length cfg head.info start with
        | .error s => .error s
        | .ok (count, ⟨c2, h2⟩) =>
          match c2.enter cfg depth count start with
          | .error s => .error s
          | .ok () =>
            match c2.readArray cfg (depth + 1) count #[] with
            | .error s => .error s
            | .ok (xs, ⟨c3, h3⟩) => .ok (.array xs, ⟨c3, by omega⟩)
      | .map =>
        match c1.length cfg head.info start with
        | .error s => .error s
        | .ok (count, ⟨c2, h2⟩) =>
          match c2.enter cfg depth count start with
          | .error s => .error s
          | .ok () =>
            match c2.readMap cfg (depth + 1) count.isNone count #[] with
            | .error s => .error s
            | .ok (es, ⟨c3, h3⟩) => .ok (.map es, ⟨c3, by omega⟩)
      | .tag =>
        match c1.definite head.info start with
        | .error s => .error s
        | .ok (t, ⟨c2, h2⟩) =>
          match c2.enter cfg depth none start with
          | .error s => .error s
          | .ok () =>
            match c2.readItem cfg (depth + 1) with
            | .error s => .error s
            | .ok (x, ⟨c3, h3⟩) => .ok (.tagged t.toUInt64 x, ⟨c3, by omega⟩)
      | .simple =>
        match c1.simple head.info start with
        | .error s => .error s
        | .ok (x, d) => .ok (x, d.past h1)
termination_by 2 * c.rest.length
decreasing_by all_goals simp_all only [c1]; omega

/-- The entries of an array, `remaining` more or up to a Break when `none`, after those in
`acc`. -/
def readArray (c : Cursor) (cfg : Config) (depth : Nat) (remaining : Option Nat)
    (acc : Array Item) : Except Stop (List Item × c.Ahead) :=
  match c.nextEntry cfg remaining acc.size with
  | .error s => .error s
  | .ok (none, d) => .ok (acc.toList, d)
  | .ok (some left, ⟨c1, h1⟩) =>
    match c1.readItem cfg depth with
    | .error s => .error s
    | .ok (x, ⟨c2, h2⟩) =>
      match c2.readArray cfg depth left (acc.push x) with
      | .error s => .error s
      | .ok (xs, ⟨c3, h3⟩) => .ok (xs, ⟨c3, by omega⟩)
termination_by 2 * c.rest.length + 1

/-- The entries of a map, `remaining` more or up to a Break when `none`, after those in `acc`.
A key equal to an earlier one is refused when the limits say so, and an indefinite map may not
end between a key and its value. -/
def readMap (c : Cursor) (cfg : Config) (depth : Nat) (indefinite : Bool)
    (remaining : Option Nat) (acc : Array (Item × Item)) :
    Except Stop (List (Item × Item) × c.Ahead) :=
  match c.nextEntry cfg remaining acc.size with
  | .error s => .error s
  | .ok (none, d) => .ok (acc.toList, d)
  | .ok (some left, ⟨c1, h1⟩) =>
    match c1.readItem cfg depth with
    | .error s => .error s
    | .ok (k, ⟨c2, h2⟩) =>
      if cfg.rejectDuplicateKeys && acc.any (fun e => e.1.valueEq k) then
        .error (c2.stop .duplicateKey c1.offset)
      else if indefinite && c2.rest.head? = some breakByte then
        .error (c2.stop .truncatedMapPair c2.offset)
      else
        match c2.readItem cfg depth with
        | .error s => .error s
        | .ok (v, ⟨c3, h3⟩) =>
          match c3.readMap cfg depth indefinite left (acc.push (k, v)) with
          | .error s => .error s
          | .ok (es, ⟨c4, h4⟩) => .ok (es, ⟨c4, by omega⟩)
termination_by 2 * c.rest.length + 1

end

end Cursor

/-- The item at the start of `bytes` and the number of bytes it took; bytes after it are left
alone. -/
def Item.decode (cfg : Config) (bytes : List UInt8) : Except Error (Item × Nat) :=
  match (Cursor.start bytes).readItem cfg 0 with
  | .ok (x, d) => .ok (x, d.1.offset)
  | .error s => .error s.error

end Cbor
