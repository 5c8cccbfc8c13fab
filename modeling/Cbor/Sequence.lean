import Cbor.Item.Decode
/-! # CBOR sequences

A CBOR sequence (RFC 8742) is items one after another. Reading one item after another until the
input ends gives the whole sequence, or, at the first failure, the error and the items complete
before it. A Break where an item should start cannot start one and is refused as trailing data.

`SequenceReader` does the same one item at a time and shows how far it has read: after an item,
the offset after it; after a failure, the offset the failing read had reached. After a failure
or at the end of input it yields nothing more.
-/

namespace Cbor

/-- The items of a sequence from `c` on, after those in `acc`. -/
def Cursor.readSequence (c : Cursor) (cfg : Config) (acc : Array Item) :
    Except (SequenceError Item) (List Item) :=
  match c.rest with
  | [] => .ok acc.toList
  | b :: _ =>
    if b = breakByte then .error ⟨⟨.trailingGarbage, c.offset⟩, acc.toList⟩
    else
      match c.readItem cfg 0 with
      | .error s => .error ⟨s.error, acc.toList⟩
      | .ok (x, ⟨d, _⟩) => d.readSequence cfg (acc.push x)
termination_by c.rest.length

/-- The items of the sequence `bytes`. -/
def Item.decodeAll (cfg : Config) (bytes : List UInt8) : Except (SequenceError Item) (List Item) :=
  (Cursor.start bytes).readSequence cfg #[]

/-- A reader that yields the items of a sequence one at a time. -/
structure SequenceReader where
  /-- The limits items are read under. -/
  config : Config
  /-- Where the next item starts. -/
  cursor : Cursor
  /-- Whether an item has failed. -/
  failed : Bool
  deriving Repr

/-- The cursor moved on to offset `n`. -/
def Cursor.skipTo (c : Cursor) (n : Nat) : Cursor := ⟨n, c.rest.drop (n - c.offset)⟩

namespace SequenceReader

/-- A reader at the start of `bytes`. -/
def ofBytes (cfg : Config) (bytes : List UInt8) : SequenceReader := ⟨cfg, .start bytes, false⟩

/-- The offset the reader has read to. -/
def offset (r : SequenceReader) : Nat := r.cursor.offset

/-- The next item: `none` at the end of input or after a failure, which comes at most once. -/
def next (r : SequenceReader) : Option (Except Error Item) × SequenceReader :=
  if r.failed then (none, r)
  else
    match r.cursor.rest with
    | [] => (none, r)
    | b :: _ =>
      if b = breakByte then
        (some (.error ⟨.trailingGarbage, r.cursor.offset⟩), { r with failed := true })
      else
        match r.cursor.readItem r.config 0 with
        | .ok (x, d) => (some (.ok x), { r with cursor := d.1 })
        | .error s =>
          (some (.error s.error), { r with cursor := r.cursor.skipTo s.readTo, failed := true })

end SequenceReader

end Cbor
