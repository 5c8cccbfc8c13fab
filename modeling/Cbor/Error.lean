/-! # Decoding errors

A decoder stops at the first byte that rules its input out. What it reports is the cause, one of
fourteen kinds, and the offset of the byte where the cause was found. The wording of each kind
lives in `ErrorKind.describe` alone.
-/

namespace Cbor

/-- Why an input is refused. -/
inductive ErrorKind where
  /-- The input ends inside an item. -/
  | unexpectedEnd
  /-- A head uses a reserved additional information value (28–30, or 31 where it is not
  allowed). -/
  | reservedInfo (info : Nat)
  /-- A negative integer lies below `-2 ^ 63` and such integers are refused. -/
  | integerOverflow
  /-- A text string is not well-formed UTF-8. -/
  | invalidUtf8
  /-- An indefinite-length map ends after a key. -/
  | truncatedMapPair
  /-- A two-byte simple value below 32. -/
  | unsupportedSimple (value : Nat)
  /-- Containers nest deeper than the limit `max`. -/
  | nestingTooDeep (max : Nat)
  /-- A Break stands where no indefinite-length item is open. -/
  | unexpectedBreak
  /-- A sequence continues with a byte that cannot start an item. -/
  | trailingGarbage
  /-- An indefinite-length string holds something other than a definite string of its own
  major type. -/
  | invalidChunk
  /-- An indefinite length where the limits refuse them. -/
  | indefiniteLength
  /-- A string of `length` bytes, more than the limit allows. -/
  | stringTooLong (length : Nat)
  /-- A container of `count` entries, more than the limit allows. -/
  | tooManyItems (count : Nat)
  /-- A map repeats a key where the limits refuse that. -/
  | duplicateKey
  deriving DecidableEq, Repr

/-- The sentence that describes a kind of error. -/
def ErrorKind.describe : ErrorKind → String
  | .unexpectedEnd => "Not enough data for encoded value"
  | .reservedInfo v => "Reserved additional information value " ++ toString v
  | .integerOverflow => "Integer outside the representable range"
  | .invalidUtf8 => "Text string is not valid UTF-8"
  | .truncatedMapPair => "Indefinite-length map has a key with no value"
  | .unsupportedSimple v => "Unsupported simple value " ++ toString v
  | .nestingTooDeep max => "Nesting exceeds the maximum depth of " ++ toString max
  | .unexpectedBreak => "Break marker outside an indefinite-length item"
  | .trailingGarbage => "Trailing data cannot start a CBOR item"
  | .invalidChunk => "Chunked string contains an invalid chunk"
  | .indefiniteLength => "Indefinite-length items are not allowed"
  | .stringTooLong n => "String length " ++ toString n ++ " exceeds the configured maximum"
  | .tooManyItems n => "Container length " ++ toString n ++ " exceeds the configured maximum"
  | .duplicateKey => "Map contains a duplicate key"

/-- A refusal: its cause and the offset of the byte where it was found. -/
structure Error where
  /-- The cause. -/
  kind : ErrorKind
  /-- The offset, from the start of the input, of the byte that showed the cause. -/
  offset : Nat
  deriving DecidableEq, Repr

/-- The text of an error: its cause and where it was found. -/
def Error.message (e : Error) : String :=
  e.kind.describe ++ " at offset " ++ toString e.offset

/-- A failure part way through a sequence: the error and the items completed before it. -/
structure SequenceError (α : Type) where
  /-- The error that stopped the sequence. -/
  error : Error
  /-- The items read in full before it, in order. -/
  decoded : List α
  deriving Repr

/-- The text of a sequence failure: the error and how many items were complete. -/
def SequenceError.message {α : Type} (e : SequenceError α) : String :=
  e.error.message ++ " after " ++ toString e.decoded.length ++ " complete items"

example : Error.message ⟨.reservedInfo 28, 0⟩ =
    "Reserved additional information value 28 at offset 0" := by decide

end Cbor
