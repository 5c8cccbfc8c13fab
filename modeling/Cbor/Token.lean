import Cbor.Float
/-! # Tokens

A token is one head with its argument, together with the payload for a definite-length string,
or the Break marker. Nesting is not a token's business: an array head says how many entries
follow, an indefinite head only that a Break will close what it opens.
-/

namespace Cbor

/-- A CBOR token. -/
inductive Token where
  /-- An unsigned integer. -/
  | unsigned (n : UInt64)
  /-- The negative integer `-1 - n`. -/
  | negative (n : UInt64)
  /-- A definite byte string with its payload. -/
  | bytes (data : List UInt8)
  /-- A definite text string with its payload. -/
  | text (s : String)
  /-- The head of an indefinite-length byte string. -/
  | bytesStart
  /-- The head of an indefinite-length text string. -/
  | textStart
  /-- The head of an array of `n` entries. -/
  | array (n : UInt64)
  /-- The head of an indefinite-length array. -/
  | arrayStart
  /-- The head of a map of `n` entries. -/
  | map (n : UInt64)
  /-- The head of an indefinite-length map. -/
  | mapStart
  /-- A tag. -/
  | tag (t : UInt64)
  /-- The values false and true. -/
  | bool (b : Bool)
  /-- The value null. -/
  | null
  /-- The value undefined. -/
  | undefined
  /-- Any other simple value. -/
  | simple (value : UInt8)
  /-- A float of the width it was encoded with. -/
  | float (x : IeeeFloat)
  /-- The Break marker. -/
  | breakMark
  deriving DecidableEq, Repr

end Cbor
