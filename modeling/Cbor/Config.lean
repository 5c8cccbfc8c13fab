/-! # Decoding limits

A decoder works under a set of limits, fixed before it starts: how deep containers may nest,
how long a string and how many entries a container may announce, whether indefinite lengths and
negative integers below `-2 ^ 63` are admitted, and whether a map may repeat a key. Every front
end (whole-buffer decoding, the item reader, the token scanner and the incremental decoder)
reads the same record.
-/

namespace Cbor

/-- The limits a decoder enforces. The default admits everything but nesting past 64. -/
structure Config where
  /-- Containers and tags may be open at most this many at once. -/
  maxDepth : Nat := 64
  /-- The longest string, in bytes, that is admitted; `none` for no bound. -/
  maxStringLength : Option Nat := none
  /-- The most entries an array or map may have; `none` for no bound. -/
  maxContainerLength : Option Nat := none
  /-- Whether strings, arrays and maps of indefinite length are admitted. -/
  allowIndefinite : Bool := true
  /-- Whether negative integers whose argument is at least `2 ^ 63` are admitted. -/
  allowWideNegative : Bool := true
  /-- Whether a map that repeats a key is refused. -/
  rejectDuplicateKeys : Bool := false
  deriving DecidableEq, Repr

namespace Config

/-- Whether a string of `len` bytes is longer than the limit allows. -/
def stringTooLong (c : Config) (len : Nat) : Bool :=
  match c.maxStringLength with
  | some max => decide (max < len)
  | none => false

/-- Whether a container of `count` entries has more than the limit allows. -/
def tooManyItems (c : Config) (count : Nat) : Bool :=
  match c.maxContainerLength with
  | some max => decide (max < count)
  | none => false

@[simp] theorem stringTooLong_default (len : Nat) : stringTooLong {} len = false := rfl

@[simp] theorem tooManyItems_default (count : Nat) : tooManyItems {} count = false := rfl

end Config

end Cbor
