import Cbor.Item.Basic
import Cbor.Float
/-! # Views of an item

Partial views of an item as a value of another type: `none` when the item has another kind or
its value does not fit.

An integer item's value is `n` or `-1 - n`, which 128 bits always hold; a fixed-width integer type
holds it when it lies in the type's range. Going the other way, a value of a fixed-width integer
type is widened to 64 bits and becomes an unsigned item when it is not negative and a negative one
otherwise. Rounding an integer item to a binary format goes to the
nearest value, a tie to the even significand. A float item reads as double-precision bits, widened
exactly. Map look-up returns the value of the first entry whose key equals the given key as a
value (see `Item.valueEq`).
-/

namespace Cbor

/-- The integers of a fixed-width type: from `min` to `max`. -/
structure IntRange where
  /-- The least value. -/
  min : Int
  /-- The greatest value. -/
  max : Int
  deriving DecidableEq, Repr

namespace IntRange

/-- The range of unsigned integers of `bits` bits. -/
def unsigned (bits : Nat) : IntRange := ⟨0, Nat.pow 2 bits - 1⟩

/-- The range of two's complement integers of `bits` bits. -/
def signed (bits : Nat) : IntRange :=
  ⟨-(Nat.pow 2 (bits - 1) : Nat), (Nat.pow 2 (bits - 1) - 1 : Nat)⟩

/-- Whether `i` lies in the range. -/
def contains (r : IntRange) (i : Int) : Bool := r.min ≤ i && i ≤ r.max

end IntRange

namespace Item

/-- An unsigned integer item's value. -/
def toUInt64? : Item → Option UInt64
  | .unsigned n => some n
  | _ => none

/-- An integer item's value. -/
def toInt? : Item → Option Int
  | .unsigned n => some n.toNat
  | .negative n => some (-1 - (n.toNat : Int))
  | _ => none

/-- An integer item's value if it lies in `r`. -/
def toIntIn? (r : IntRange) (x : Item) : Option Int := x.toInt?.filter r.contains

/-- An integer item converted to a fixed-width integer type `α` as the item's own conversion does
it: an unsigned integer through `fromU64`, a negative one through its value in 128 bits and
`fromI128`. The two conversions belong to the numeric library and decide whether the value fits
`α`. -/
def asInt {α : Type} (fromU64 : UInt64 → Option α) (fromI128 : Int → Option α) (x : Item) :
    Option α :=
  match x with
  | .unsigned n => fromU64 n
  | .negative _ => x.toInt?.bind fromI128
  | _ => none

/-- An integer item's value rounded to format `f`, as the bits of the result. -/
def toFloatBits? (f : BinaryFormat) (x : Item) : Option Nat := x.toInt?.map f.ofInt

/-- A float item's value as binary64 bits. -/
def toDoubleBits? : Item → Option UInt64
  | .float x => some x.toDoubleBits
  | _ => none

/-- The item of a value of an unsigned integer type, widened to 64 bits. -/
def ofUInt64 (v : UInt64) : Item := .unsigned v

/-- The item of a value of a signed integer type, widened to 64 bits: an unsigned integer of the
same bits when the value is not negative, else a negative integer whose argument is the bits of
the value's complement. -/
def ofInt64 (v : Int64) : Item := if 0 ≤ v then .unsigned v.toUInt64 else .negative (~~~v).toUInt64

/-- Whether the item is `null`. -/
def isNull : Item → Bool
  | .null => true
  | _ => false

/-- Whether the item is `undefined`. -/
def isUndefined : Item → Bool
  | .undefined => true
  | _ => false

/-- A boolean item's value. -/
def toBool? : Item → Option Bool
  | .bool b => some b
  | _ => none

/-- A byte string's bytes. -/
def toBytes? : Item → Option (List UInt8)
  | .bytes bs => some bs
  | _ => none

/-- A text string's text. -/
def toText? : Item → Option String
  | .text s => some s
  | _ => none

/-- An array's items. -/
def toArray? : Item → Option (List Item)
  | .array xs => some xs
  | _ => none

/-- A map's entries. -/
def toMap? : Item → Option (List (Item × Item))
  | .map es => some es
  | _ => none

/-- A tagged item's tag and content. -/
def toTagged? : Item → Option (UInt64 × Item)
  | .tagged t x => some (t, x)
  | _ => none

/-- The value of the first entry of a map whose key equals `key` as a value. -/
def lookup? (x : Item) (key : Item) : Option Item :=
  match x with
  | .map es => (es.find? fun e => e.1.valueEq key).map Prod.snd
  | _ => none

end Item

end Cbor
