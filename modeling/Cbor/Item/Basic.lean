import Cbor.Head
import Cbor.Float
/-! # Data items

A decoded CBOR data item. Integers keep their argument: a negative integer holds `n` and stands
for `-1 - n`, so both kinds cover 64 bits. Strings of indefinite length are held joined, maps keep
their entries in encoded order with any repeated keys, and floats keep their width and bits.

Two items are equal as values when they have the same shape and the same contents, floats being
compared as numbers of one width (see `IeeeFloat.sameValue`). Map look-up and the refusal of
repeated keys use this equality.
-/

namespace Cbor

/-- A CBOR data item (RFC 8949 §3). -/
inductive Item where
  /-- An unsigned integer. -/
  | unsigned (n : UInt64)
  /-- The negative integer `-1 - n`. -/
  | negative (n : UInt64)
  /-- A byte string. -/
  | bytes (data : List UInt8)
  /-- A text string. -/
  | text (s : String)
  /-- An array. -/
  | array (items : List Item)
  /-- A map, its entries in encoded order. -/
  | map (entries : List (Item × Item))
  /-- A tagged item. -/
  | tagged (tag : UInt64) (item : Item)
  /-- The values false and true. -/
  | bool (b : Bool)
  /-- The value null. -/
  | null
  /-- The value undefined. -/
  | undefined
  /-- Any other simple value. -/
  | simple (value : UInt8)
  /-- A floating-point number of the width it was encoded with. -/
  | float (x : IeeeFloat)
  deriving Repr, Inhabited

namespace Item

/-- The major type an item is encoded with. -/
def major : Item → Major
  | .unsigned _ => .unsigned
  | .negative _ => .negative
  | .bytes _ => .bytes
  | .text _ => .text
  | .array _ => .array
  | .map _ => .map
  | .tagged _ _ => .tag
  | .bool _ | .null | .undefined | .simple _ | .float _ => .simple

mutual

/-- Equality of items as values: the same shape and contents, floats compared as numbers. -/
def valueEq : Item → Item → Bool
  | .unsigned a, .unsigned b => a == b
  | .negative a, .negative b => a == b
  | .bytes a, .bytes b => a == b
  | .text a, .text b => a == b
  | .array as, .array bs => valueEqList as bs
  | .map ps, .map qs => valueEqEntries ps qs
  | .tagged t a, .tagged u b => t == u && valueEq a b
  | .bool a, .bool b => a == b
  | .null, .null => true
  | .undefined, .undefined => true
  | .simple a, .simple b => a == b
  | .float x, .float y => x.sameValue y
  | _, _ => false

/-- Value equality on lists, item by item. -/
def valueEqList : List Item → List Item → Bool
  | [], [] => true
  | a :: as, b :: bs => valueEq a b && valueEqList as bs
  | _, _ => false

/-- Value equality on map entries, key and value by key and value. -/
def valueEqEntries : List (Item × Item) → List (Item × Item) → Bool
  | [], [] => true
  | (k, v) :: ps, (k', v') :: qs => valueEq k k' && valueEq v v' && valueEqEntries ps qs
  | _, _ => false

end

/-- The item of an integer: unsigned from zero up, negative below. -/
def ofInt (i : Int) : Item :=
  if 0 ≤ i then .unsigned i.toNat.toUInt64 else .negative (-1 - i).toNat.toUInt64

end Item

end Cbor
