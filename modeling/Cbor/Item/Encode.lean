import Cbor.Item.Basic
import Cbor.Text.Utf8
/-! # Encoding items

Every item is written with the shortest head for each argument and with definite lengths; a float
keeps its width and bits. Decoding never yields the simple values 20–31: 20–23 are written as the
named values `false`, `true`, `null` and `undefined` they share a byte with, and 24–31, which have
no well-formed encoding, as `undefined`.
-/

namespace Cbor

/-- The bytes of a float: the initial byte of its width, then its bits, most significant first. -/
def IeeeFloat.encode (x : IeeeFloat) : List UInt8 :=
  match x with
  | .half b => 0xF9 :: toBigEndian 2 b.toNat
  | .single b => 0xFA :: toBigEndian 4 b.toNat
  | .double b => 0xFB :: toBigEndian 8 b.toNat

/-- The bytes of a simple value. -/
def encodeSimple (v : UInt8) : List UInt8 :=
  if 20 ≤ v.toNat ∧ v.toNat ≤ 23 then [0xE0 + v]
  else if 24 ≤ v.toNat ∧ v.toNat ≤ 31 then [0xF7]
  else Head.encode .simple v.toUInt64

namespace Item

mutual

/-- The bytes of an item. -/
def encode : Item → List UInt8
  | .unsigned n => Head.encode .unsigned n
  | .negative n => Head.encode .negative n
  | .bytes bs => Head.encode .bytes bs.length.toUInt64 ++ bs
  | .text s =>
    let bs := Utf8.encode s.toList
    Head.encode .text bs.length.toUInt64 ++ bs
  | .array xs => Head.encode .array xs.length.toUInt64 ++ encodeList xs
  | .map es => Head.encode .map es.length.toUInt64 ++ encodeEntries es
  | .tagged t x => Head.encode .tag t ++ encode x
  | .bool b => [if b then 0xF5 else 0xF4]
  | .null => [0xF6]
  | .undefined => [0xF7]
  | .simple v => encodeSimple v
  | .float x => x.encode

/-- The bytes of items one after another. -/
def encodeList : List Item → List UInt8
  | [] => []
  | x :: xs => encode x ++ encodeList xs

/-- The bytes of map entries, each key before its value. -/
def encodeEntries : List (Item × Item) → List UInt8
  | [] => []
  | (k, v) :: es => encode k ++ encode v ++ encodeEntries es

end

end Item

end Cbor
