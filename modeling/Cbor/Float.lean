import Cbor.Float.Format
/-! # Floating-point items

A float item keeps the width it was encoded with (half, single or double precision) and its bits
exactly; the value those bits stand for is read through the binary format of that width.
Widening to double precision is exact for numbers and keeps a NaN's payload.

Two float items are equal as values when they have the same width, neither is a NaN, and they
stand for the same number; so the two zeros are equal, and a NaN equals nothing.
-/

namespace Cbor

/-- A floating-point item: its width as encoded and its bits. -/
inductive IeeeFloat where
  /-- binary16 bits. -/
  | half (bits : UInt16)
  /-- binary32 bits. -/
  | single (bits : UInt32)
  /-- binary64 bits. -/
  | double (bits : UInt64)
  deriving DecidableEq, Repr

namespace IeeeFloat

/-- The binary format of the width. -/
def format : IeeeFloat → BinaryFormat
  | .half _ => .half
  | .single _ => .single
  | .double _ => .double

/-- The bits as a number. -/
def word : IeeeFloat → Nat
  | .half b => b.toNat
  | .single b => b.toNat
  | .double b => b.toNat

/-- The width in bytes: 2, 4 or 8. -/
def width : IeeeFloat → Nat
  | .half _ => 2
  | .single _ => 4
  | .double _ => 8

/-- What the bits stand for. -/
def value (x : IeeeFloat) : BinaryValue := x.format.decode x.word

/-- The binary64 bits of the same value; a NaN is made quiet and keeps its payload. -/
def toDoubleBits : IeeeFloat → UInt64
  | .half b => (BinaryFormat.half.widen b.toNat).toUInt64
  | .single b => (BinaryFormat.single.widen b.toNat).toUInt64
  | .double b => b

/-- Whether the bits are a NaN. -/
def isNaN (x : IeeeFloat) : Bool := x.value == .nan

/-- Whether the bits are a zero of either sign. -/
def isZero (x : IeeeFloat) : Bool :=
  match x.value with
  | .finite _ m _ => m == 0
  | _ => false

/-- Equality of values of one width: no NaN, and the same bits or two zeros. -/
def sameValue (x y : IeeeFloat) : Bool :=
  x.width == y.width && !x.isNaN && !y.isNaN && (x.word == y.word || (x.isZero && y.isZero))

example : sameValue (.double 0) (.double 0x8000000000000000) = true := by decide
example : sameValue (.half 0x3C00) (.single 0x3F800000) = false := by decide

end IeeeFloat

end Cbor
