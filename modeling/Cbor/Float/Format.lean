/-! # Binary interchange formats

An IEEE 754 binary format splits a word into a sign bit, a biased exponent field and a fraction
field. CBOR carries three of them: binary16, binary32 and binary64. This file reads a word of any
of them as what it stands for (a NaN, an infinity, or `±m · 2 ^ q`), writes fields back into a
word, widens a word to binary64, and rounds an integer to the nearest value of a format.

Words are plain natural numbers here; the fixed-width types appear only where items hold them.
-/

namespace Cbor

/-- A binary interchange format: the widths of its exponent and fraction fields. -/
structure BinaryFormat where
  /-- Width of the biased exponent field. -/
  exponentBits : Nat
  /-- Width of the fraction field: the significand has one bit more. -/
  fractionBits : Nat
  deriving DecidableEq, Repr

namespace BinaryFormat

/-- binary16, the half-precision format. -/
def half : BinaryFormat := ⟨5, 10⟩

/-- binary32, the single-precision format. -/
def single : BinaryFormat := ⟨8, 23⟩

/-- binary64, the double-precision format. -/
def double : BinaryFormat := ⟨11, 52⟩

/-- The exponent field of infinities and NaNs: all ones. -/
def maxField (f : BinaryFormat) : Nat := Nat.pow 2 f.exponentBits - 1

/-- The bias of the exponent field. -/
def bias (f : BinaryFormat) : Nat := Nat.pow 2 (f.exponentBits - 1) - 1

/-- The exponent of the least subnormal step: a word with exponent field 0 and fraction `t`
stands for `t · 2 ^ minExponent`. -/
def minExponent (f : BinaryFormat) : Int := 1 - (f.bias : Int) - f.fractionBits

/-- The sign bit of a word. -/
def sign (f : BinaryFormat) (w : Nat) : Bool :=
  (w / Nat.pow 2 (f.exponentBits + f.fractionBits)) % 2 = 1

/-- The exponent field of a word. -/
def exponentField (f : BinaryFormat) (w : Nat) : Nat :=
  (w / Nat.pow 2 f.fractionBits) % Nat.pow 2 f.exponentBits

/-- The fraction field of a word. -/
def fraction (f : BinaryFormat) (w : Nat) : Nat :=
  w % Nat.pow 2 f.fractionBits

/-- The word with the given sign, exponent field and fraction field. -/
def pack (f : BinaryFormat) (negative : Bool) (e t : Nat) : Nat :=
  (if negative then Nat.pow 2 (f.exponentBits + f.fractionBits) else 0) +
    e * Nat.pow 2 f.fractionBits + t

end BinaryFormat

/-- What a word of a binary format stands for. -/
inductive BinaryValue where
  /-- Not a number. -/
  | nan
  /-- An infinity of the given sign. -/
  | infinity (negative : Bool)
  /-- The number `±m · 2 ^ q`; a zero when `m = 0`, which keeps its sign. -/
  | finite (negative : Bool) (m : Nat) (q : Int)
  deriving DecidableEq, Repr

namespace BinaryFormat

/-- What a word stands for. A normal word has significand `2 ^ fractionBits + t`; a subnormal
word, exponent field 0, has significand `t` at the least exponent. -/
def decode (f : BinaryFormat) (w : Nat) : BinaryValue :=
  let e := f.exponentField w
  let t := f.fraction w
  if e = f.maxField then
    if t = 0 then .infinity (f.sign w) else .nan
  else if e = 0 then .finite (f.sign w) t f.minExponent
  else .finite (f.sign w) (Nat.pow 2 f.fractionBits + t) (f.minExponent + (e - 1 : Nat))

/-- The binary64 word of what word `w` of the narrower format `f` stands for. Numbers are kept
exactly: every binary16 and binary32 number is a normal binary64 number. A NaN keeps its sign
and its payload, moved to the top of the wider fraction, and becomes quiet. -/
def widen (f : BinaryFormat) (w : Nat) : Nat :=
  match f.decode w with
  | .nan =>
    double.pack (f.sign w) double.maxField
      (Nat.pow 2 (double.fractionBits - 1) |||
        f.fraction w * Nat.pow 2 (double.fractionBits - f.fractionBits))
  | .infinity negative => double.pack negative double.maxField 0
  | .finite negative m q =>
    if m = 0 then double.pack negative 0 0
    else
      -- `m · 2 ^ q = (m / 2 ^ l) · 2 ^ (l + q)` with `1 ≤ m / 2 ^ l < 2`
      let l := m.log2
      double.pack negative ((l : Int) + q + double.bias).toNat
        (m * Nat.pow 2 (double.fractionBits - l) - Nat.pow 2 double.fractionBits)

/-- The quotient `n / d` rounded to the nearest integer, a tie going to the even one. -/
def roundHalfEven (n d : Nat) : Nat :=
  let q := n / d
  let r := n % d
  if 2 * r < d then q
  else if d < 2 * r then q + 1
  else if q % 2 = 0 then q else q + 1

/-- The word of format `f` nearest to the integer `i`, a tie going to the even significand; a
magnitude beyond the largest finite number gives an infinity. -/
def ofInt (f : BinaryFormat) (i : Int) : Nat :=
  let negative := decide (i < 0)
  let n := i.natAbs
  let p := f.fractionBits
  if n = 0 then 0
  else
    let l := n.log2
    if l ≤ p then f.pack negative (l + f.bias) (n * Nat.pow 2 (p - l) - Nat.pow 2 p)
    else
      let m := roundHalfEven n (Nat.pow 2 (l - p))
      -- rounding up may carry into the next binade
      let (m, l) := if m = Nat.pow 2 (p + 1) then (Nat.pow 2 p, l + 1) else (m, l)
      if f.maxField ≤ l + f.bias then f.pack negative f.maxField 0
      else f.pack negative (l + f.bias) (m - Nat.pow 2 p)

example : half.widen 0x3C00 = 0x3FF0000000000000 := by decide
example : half.widen 0x7C01 = 0x7FF8040000000000 := by decide
example : single.widen 0x7F800001 = 0x7FF8000020000000 := by decide
example : single.ofInt 16777217 = 0x4B800000 := by decide
example : double.ofInt (-1) = 0xBFF0000000000000 := by decide

end BinaryFormat

end Cbor
