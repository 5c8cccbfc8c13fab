import Cbor.Item.Basic
import Cbor.Float.Layout
import Cbor.Float.Shortest
import Cbor.Text.Hex
/-! # Diagnostic notation

The text of an item in the diagnostic notation of RFC 8949 §8. Integers are written in decimal,
byte strings as `h'…'` in lowercase hexadecimal, text in double quotes, arrays as `[a, b]`, maps
as `{k: v}`, tagged items as `t(item)`, and other simple values as `simple(n)`.

Text escapes the quote, the backslash, newline, carriage return and tab with a backslash, and every
other control character (U+0000–U+001F, U+007F–U+009F) as `\u` and four lowercase hex digits.

A float is `NaN`, `Infinity` or `-Infinity` when not finite; otherwise the shortest decimal that
reads back in its own width, where a half is first widened to a double, laid out by
`Diagnostic.decimalStyle`.
-/

namespace Cbor

namespace Diagnostic

/-- Numbers from `10 ^ -4` up to below `10 ^ 16` are positional with at least one digit after the
point; others are scientific, with `e` and an exponent that has a sign only when negative. Zero is
`0.0`, and a negative number, zero included, has a leading `-`. -/
def decimalStyle : DecimalStyle where
  minPositional := -3
  maxPositional := 16
  exponentMark := "e"
  zero := "0.0"
  minus := "-"

/-- The text of a word of format `f`. -/
def floatText (f : BinaryFormat) (w : Nat) : String :=
  match f.decode w with
  | .nan => "NaN"
  | .infinity negative => if negative then "-Infinity" else "Infinity"
  | .finite negative m q =>
    decimalStyle.render negative (if m = 0 then none else some (f.shortest m q))

/-- Control characters: U+0000–U+001F and U+007F–U+009F. -/
def isControl (c : Char) : Bool :=
  c.toNat ≤ 0x1F || (0x7F ≤ c.toNat && c.toNat ≤ 0x9F)

/-- The text that stands for one character inside quotes. -/
def escape (c : Char) : List Char :=
  if c = '"' then ['\\', '"']
  else if c = '\\' then ['\\', '\\']
  else if c = '\n' then ['\\', 'n']
  else if c = '\r' then ['\\', 'r']
  else if c = '\t' then ['\\', 't']
  else if isControl c then '\\' :: 'u' :: Hex.ofNat 4 c.toNat
  else [c]

/-- A text in double quotes, with escapes. -/
def quote (s : String) : String :=
  String.ofList ('"' :: s.toList.flatMap escape ++ ['"'])

end Diagnostic

/-- The diagnostic text of a float. -/
def IeeeFloat.diagnostic : IeeeFloat → String
  | .half b => Diagnostic.floatText .double (BinaryFormat.half.widen b.toNat)
  | .single b => Diagnostic.floatText .single b.toNat
  | .double b => Diagnostic.floatText .double b.toNat

namespace Item

mutual

/-- The diagnostic text of an item. -/
def diagnostic : Item → String
  | .unsigned n => toString n.toNat
  | .negative n => "-" ++ toString (n.toNat + 1)
  | .bytes bs => "h\x27" ++ Hex.ofBytes bs ++ "\x27"
  | .text s => Diagnostic.quote s
  | .array items => "[" ++ diagnosticList items ++ "]"
  | .map entries => "\x7b" ++ diagnosticEntries entries ++ "\x7d"
  | .tagged t item => toString t.toNat ++ "(" ++ diagnostic item ++ ")"
  | .bool b => if b then "true" else "false"
  | .null => "null"
  | .undefined => "undefined"
  | .simple v => "simple(" ++ toString v.toNat ++ ")"
  | .float x => x.diagnostic

/-- Items separated by a comma and a space. -/
def diagnosticList : List Item → String
  | [] => ""
  | [a] => diagnostic a
  | a :: as => diagnostic a ++ ", " ++ diagnosticList as

/-- Entries `k: v` separated by a comma and a space. -/
def diagnosticEntries : List (Item × Item) → String
  | [] => ""
  | [(k, v)] => diagnostic k ++ ": " ++ diagnostic v
  | (k, v) :: es => diagnostic k ++ ": " ++ diagnostic v ++ ", " ++ diagnosticEntries es

end

end Item

end Cbor
