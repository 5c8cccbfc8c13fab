/-! # Hexadecimal digits

Bytes and words written in lowercase hexadecimal, two digits a byte, most significant first.
-/

namespace Cbor.Hex

/-- The lowercase digit of a value below 16. -/
def digit (n : Nat) : Char :=
  if n < 10 then Char.ofNat (48 + n) else Char.ofNat (87 + n)

/-- The two digits of a byte. -/
def ofByte (b : UInt8) : List Char := [digit (b.toNat / 16), digit (b.toNat % 16)]

/-- The digits of a byte string. -/
def ofBytes (bs : List UInt8) : String := String.ofList (bs.flatMap ofByte)

/-- The lowest `width` digits of `n`, most significant first, padded with zeros. -/
def ofNat : Nat → Nat → List Char
  | 0, _ => []
  | w + 1, n => ofNat w (n / 16) ++ [digit (n % 16)]

example : ofBytes [0x0A, 0xFF] = "0aff" := by decide
example : String.ofList (ofNat 4 0x3C) = "003c" := by decide

end Cbor.Hex
