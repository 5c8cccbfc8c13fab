/-! # UTF-8

Text strings hold UTF-8 (RFC 3629). Decoding follows the syntax of RFC 3629 §4: a byte below
0x80 alone, or a lead byte C2–F4 with one to three continuation bytes 80–BF, where the second
byte after E0, ED, F0 and F4 has a narrower range so that overlong forms, surrogates and code
points past U+10FFFF are refused. A refused input is reported by the length of its longest prefix
made of whole sequences, which is where the first bad sequence begins.

## Main definitions

* `Cbor.Utf8.decode`: the characters, or the length of the valid prefix.
* `Cbor.Utf8.encode`: the bytes of a list of characters.
-/

namespace Cbor.Utf8

/-- A continuation byte, `%x80-BF`. -/
def isTail (b : UInt8) : Bool := 0x80 ≤ b.toNat && b.toNat ≤ 0xBF

/-- The bounds of the byte after a lead byte of a three- or four-byte sequence. -/
def secondRange (lead : Nat) : Nat × Nat :=
  if lead = 0xE0 then (0xA0, 0xBF)
  else if lead = 0xED then (0x80, 0x9F)
  else if lead = 0xF0 then (0x90, 0xBF)
  else if lead = 0xF4 then (0x80, 0x8F)
  else (0x80, 0xBF)

/-- Whether `b` may follow the lead byte `lead` of a three- or four-byte sequence. -/
def isSecond (lead : Nat) (b : UInt8) : Bool :=
  (secondRange lead).1 ≤ b.toNat && b.toNat ≤ (secondRange lead).2

/-- The low six bits of a continuation byte. -/
def low6 (b : UInt8) : Nat := b.toNat % 64

/-- A character decoded from `n` bytes in front of the rest: the failure offset of the rest moves
past those bytes. -/
def prepend (n : Nat) (c : Char) : Except Nat (List Char) → Except Nat (List Char)
  | .ok cs => .ok (c :: cs)
  | .error k => .error (n + k)

/-- The characters of well-formed UTF-8, or the length of the longest prefix made of whole
well-formed sequences. -/
def decode : List UInt8 → Except Nat (List Char)
  | [] => .ok []
  | b0 :: r0 =>
    let n0 := b0.toNat
    if n0 < 0x80 then prepend 1 (Char.ofNat n0) (decode r0)
    else if 0xC2 ≤ n0 ∧ n0 ≤ 0xDF then
      match r0 with
      | b1 :: r1 =>
        if isTail b1 then prepend 2 (Char.ofNat ((n0 % 32) * 64 + low6 b1)) (decode r1)
        else .error 0
      | [] => .error 0
    else if 0xE0 ≤ n0 ∧ n0 ≤ 0xEF then
      match r0 with
      | b1 :: b2 :: r2 =>
        if isSecond n0 b1 && isTail b2 then
          prepend 3 (Char.ofNat ((n0 % 16) * 4096 + low6 b1 * 64 + low6 b2)) (decode r2)
        else .error 0
      | _ => .error 0
    else if 0xF0 ≤ n0 ∧ n0 ≤ 0xF4 then
      match r0 with
      | b1 :: b2 :: b3 :: r3 =>
        if isSecond n0 b1 && isTail b2 && isTail b3 then
          prepend 4
            (Char.ofNat ((n0 % 8) * 262144 + low6 b1 * 4096 + low6 b2 * 64 + low6 b3))
            (decode r3)
        else .error 0
      | _ => .error 0
    else .error 0

/-- The bytes of one character: one to four, by the size of its code point. -/
def encodeChar (c : Char) : List UInt8 :=
  let n := c.toNat
  if n < 0x80 then [n.toUInt8]
  else if n < 0x800 then [(0xC0 + n / 64).toUInt8, (0x80 + n % 64).toUInt8]
  else if n < 0x10000 then
    [(0xE0 + n / 4096).toUInt8, (0x80 + n / 64 % 64).toUInt8, (0x80 + n % 64).toUInt8]
  else
    [(0xF0 + n / 262144).toUInt8, (0x80 + n / 4096 % 64).toUInt8,
      (0x80 + n / 64 % 64).toUInt8, (0x80 + n % 64).toUInt8]

/-- The bytes of a list of characters. -/
def encode (cs : List Char) : List UInt8 := cs.flatMap encodeChar

example : decode [0x61, 0xC3, 0xA9] = .ok ['a', 'é'] := rfl
example : decode [0x61, 0xED, 0xA0, 0x80] = .error 1 := rfl
example : encode ['é', '😀'] = [0xC3, 0xA9, 0xF0, 0x9F, 0x98, 0x80] := by decide

end Cbor.Utf8
