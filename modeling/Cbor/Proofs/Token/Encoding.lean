import Cbor.Proofs.Grammar.Sound
import Cbor.Token.Scanner
/-! # Token encodings

The tokens of CBOR as written (RFC 8949 §3): the Break byte; the head of an integer, of a
container's count or of a tag, with its argument; a definite byte or text string, its head and
then its payload; the head of an indefinite-length string or container; and a simple value or a
float. An argument is an `Arg`, in any of the head forms that hold it, and a definite string is a
`Piece`, so its payload has the length its head announces and a text payload is UTF-8.

`TokenEncoding.bytes` writes a token, `TokenEncoding.token` is the token it denotes, and
`TokenEncoding.Admitted` says that the limits of a `Config` allow it: a definite string within
the length limit, an indefinite length only where allowed.
-/

namespace Cbor

/-- A token as written. -/
inductive TokenEncoding where
  /-- The Break byte. -/
  | breakMark
  /-- An unsigned integer. -/
  | unsigned (a : Arg)
  /-- A negative integer. -/
  | negative (a : Arg)
  /-- The head of an array of `a.value` entries. -/
  | array (a : Arg)
  /-- The head of a map of `a.value` entries. -/
  | map (a : Arg)
  /-- A tag. -/
  | tag (a : Arg)
  /-- A definite byte string. -/
  | byteString (p : Piece UInt8 id)
  /-- A definite text string. -/
  | textString (p : Piece Char Utf8.encode)
  /-- The head of an indefinite-length byte string. -/
  | bytesStart
  /-- The head of an indefinite-length text string. -/
  | textStart
  /-- The head of an indefinite-length array. -/
  | arrayStart
  /-- The head of an indefinite-length map. -/
  | mapStart
  /-- A simple value, in one byte below 20 and in two from 32 on. -/
  | simple (v : UInt8) (h : v.toNat < 20 ∨ 32 ≤ v.toNat)
  /-- `false` or `true`. -/
  | bool (b : Bool)
  /-- `null`. -/
  | null
  /-- `undefined`. -/
  | undefined
  /-- A float of the width it is written in. -/
  | float (x : IeeeFloat)

namespace TokenEncoding

/-- The bytes of a token. -/
def bytes : TokenEncoding → List UInt8
  | .breakMark => [breakByte]
  | .unsigned a => a.head .unsigned
  | .negative a => a.head .negative
  | .array a => a.head .array
  | .map a => a.head .map
  | .tag a => a.head .tag
  | .byteString p => p.bytes .bytes
  | .textString p => p.bytes .text
  | .bytesStart => [indefiniteByte .bytes]
  | .textStart => [indefiniteByte .text]
  | .arrayStart => [indefiniteByte .array]
  | .mapStart => [indefiniteByte .map]
  | .simple v _ => if v.toNat < 20 then [0xE0 + v] else [0xF8, v]
  | .bool b => [if b then 0xF5 else 0xF4]
  | .null => [0xF6]
  | .undefined => [0xF7]
  | .float x => x.encode

/-- The token an encoding denotes; an argument is the number its bytes write. -/
def token : TokenEncoding → Token
  | .breakMark => .breakMark
  | .unsigned a => .unsigned a.value.toUInt64
  | .negative a => .negative a.value.toUInt64
  | .array a => .array a.value.toUInt64
  | .map a => .map a.value.toUInt64
  | .tag a => .tag a.value.toUInt64
  | .byteString p => .bytes p.content
  | .textString p => .text (String.ofList p.content)
  | .bytesStart => .bytesStart
  | .textStart => .textStart
  | .arrayStart => .arrayStart
  | .mapStart => .mapStart
  | .simple v _ => .simple v
  | .bool b => .bool b
  | .null => .null
  | .undefined => .undefined
  | .float x => .float x

/-- The limits of `cfg` on a token: a definite string within the length limit, and an indefinite
length only where indefinite lengths are allowed. -/
def Admitted (cfg : Config) : TokenEncoding → Prop
  | .byteString p => cfg.stringTooLong p.len.value = false
  | .textString p => cfg.stringTooLong p.len.value = false
  | .bytesStart | .textStart | .arrayStart | .mapStart => cfg.allowIndefinite = true
  | _ => True

end TokenEncoding

/-! ### Arguments read from a head -/

namespace Arg

theorem form_of_follows {info : Nat} {bs : List UInt8}
    (h : Argument.ofInfo? info = some (.follows bs.length)) : bs.length ∈ argumentForms := by
  rcases ofInfo?_follows h with ⟨-, hw⟩ | ⟨-, hw⟩ | ⟨-, hw⟩ | ⟨-, hw⟩ <;> simp [argumentForms, hw]

theorem ne_zero_of_follows {info : Nat} {bs : List UInt8}
    (h : Argument.ofInfo? info = some (.follows bs.length)) : bs.length ≠ 0 := by
  rcases ofInfo?_follows h with ⟨-, hw⟩ | ⟨-, hw⟩ | ⟨-, hw⟩ | ⟨-, hw⟩ <;> omega

@[simp] theorem info_immediate (v : Nat) (h : v < 24) : (immediate v h).info = v := rfl

@[simp] theorem extra_immediate (v : Nat) (h : v < 24) : (immediate v h).extra = [] := rfl

/-- The argument bytes after a head of additional information `info` are the argument that
`info` announces. -/
theorem info_follows {info : Nat} {bs : List UInt8}
    (h : Argument.ofInfo? info = some (.follows bs.length)) :
    (follows bs (form_of_follows h) (ne_zero_of_follows h)).info = info := by
  unfold Arg.info follows
  rcases ofInfo?_follows h with ⟨rfl, hw⟩ | ⟨rfl, hw⟩ | ⟨rfl, hw⟩ | ⟨rfl, hw⟩ <;> simp [hw]

@[simp] theorem extra_follows (bs : List UInt8) (h : bs.length ∈ argumentForms)
    (h0 : bs.length ≠ 0) : (follows bs h h0).extra = bs :=
  toBigEndian_bigEndian bs

/-- The head of the major type of an initial byte, with an argument of its additional
information, starts with that byte. -/
theorem head_ofByte {b : UInt8} {a : Arg} (h : a.info = (Head.ofByte b).info) :
    a.head (Head.ofByte b).major = b :: a.extra := by
  rw [Arg.head, h, Head.toByte_ofByte]

end Arg

end Cbor
