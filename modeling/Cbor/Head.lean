/-! # Heads and arguments

Every CBOR data item starts with a head (RFC 8949 §3): an initial byte whose top three bits give
the major type and whose low five bits, the additional information, say how the argument is
written. The argument is the value itself (0–23), the big-endian number in the 1, 2, 4 or 8
bytes that follow (24–27), or the mark of an indefinite length (31); 28–30 are reserved.

This file holds the split of the initial byte, the forms of an argument, the big-endian reading of
argument bytes and the shortest head that writes a value.

## Main definitions

* `Cbor.Head.ofByte`: the major type and additional information of an initial byte.
* `Cbor.Argument.ofInfo?`: how the argument is written, or `none` for a reserved value.
* `Cbor.bigEndian`, `Cbor.toBigEndian`: bytes to a number and back.
* `Cbor.Head.encode`: the shortest head of a major type with a given argument.
-/

namespace Cbor

/-- The eight major types of RFC 8949 §3.1. -/
inductive Major where
  /-- Unsigned integers. -/
  | unsigned
  /-- Negative integers: argument `n` stands for `-1 - n`. -/
  | negative
  /-- Byte strings. -/
  | bytes
  /-- Text strings, in UTF-8. -/
  | text
  /-- Arrays. -/
  | array
  /-- Maps. -/
  | map
  /-- Tagged items. -/
  | tag
  /-- Simple values, floats and the Break marker. -/
  | simple
  deriving DecidableEq, Repr

namespace Major

/-- The major type written by the three bits `n % 8`. -/
def ofBits (n : Nat) : Major :=
  match n % 8 with
  | 0 => .unsigned
  | 1 => .negative
  | 2 => .bytes
  | 3 => .text
  | 4 => .array
  | 5 => .map
  | 6 => .tag
  | _ => .simple

/-- The three bits that write a major type. -/
def bits : Major → Nat
  | .unsigned => 0
  | .negative => 1
  | .bytes => 2
  | .text => 3
  | .array => 4
  | .map => 5
  | .tag => 6
  | .simple => 7

theorem bits_lt_eight (m : Major) : m.bits < 8 := by
  cases m <;> decide

@[simp] theorem ofBits_bits (m : Major) : ofBits m.bits = m := by
  cases m <;> rfl

/-- Whether items of this major type may have an indefinite length. -/
def allowsIndefinite : Major → Bool
  | .bytes | .text | .array | .map => true
  | _ => false

end Major

/-- The Break marker, which ends an indefinite-length item. -/
def breakByte : UInt8 := 0xFF

/-- An initial byte, split into its major type and its additional information. -/
structure Head where
  /-- The top three bits. -/
  major : Major
  /-- The low five bits. -/
  info : Nat
  deriving DecidableEq, Repr

namespace Head

/-- The major type and additional information of an initial byte. -/
def ofByte (b : UInt8) : Head := ⟨Major.ofBits (b.toNat / 32), b.toNat % 32⟩

/-- The initial byte of a major type and an additional information below 32. -/
def toByte (h : Head) : UInt8 := UInt8.ofNat (h.major.bits * 32 + h.info)

theorem info_ofByte_lt (b : UInt8) : (ofByte b).info < 32 :=
  Nat.mod_lt _ (by decide)

end Head

/-- How the additional information says the argument is written. -/
inductive Argument where
  /-- The additional information is the argument. -/
  | immediate (value : Nat)
  /-- The argument is the big-endian number in the next `width` bytes. -/
  | follows (width : Nat)
  /-- The item has an indefinite length and ends at a Break. -/
  | indefinite
  deriving DecidableEq, Repr

/-- How the argument is written for additional information `info`: `none` for the reserved 28–30
(and for anything from 32 on, which five bits cannot hold). -/
def Argument.ofInfo? (info : Nat) : Option Argument :=
  if info < 24 then some (.immediate info)
  else if info = 24 then some (.follows 1)
  else if info = 25 then some (.follows 2)
  else if info = 26 then some (.follows 4)
  else if info = 27 then some (.follows 8)
  else if info = 31 then some .indefinite
  else none

/-- The number that a big-endian byte string writes. -/
def bigEndian (bs : List UInt8) : Nat :=
  bs.foldl (fun acc b => acc * 256 + b.toNat) 0

/-- The `width` bytes that write `n` modulo `256 ^ width`, most significant first. -/
def toBigEndian : Nat → Nat → List UInt8
  | 0, _ => []
  | w + 1, n => toBigEndian w (n / 256) ++ [UInt8.ofNat (n % 256)]

/-- The widths an argument can be written in: in the additional information itself (`0`), or in
1, 2, 4 or 8 following bytes. -/
def argumentForms : List Nat := [0, 1, 2, 4, 8]

/-- Whether an argument written in `w` bytes (`0`: in the additional information) can be `v`. -/
def formHolds (w v : Nat) : Bool := if w = 0 then v < 24 else v < Nat.pow 256 w

/-- The number of argument bytes in the shortest head for `v`: none below 24, then the least of
1, 2, 4 and 8 that holds `v`. -/
def argumentWidth (v : Nat) : Nat :=
  if v < 24 then 0
  else if v < Nat.pow 2 8 then 1
  else if v < Nat.pow 2 16 then 2
  else if v < Nat.pow 2 32 then 4
  else 8

/-- The additional information of the shortest head for `v`. -/
def shortestInfo (v : Nat) : Nat :=
  if v < 24 then v
  else if v < Nat.pow 2 8 then 24
  else if v < Nat.pow 2 16 then 25
  else if v < Nat.pow 2 32 then 26
  else 27

/-- The shortest head of major type `m` whose argument is `v`. -/
def Head.encode (m : Major) (v : UInt64) : List UInt8 :=
  Head.toByte ⟨m, shortestInfo v.toNat⟩ :: toBigEndian (argumentWidth v.toNat) v.toNat

example : Head.encode .unsigned 500 = [0x19, 0x01, 0xF4] := by decide

end Cbor
