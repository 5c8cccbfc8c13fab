import Cbor.Float.Shortest
/-! # Decimal layout

How a finite number is written once its digits are chosen. With digits `d₁d₂…dₙ` and scale `k`
(the number is `0.d₁d₂…dₙ · 10 ^ k`), a scale inside a middle range is written positionally with
at least one digit after the point, and any other scale in scientific form: one digit, the rest
after a point, and the exponent `k - 1`. The range and the marks are fields of a record, so that
the rule stays one function whatever the output format chooses.
-/

namespace Cbor

/-- The choices of a decimal output format. -/
structure DecimalStyle where
  /-- The least scale written positionally. -/
  minPositional : Int
  /-- The greatest scale written positionally. -/
  maxPositional : Int
  /-- The mark before the exponent in scientific form. -/
  exponentMark : String
  /-- The text of zero, without a sign. -/
  zero : String
  /-- The sign of a negative number, zero included. -/
  minus : String

namespace DecimalStyle

/-- A run of `n` zeros. -/
def zeros (n : Nat) : String := String.ofList (List.replicate n '0')

/-- Positional form of `0.ds · 10 ^ k`, with at least one digit after the point. -/
def positional (ds : List Char) (k : Int) : String :=
  if k ≤ 0 then "0." ++ zeros k.natAbs ++ String.ofList ds
  else if k.toNat < ds.length then
    String.ofList (ds.take k.toNat) ++ "." ++ String.ofList (ds.drop k.toNat)
  else String.ofList ds ++ zeros (k.toNat - ds.length) ++ ".0"

/-- Scientific form of `0.ds · 10 ^ k`: the first digit, the others after a point if there are
any, and the exponent `k - 1`. -/
def scientific (s : DecimalStyle) (ds : List Char) (k : Int) : String :=
  let lead := String.ofList (ds.take 1)
  let rest := ds.drop 1
  (if rest.isEmpty then lead else lead ++ "." ++ String.ofList rest) ++ s.exponentMark ++
    toString (k - 1)

/-- The text of a decimal, or of zero for `none`, with its sign. -/
def render (s : DecimalStyle) (negative : Bool) : Option Decimal → String
  | none => (if negative then s.minus else "") ++ s.zero
  | some d =>
    let ds := d.digitText.toList
    let k := d.scale
    (if negative then s.minus else "") ++
      if s.minPositional ≤ k ∧ k ≤ s.maxPositional then positional ds k else s.scientific ds k

end DecimalStyle

end Cbor
