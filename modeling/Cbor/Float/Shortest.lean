import Cbor.Float.Format
/-! # Shortest decimal digits

Of the decimals that read back as a given binary number, the ones with the fewest significant
digits; of these, the one nearest to the number, an exact tie going up.

A decimal reads back when it lies in the number's rounding interval: the reals within half a step
of it on either side, where the step below a normal number with a zero fraction is taken as half
the step above. The ends belong to the interval exactly when the significand is even, since a
tie rounds to the even significand.

The search tries the grids `10 ^ (k - n)` for `n = 1, 2, …` significant digits, where `10 ^ k` is
the least power of ten above the number, and on each grid tests the two grid points next to the
number. When some point of a grid lies in the interval, one of those two does, so the first grid
with a hit has the fewest digits. Seventeen digits always suffice for binary64.
-/

namespace Cbor

/-- A nonnegative rational `num / den`, compared by cross-multiplication. -/
structure Ratio where
  /-- Numerator. -/
  num : Nat
  /-- Denominator, positive. -/
  den : Nat
  deriving DecidableEq, Repr

namespace Ratio

/-- The number `m · 2 ^ q`. -/
def ofBinary (m : Nat) (q : Int) : Ratio :=
  if 0 ≤ q then ⟨m * Nat.pow 2 q.toNat, 1⟩ else ⟨m, Nat.pow 2 (-q).toNat⟩

/-- The number `d · 10 ^ e`. -/
def ofDecimal (d : Nat) (e : Int) : Ratio :=
  if 0 ≤ e then ⟨d * Nat.pow 10 e.toNat, 1⟩ else ⟨d, Nat.pow 10 (-e).toNat⟩

/-- Strict order. -/
def lt (a b : Ratio) : Bool := a.num * b.den < b.num * a.den

/-- Order. -/
def le (a b : Ratio) : Bool := a.num * b.den ≤ b.num * a.den

/-- The floor of `a / 10 ^ e`. -/
def floorDivPow10 (a : Ratio) (e : Int) : Nat :=
  if 0 ≤ e then a.num / (a.den * Nat.pow 10 e.toNat) else a.num * Nat.pow 10 (-e).toNat / a.den

/-- The number of decimal digits of `n`; none for zero. -/
def decimalLength (n : Nat) : Nat :=
  if n = 0 then 0 else decimalLength (n / 10) + 1

/-- The least `k` with `a < 10 ^ k`, for positive `a`. At or above one it is the length of
`⌊a⌋`; below one it is `1 - t` for the least `t` with `10 ^ t ≥ ⌈1 / a⌉`. -/
def scale (a : Ratio) : Int :=
  if a.den ≤ a.num then decimalLength (a.num / a.den)
  else 1 - (decimalLength ((a.den + a.num - 1) / a.num - 1) : Int)

end Ratio

/-- A decimal `digits · 10 ^ exponent`. -/
structure Decimal where
  /-- The significant digits, as a number. -/
  digits : Nat
  /-- The power of ten of the last digit. -/
  exponent : Int
  deriving DecidableEq, Repr

namespace Decimal

/-- The same number without trailing zeros in its digits. -/
def trim (d : Decimal) : Decimal :=
  if h : d.digits ≠ 0 ∧ d.digits % 10 = 0 then
    trim ⟨d.digits / 10, d.exponent + 1⟩
  else d
termination_by d.digits
decreasing_by exact Nat.div_lt_self (Nat.pos_of_ne_zero h.1) (by decide)

/-- The digits as text. -/
def digitText (d : Decimal) : String := toString d.digits

/-- The least `k` with the number below `10 ^ k`, for nonzero digits without trailing zeros:
the number is `0.d₁d₂… · 10 ^ k`. -/
def scale (d : Decimal) : Int := d.exponent + d.digitText.length

end Decimal

/-- The reals that round to a positive binary number: the ends and whether they belong. -/
structure RoundingInterval where
  /-- Lower end. -/
  low : Ratio
  /-- Upper end. -/
  high : Ratio
  /-- Whether the ends belong to the interval. -/
  closed : Bool

namespace RoundingInterval

/-- The interval of `m · 2 ^ q`, with the step below halved when `narrow`. -/
def ofBinary (m : Nat) (q : Int) (narrow : Bool) : RoundingInterval :=
  ⟨.ofBinary (4 * m - if narrow then 1 else 2) (q - 2), .ofBinary (4 * m + 2) (q - 2),
    m % 2 = 0⟩

/-- Whether `x` lies in the interval. -/
def contains (i : RoundingInterval) (x : Ratio) : Bool :=
  if i.closed then i.low.le x && x.le i.high else i.low.lt x && x.lt i.high

end RoundingInterval

/-- On the grid `10 ^ e`, the point next to `v` that lies in `i`, the nearer one if both do and
the upper one on a tie. -/
def gridHit (v : Ratio) (i : RoundingInterval) (e : Int) : Option Decimal :=
  let lo := v.floorDivPow10 e
  let below := i.contains (.ofDecimal lo e)
  let above := i.contains (.ofDecimal (lo + 1) e)
  -- `v` is nearer to the lower point iff `2 v < (2 lo + 1) · 10 ^ e`
  let nearerBelow := Ratio.lt ⟨2 * v.num, v.den⟩ (.ofDecimal (2 * lo + 1) e)
  if below && (!above || nearerBelow) then some ⟨lo, e⟩
  else if above then some ⟨lo + 1, e⟩
  else none

/-- The shortest decimal that lies in the rounding interval of the positive number `m · 2 ^ q`,
the nearest of that length; `narrow` when the step below is half the step above. -/
def shortestDecimal (m : Nat) (q : Int) (narrow : Bool) : Decimal :=
  let v := Ratio.ofBinary m q
  let i := RoundingInterval.ofBinary m q narrow
  let k := v.scale
  let hit := (List.range' 1 17).findSome? fun (n : Nat) => gridHit v i (k - n)
  (hit.getD ⟨v.floorDivPow10 (k - 17), k - 17⟩).trim

/-- The shortest decimal of a finite nonzero number of format `f` with significand `m`. -/
def BinaryFormat.shortest (f : BinaryFormat) (m : Nat) (q : Int) : Decimal :=
  shortestDecimal m q (m = Nat.pow 2 f.fractionBits)

end Cbor
