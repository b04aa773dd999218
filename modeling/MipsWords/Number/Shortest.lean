import MipsWords.Number.Binary64
import MipsWords.Text.Numeral

/-!
# The shortest decimal that reads back

A double-precision number is written with the fewest significant digits that
round to it again; of several such decimals the one nearest to the number, and
of two equally near the one with the even last digit.

The reals that round to a number form an interval around it, with its ends when
the mantissa is even. On the grid of multiples of a power of ten, if any point
lies in the interval then so does one of the number's two neighbours on that
grid. Seventeen digits always suffice.
-/

namespace MipsWords

/-- The number `digits * 10 ^ exponent`, or its negative. -/
structure Decimal where
  negative : Bool
  digits : Nat
  exponent : Int
  deriving DecidableEq, Repr, Inhabited

namespace Binary64

/-- A number and the two ends of its rounding interval, over one denominator. -/
structure Interval where
  low : Nat
  value : Nat
  high : Nat
  den : Nat
  /-- Whether the ends round to the number too. -/
  closed : Bool

/-- The reals that round to `x`. Below a power of two the numbers lie twice as close. -/
def interval (x : Binary64) : Interval :=
  let m := x.mantissa
  let narrow := m = leastFull ∧ x.exponent ≠ minExponent
  let (num, den) := scaled 1 4 (-x.exponent)
  { low := (4 * m - if narrow then 1 else 2) * num
    value := 4 * m * num
    high := (4 * m + 2) * num
    den := den
    closed := m % 2 == 0 }

/-- Whether `n * 10 ^ e` lies in the interval. -/
def Interval.holds (i : Interval) (n : Nat) (e : Int) : Bool :=
  let (a, b) := if 0 ≤ e then (n * Nat.pow 10 e.toNat, 1) else (n, Nat.pow 10 (-e).toNat)
  let point := a * i.den
  if i.closed then i.low * b ≤ point && point ≤ i.high * b
  else i.low * b < point && point < i.high * b

/-- The point of the grid of multiples of `10 ^ e` that stands for the interval's number, if any. -/
def Interval.onGrid? (i : Interval) (e : Int) : Option Nat :=
  let (num, den) :=
    if 0 ≤ e then (i.value, i.den * Nat.pow 10 e.toNat)
    else (i.value * Nat.pow 10 (-e).toNat, i.den)
  let below := num / den
  let nearest := roundQuotient num den
  let farther := if nearest = below then below + 1 else below
  [nearest, farther].find? fun n => n ≠ 0 && i.holds n e

/-- The first of the grids `10 ^ e`, `10 ^ (e - 1)`, … with a point in the interval. -/
def Interval.search (i : Interval) : Nat → Int → Nat × Int
  | 0, e => ((i.onGrid? e).getD 0, e)
  | fuel + 1, e =>
    match i.onGrid? e with
    | some n => (n, e)
    | none => i.search fuel (e - 1)

/-- The largest power of ten not above `num / den`, by exponent, from a start not below it. -/
def tensBelow (num den : Nat) : Nat → Int → Int
  | 0, e => e
  | fuel + 1, e =>
    let fits :=
      if 0 ≤ e then den * Nat.pow 10 e.toNat ≤ num else den ≤ num * Nat.pow 10 (-e).toNat
    if fits then e else tensBelow num den fuel (e - 1)

end Binary64

namespace Decimal

/-- Drops final zeros from the digits, at most `fuel` of them. -/
def trimmed (negative : Bool) : Nat → Nat → Int → Decimal
  | 0, digits, exponent => ⟨negative, digits, exponent⟩
  | fuel + 1, digits, exponent =>
    if digits % 10 = 0 then trimmed negative fuel (digits / 10) (exponent + 1)
    else ⟨negative, digits, exponent⟩

/-- The shortest decimal that rounds to `x`. -/
def shortest (negative : Bool) (x : Binary64) : Decimal :=
  if x.isZero then ⟨negative, 0, 0⟩
  else
    let i := x.interval
    let log : Int := (Nat.log2 x.mantissa : Int) + x.exponent
    -- A decimal exponent lies between three tenths and a third of the binary one.
    let first := Binary64.tensBelow i.value i.den 64 (max (log / 3) (log * 3 / 10) + 1)
    let (digits, exponent) := i.search 17 first
    trimmed negative 17 digits exponent

/-- Where a decimal turns from digits around a point to a power of ten. -/
structure Layout where
  /-- The least power of ten of the first digit that is written without an exponent. -/
  least : Int
  /-- The greatest one. -/
  greatest : Int

/-- Numbers from `1e-5` up to, but not including, `1e16` are written around a point. -/
def layout : Layout := ⟨-5, 15⟩

/-- The decimal in digits: around a point, always with one, or as a power of ten, always with
the sign of its exponent. -/
def text (x : Decimal) : String :=
  let digits := Numeral.padded 10 1 x.digits
  let count := digits.length
  let first : Int := x.exponent + count - 1
  let zeros (n : Int) := List.replicate n.toNat '0'
  let body :=
    if layout.least ≤ first ∧ first ≤ layout.greatest then
      if 0 ≤ x.exponent then digits ++ zeros x.exponent ++ ['.', '0']
      else if 0 ≤ first then
        digits.take (first + 1).toNat ++ '.' :: digits.drop (first + 1).toNat
      else '0' :: '.' :: (zeros (-first - 1) ++ digits)
    else
      let fraction := if count = 1 then [] else '.' :: digits.drop 1
      let sign := if first < 0 then '-' else '+'
      digits.take 1 ++ fraction ++ 'e' :: sign :: Numeral.padded 10 1 first.natAbs
  String.ofList (if x.negative then '-' :: body else body)

end Decimal

end MipsWords
