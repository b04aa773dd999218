import MipsWords.Json.Reader

/-!
# JSON numbers

A number never is the value that a shape of this library expects, so a number
is read only to be named in a complaint. It is named as an integer if it is
written as one and fits, and otherwise by the double-precision number that its
digits give.

The significand is kept in 64 bits: a digit that would overflow it is dropped,
with those after it. Of the integer part each dropped digit raises the exponent
by one; of the fraction they have no effect. The value is the rounded
significand times, or divided by, a rounded power of ten, so it can differ from
the nearest number in its last digit.
-/

namespace MipsWords.Json

namespace Reader

/-- A decimal digit. -/
def isDigit (c : Char) : Bool := '0' ≤ c && c ≤ '9'

/-- Takes the digits at the front of a text, if there are any. -/
def digits : Reader (List Char) := fun s => .ok (s.takeWhile isDigit, s.dropWhile isDigit)

/-- The digits at the front of a text, of which there must be one. -/
def someDigits : Reader (List Char) := do
  let c ← next
  if isDigit c then return c :: (← digits) else fail .malformed

/-- The character at the front of a text, if there is one; it stays in place. -/
def front? : Reader (Option Char) := fun s => .ok (s.head?, s)

end Reader

namespace Number

/-- The largest number of 64 bits. -/
def maxSignificand : Nat := 18446744073709551615

/-- Appends digits to a significand while they fit, and counts those that are dropped. -/
def append (significand : Nat) : List Char → Nat × Nat
  | [] => (significand, 0)
  | c :: rest =>
    let grown := significand * 10 + (c.toNat - '0'.toNat)
    if grown ≤ maxSignificand then append grown rest else (significand, rest.length + 1)

/-- The number `significand * 10 ^ exponent` in double precision, if it is not too large. -/
def scale? (significand : Binary64) (exponent : Int) : Option Binary64 :=
  if exponent.natAbs ≤ 308 then
    if 0 ≤ exponent then
      let product := significand.mul (.pow10 exponent.natAbs)
      if product.isFinite then some product else none
    else some (significand.div (.pow10 exponent.natAbs))
  else if significand.isZero then some significand
  else if 0 ≤ exponent then none
  else scale? (significand.div (.pow10 308)) (exponent + 308)
termination_by exponent.natAbs

/-- An integer as it is named: zero with a minus sign, and what does not fit, count as floating. -/
def ofInteger (negative : Bool) (significand : Nat) : Found :=
  if !negative then .integer significand
  else if 0 < significand && significand ≤ 9223372036854775808 then .integer (-significand)
  else .floating (.shortest true (.ofNat significand))

end Number

namespace Reader

/-- Takes the integer part: zero alone, or digits that do not begin with zero. -/
def integerPart : Reader (List Char) := do
  let run ← someDigits
  match run with
  | '0' :: _ :: _ => fail .malformed
  | _ => pure run

/-- Takes a point and the digits behind it, if there is a point. -/
def fractionPart? : Reader (Option (List Char)) := do
  if (← front?) = some '.' then
    skip
    return some (← someDigits)
  else return none

/-- Takes an exponent with its sign, if there is one. -/
def exponentPart? : Reader (Option Int) := do
  match ← front? with
  | some 'e' | some 'E' =>
    skip
    let sign ← front?
    if sign = some '+' ∨ sign = some '-' then skip
    let value := (Numeral.readFrom? 10 0 (← someDigits)).getD 0
    return some (if sign = some '-' then -value else value)
  | _ => return none

/-- Reads a number. One whose value is too large is no number. -/
def number : Reader Found := do
  let negative := (← front?) == some '-'
  if negative then skip
  let (whole, raised) := Number.append 0 (← integerPart)
  let fraction? ← fractionPart?
  let exponent? ← exponentPart?
  if fraction?.isNone && exponent?.isNone && raised == 0 then
    return Number.ofInteger negative whole
  let fraction := fraction?.getD []
  let (significand, dropped) := Number.append whole fraction
  let exponent : Int := raised - (fraction.length - dropped : Nat) + exponent?.getD 0
  match Number.scale? (.ofNat significand) exponent with
  | some value => return .floating (.shortest negative value)
  | none => fail .malformed

end Reader

end MipsWords.Json
