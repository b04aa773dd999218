/-!
# Numerals

Natural numbers written in a base with at least a given count of digits, and
runs of digits read back. Both work for any base up to sixteen; the library
uses two, ten and sixteen.

A least width never cuts a number short: it only adds zeros in front.
-/

namespace MipsWords.Numeral

/-- The digits of `n` in base `b`, with zeros in front up to `width` of them. -/
def padded (b width n : Nat) : List Char :=
  let digits := Nat.toDigits b n
  List.replicate (width - digits.length) '0' ++ digits

/-- The number in binary, at least `width` digits long. -/
def binary (width n : Nat) : String := String.ofList (padded 2 width n)

/-- The number in lower-case hexadecimal, at least `width` digits long. -/
def hex (width n : Nat) : String := String.ofList (padded 16 width n)

/-- The number in decimal, without needless zeros. -/
def decimal (n : Nat) : String := String.ofList (padded 10 1 n)

/-- An integer in decimal, with a minus sign in front when it is negative. -/
def signed (i : Int) : String :=
  if i < 0 then "-" ++ decimal i.natAbs else decimal i.natAbs

/-- The value of a digit in base `b`; letters count from ten in either case. -/
def digit? (b : Nat) (c : Char) : Option Nat :=
  let value? :=
    if '0' ≤ c ∧ c ≤ '9' then some (c.toNat - '0'.toNat)
    else if 'a' ≤ c ∧ c ≤ 'f' then some (c.toNat - 'a'.toNat + 10)
    else if 'A' ≤ c ∧ c ≤ 'F' then some (c.toNat - 'A'.toNat + 10)
    else none
  value?.filter (· < b)

/-- Reads a run of base `b` digits after a number `n` already read. -/
def readFrom? (b n : Nat) : List Char → Option Nat
  | [] => some n
  | c :: rest => (digit? b c).bind fun d => readFrom? b (n * b + d) rest

/-- The number a non-empty run of base `b` digits stands for, and nothing for any other text. -/
def read? (b : Nat) (digits : List Char) : Option Nat :=
  if digits.isEmpty then none else readFrom? b 0 digits

end MipsWords.Numeral
