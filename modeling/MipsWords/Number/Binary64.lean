/-!
# Double-precision numbers, exactly

A non-negative double-precision number is a mantissa below `2 ^ 53` times a
power of two not below `2 ^ (-1074)`. The operations here compute the exact
rational result and round it once, to the nearest such number and on a tie to
the even mantissa.

A magnitude may exceed the largest finite number; `isFinite` tells.
-/

namespace MipsWords

/-- The number `mantissa * 2 ^ exponent`. -/
structure Binary64 where
  mantissa : Nat
  exponent : Int
  deriving DecidableEq, Repr, Inhabited

namespace Binary64

/-- The least exponent of a double-precision number. -/
def minExponent : Int := -1074

/-- The least mantissa of 53 bits; a smaller one comes with the least exponent alone. -/
def leastFull : Nat := 0x10000000000000

/-- Zero, which has the least exponent. -/
def zero : Binary64 := ⟨0, minExponent⟩

/-- Whether the number is zero, whatever its exponent. -/
def isZero (x : Binary64) : Bool := x.mantissa == 0

/-- Below `2 ^ 1024`, where the finite numbers end. -/
def isFinite (x : Binary64) : Bool :=
  x.isZero || (Nat.log2 x.mantissa : Int) + x.exponent < 1024

/-- The natural number nearest to `num / den`, the even one of two. -/
def roundQuotient (num den : Nat) : Nat :=
  let q := num / den
  let r := num % den
  if 2 * r < den then q
  else if den < 2 * r then q + 1
  else if q % 2 = 0 then q else q + 1

/-- The two sides of `num / den` divided by `2 ^ e`, as naturals. -/
def scaled (num den : Nat) (e : Int) : Nat × Nat :=
  if 0 ≤ e then (num, den * Nat.pow 2 e.toNat) else (num * Nat.pow 2 (-e).toNat, den)

/-- The double-precision number nearest to `num / den`. -/
def ofQuotient (num den : Nat) : Binary64 :=
  if num = 0 then zero
  else
    let guess : Int := (Nat.log2 num : Int) - (Nat.log2 den : Int) - 52
    -- The quotient by `2 ^ guess` is above `2 ^ 51` and below `2 ^ 53`.
    let (n, d) := scaled num den guess
    let tight := if n < leastFull * d then guess - 1 else guess
    let e := max tight minExponent
    let (n, d) := scaled num den e
    let m := roundQuotient n d
    if m = 2 * leastFull then ⟨leastFull, e + 1⟩ else ⟨m, e⟩

/-- The double-precision number nearest to a natural number. -/
def ofNat (n : Nat) : Binary64 := ofQuotient n 1

/-- The rounded product. -/
def mul (x y : Binary64) : Binary64 :=
  let e := x.exponent + y.exponent
  let m := x.mantissa * y.mantissa
  if 0 ≤ e then ofQuotient (m * Nat.pow 2 e.toNat) 1 else ofQuotient m (Nat.pow 2 (-e).toNat)

/-- The rounded quotient by a number that is not zero. -/
def div (x y : Binary64) : Binary64 :=
  let e := x.exponent - y.exponent
  if 0 ≤ e then ofQuotient (x.mantissa * Nat.pow 2 e.toNat) y.mantissa
  else ofQuotient x.mantissa (y.mantissa * Nat.pow 2 (-e).toNat)

/-- The power of ten nearest to `10 ^ n`. -/
def pow10 (n : Nat) : Binary64 := ofNat (Nat.pow 10 n)

end Binary64

end MipsWords
