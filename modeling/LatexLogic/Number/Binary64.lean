/-!
# Numbers of the binary64 format

A number of a syntax file that is not an integer is kept as the 64 bits of its binary64 format, so
that two such numbers can be told apart and written without loss. `Binary64.shape` decodes the bits
into a significand and a power of two, and `Binary64.ofDecimal` reads a decimal numeral: it takes
the nearest number of the format, and of two equally near ones that with the even significand.
Sums and products are rounded in the same way. Everything is exact arithmetic on natural numbers.
-/

set_option autoImplicit false

namespace LatexLogic

/-- A binary64 number, by its bits: sign, eleven bits of exponent, fifty-two of fraction. -/
structure Binary64 where
  /-- The bits as one word. -/
  bits : UInt64
  deriving DecidableEq, Repr

namespace Binary64

/-- The two kinds of number without a finite value, and the finite numbers
`significand * 2 ^ power` up to sign. -/
inductive Shape where
  | undefined
  | infinite
  | finite (significand : Nat) (power : Int)
  deriving DecidableEq, Repr

/-- The sign bit. It is set for the negative zero too. -/
def isNegative (x : Binary64) : Bool :=
  Nat.pow 2 63 ≤ x.bits.toNat

/-- The exponent bits. -/
def exponentField (x : Binary64) : Nat :=
  x.bits.toNat / Nat.pow 2 52 % Nat.pow 2 11

/-- The fraction bits. -/
def fractionField (x : Binary64) : Nat :=
  x.bits.toNat % Nat.pow 2 52

/-- The magnitude that the bits encode. -/
def shape (x : Binary64) : Shape :=
  if x.exponentField = 2047 then
    if x.fractionField = 0 then .infinite else .undefined
  else if x.exponentField = 0 then .finite x.fractionField (-1074)
  else .finite (Nat.pow 2 52 + x.fractionField) ((x.exponentField : Int) - 1075)

/-- The number with the given fields. -/
def ofFields (negative : Bool) (exponent fraction : Nat) : Binary64 :=
  ⟨UInt64.ofNat ((if negative then Nat.pow 2 63 else 0) + exponent * Nat.pow 2 52 + fraction)⟩

/-- Positive or negative infinity. -/
def infinity (negative : Bool) : Binary64 :=
  ofFields negative 2047 0

/-- The number that stands for an undefined value. -/
def undefinedValue : Binary64 :=
  ofFields false 2047 (Nat.pow 2 51)

/-- The quotient rounded to the nearest natural number, a half to the even neighbour. -/
def roundedQuotient (numerator denominator : Nat) : Nat :=
  let quotient := numerator / denominator
  let twice := 2 * (numerator % denominator)
  if twice > denominator || (twice = denominator && quotient % 2 = 1) then quotient + 1
  else quotient

/-- Numerator and denominator of `numerator / (denominator * 2 ^ power)`. -/
def scaledRatio (numerator denominator : Nat) (power : Int) : Nat × Nat :=
  (numerator * Nat.pow 2 (-power).toNat, denominator * Nat.pow 2 power.toNat)

/-- The power of two at which the significand of a positive ratio has fifty-three bits, or the least
power of the format if that is larger. -/
def ratioPower (numerator denominator : Nat) : Int :=
  let low : Int := (numerator.log2 : Int) - denominator.log2 - 53
  let (n, d) := scaledRatio numerator denominator low
  max (if n / d < Nat.pow 2 53 then low else low + 1) (-1074)

/-- The number nearest to a ratio. -/
def ofRatio (negative : Bool) (numerator denominator : Nat) : Binary64 :=
  if numerator = 0 then ofFields negative 0 0
  else
    let power := ratioPower numerator denominator
    let (n, d) := scaledRatio numerator denominator power
    let significand := roundedQuotient n d
    -- Rounding up can carry into a fifty-fourth bit.
    let (significand, power) :=
      if significand = Nat.pow 2 53 then (Nat.pow 2 52, power + 1) else (significand, power)
    -- Fewer bits only occur at the least power, where numbers have no leading one.
    if significand < Nat.pow 2 52 then ofFields negative 0 significand
    else
      let exponent := (power + 1075).toNat
      if exponent < 2047 then ofFields negative exponent (significand - Nat.pow 2 52)
      else infinity negative

/-- How many decimal digits a natural number has; zero has none. -/
def digitCount (n : Nat) : Nat :=
  if n = 0 then 0 else (Nat.toDigits 10 n).length

/-- The number nearest to the decimal numeral `digits * 10 ^ exponent`. Numerals of more than 310
places are infinite, and those below the 330th decimal place are zero. -/
def ofDecimal (negative : Bool) (digits : Nat) (exponent : Int) : Binary64 :=
  let places : Int := digitCount digits + exponent
  if digits = 0 || places < -330 then ofFields negative 0 0
  else if places > 310 then infinity negative
  else ofRatio negative (digits * Nat.pow 10 exponent.toNat) (Nat.pow 10 (-exponent).toNat)

/-- The sign applied to a magnitude. -/
def signed (x : Binary64) (magnitude : Nat) : Int :=
  if x.isNegative then -magnitude else magnitude

/-- The number as an integer times a power of two, if it is finite. -/
def scaled? (x : Binary64) : Option (Int × Int) :=
  match x.shape with
  | .finite significand power => some (x.signed significand, power)
  | _ => none

/-- The order of `a * 2 ^ p` and `b * 2 ^ q`. -/
def compareScaled (a p b q : Int) : Ordering :=
  compare (a * Nat.pow 2 (p - q).toNat) (b * Nat.pow 2 (q - p).toNat)

/-! ## Arithmetic -/

/-- The number nearest to an integer times a power of two. A zero is positive. -/
def ofScaled (n power : Int) : Binary64 :=
  ofRatio (n < 0) (n.natAbs * Nat.pow 2 power.toNat) (Nat.pow 2 (-power).toNat)

/-- The number with the opposite sign. -/
def neg (x : Binary64) : Binary64 :=
  ⟨x.bits ^^^ 0x8000000000000000⟩

/-- Whether a number is infinite. -/
def isInfinite (x : Binary64) : Bool :=
  x.shape = .infinite

/-- Whether a number is zero, of either sign. -/
def isZero (x : Binary64) : Bool :=
  match x.shape with
  | .finite 0 _ => true
  | _ => false

/-- The rounded sum. Two opposite infinities have none, and only two negative zeros sum up to a
negative zero. -/
def add (x y : Binary64) : Binary64 :=
  match x.scaled?, y.scaled? with
  | some (m, p), some (n, q) =>
    let power := min p q
    let sum := m * Nat.pow 2 (p - power).toNat + n * Nat.pow 2 (q - power).toNat
    if sum = 0 then ofFields (x.isNegative && y.isNegative) 0 0 else ofScaled sum power
  | _, _ =>
    if x.isInfinite && (y.scaled?.isSome || x = y) then x
    else if y.isInfinite && x.scaled?.isSome then y
    else undefinedValue

/-- The rounded product, whose sign is that of the two signs together. Zero and an infinity have
none. -/
def mul (x y : Binary64) : Binary64 :=
  let negative := x.isNegative != y.isNegative
  match x.scaled?, y.scaled? with
  | some (m, p), some (n, q) =>
    if m * n = 0 then ofFields negative 0 0 else ofScaled (m * n) (p + q)
  | _, _ =>
    if (x.isInfinite && !y.isZero && y.shape ≠ .undefined) ||
        (y.isInfinite && !x.isZero && x.shape ≠ .undefined) then
      infinity negative
    else undefinedValue

end Binary64

end LatexLogic
