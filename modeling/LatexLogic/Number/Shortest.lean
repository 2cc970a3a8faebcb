import LatexLogic.Number.Binary64

/-!
# Shortest decimal digits

The fewest decimal digits that read back as a given binary64 number, and of these the nearest to its
value. The reals that round to `significand * 2 ^ power` form an interval, whose ends belong to it
when the significand is even. On each decimal grid, from one digit to seventeen, only the two grid
points next to the value can be the nearest ones inside the interval; the first grid with such a
point gives the digits. If any point of a grid lies in the interval, then so does one of these two,
hence no shorter numeral reads back.
-/

set_option autoImplicit false

namespace LatexLogic.Binary64

/-- A positive decimal numeral `digits * 10 ^ exponent`. -/
structure Decimal where
  /-- The digits, read as one natural number. -/
  digits : Nat
  /-- The power of ten of the last digit. -/
  exponent : Int
  deriving DecidableEq, Repr

/-- The interval of reals that round to a number, in quarters of its last binary place. -/
structure Neighbourhood where
  /-- Four times the significand. -/
  centre : Nat
  /-- The lower end: half a place below, a quarter where the places below are half as wide. -/
  low : Nat
  /-- The upper end: half a place above. -/
  high : Nat
  /-- Whether the ends round to the number themselves. -/
  closed : Bool
  /-- The power of two of one quarter place. -/
  power : Int

/-- The neighbourhood of `significand * 2 ^ power`. -/
def neighbourhood (significand : Nat) (power : Int) : Neighbourhood :=
  { centre := 4 * significand
    low :=
      if significand = Nat.pow 2 52 && power > -1074 then 4 * significand - 1
      else 4 * significand - 2
    high := 4 * significand + 2
    closed := significand % 2 = 0
    power := power - 2 }

/-- Multiplier and divisor that take quarter places to units of `10 ^ exponent`. -/
def gridScale (power exponent : Int) : Nat × Nat :=
  (Nat.pow 2 power.toNat * Nat.pow 10 (-exponent).toNat,
    Nat.pow 2 (-power).toNat * Nat.pow 10 exponent.toNat)

/-- Whether the grid point `digits * 10 ^ exponent` lies in the neighbourhood. -/
def Neighbourhood.contains (range : Neighbourhood) (exponent : Int) (digits : Nat) : Bool :=
  let (multiplier, divisor) := gridScale range.power exponent
  let point := digits * divisor
  let low := range.low * multiplier
  let high := range.high * multiplier
  if range.closed then low ≤ point && point ≤ high else low < point && point < high

/-- The grid point inside the neighbourhood that is nearest to the value, an exact tie going to the
even one. -/
def Neighbourhood.nearest? (range : Neighbourhood) (exponent : Int) : Option Nat :=
  let (multiplier, divisor) := gridScale range.power exponent
  let value := range.centre * multiplier
  let below := value / divisor
  let above := below + 1
  -- The value lies between these two, so no other grid point is nearer.
  match range.contains exponent below, range.contains exponent above with
  | false, false => none
  | true, false => some below
  | false, true => some above
  | true, true => some (roundedQuotient value divisor)

/-- The decimal exponent of the leading digit of `significand * 2 ^ power`. -/
def leadingExponent (significand : Nat) (power : Int) : Int :=
  let numerator := significand * Nat.pow 2 power.toNat
  let denominator := Nat.pow 2 (-power).toNat
  if denominator ≤ numerator then (digitCount (numerator / denominator) : Int) - 1
  else -(digitCount ((denominator - 1) / numerator) : Int)

/-- The first grid point found when the grids are made finer `steps` times. -/
def Neighbourhood.firstHit (range : Neighbourhood) : (steps : Nat) → (exponent : Int) → Decimal
  | 0, exponent => ⟨range.nearest? exponent |>.getD 0, exponent⟩
  | steps + 1, exponent =>
    match range.nearest? exponent with
    | some digits => ⟨digits, exponent⟩
    | none => range.firstHit steps (exponent - 1)

/-- The shortest decimal numeral of `significand * 2 ^ power`, for a positive significand. Seventeen
digits always suffice. -/
def shortest (significand : Nat) (power : Int) : Decimal :=
  (neighbourhood significand power).firstHit 17 (leadingExponent significand power)

/-- The digits of a numeral without the zeros at its end, and how many places stand before the
decimal point. -/
def Decimal.places (d : Decimal) : List Char × Int :=
  let digits := Nat.toDigits 10 d.digits
  let kept := (digits.reverse.dropWhile (· = '0')).reverse
  (kept, digits.length + d.exponent)

/-- The exponent of scientific notation: a sign and at least two digits. -/
def exponentText (n : Int) : List Char :=
  let digits := Nat.toDigits 10 n.natAbs
  'e' :: (if n < 0 then '-' else '+') :: (if digits.length < 2 then '0' :: digits else digits)

/-- Lays out digits whose decimal point stands after `point` places. The positional form is used for
leading exponents from -4 to 15 and shows at least one place after the point; otherwise one digit
stands before the point and a power of ten follows. -/
def layout (digits : List Char) (point : Int) : List Char :=
  if -4 < point && point ≤ 16 then
    if point ≤ 0 then '0' :: '.' :: List.replicate (-point).toNat '0' ++ digits
    else
      let before := point.toNat
      let whole := digits.take before ++ List.replicate (before - digits.length) '0'
      let rest := digits.drop before
      whole ++ '.' :: (if rest.isEmpty then ['0'] else rest)
  else
    let rest := digits.drop 1
    digits.take 1 ++ (if rest.isEmpty then [] else '.' :: rest) ++ exponentText (point - 1)

/-- The text of a number: the shortest digits that read back, with its sign; zero keeps its sign. -/
def text (x : Binary64) : String :=
  let sign := if x.isNegative then "-" else ""
  match x.shape with
  | .undefined => "nan"
  | .infinite => sign ++ "inf"
  | .finite 0 _ => sign ++ "0.0"
  | .finite significand power =>
    let (digits, point) := (shortest significand power).places
    sign ++ String.ofList (layout digits point)

end LatexLogic.Binary64
