import ClassFile.Decimal.Binary
/-!
# Shortest decimal text of a floating-point number

A number is printed with the fewest significant digits that still tell it apart from its
neighbours, and of the decimals with that many digits with the nearest one. `m * 2 ^ q` is told apart
by every decimal inside the interval of reals that round to it; the interval has its two ends
exactly when the significand is even.

§1 finds the digits in exact integer arithmetic: for one, two, … digits it tests the two neighbours
of the value on the grid of decimals with that many digits. If any point of a grid lies in the
interval, one of those two does. §2 lays the digits out.
-/

namespace ClassFile.Decimal

/-! ## §1  Digits -/

/-- A power of ten. -/
def powerOfTen (n : Nat) : Nat := Nat.pow 10 n

/-- The interval of reals that read back as one number, all over one denominator. -/
structure Interval where
  low : Nat
  value : Nat
  high : Nat
  denominator : Nat
  closed : Bool

/-- The rounding interval of `significand * 2 ^ exponent`. All is scaled by four, because below a power of
two the neighbour is a quarter of the last place away from the middle. -/
def Interval.of (significand : Nat) (exponent : Int) (atPowerOfTwo : Bool) : Interval :=
  let scale := powerOfTwo exponent.toNat
  { low := (4 * significand - if atPowerOfTwo then 1 else 2) * scale
    value := 4 * significand * scale
    high := (4 * significand + 2) * scale
    denominator := 4 * powerOfTwo (-exponent).toNat
    closed := significand % 2 == 0 }

/-- `digits * 10 ^ place`. -/
structure Scaled where
  digits : Nat
  place : Int
deriving DecidableEq

/-- `digits * 10 ^ place` against `numerator / denominator`. -/
def Scaled.compareTo (d : Scaled) (numerator denominator : Nat) : Ordering :=
  compare (d.digits * powerOfTen d.place.toNat * denominator)
    (numerator * powerOfTen (-d.place).toNat)

/-- The decimal reads back as the number of the interval. -/
def Interval.contains (i : Interval) (d : Scaled) : Bool :=
  match d.compareTo i.low i.denominator, d.compareTo i.high i.denominator with
  | .gt, .lt => true
  | .eq, _ => i.closed
  | _, .eq => i.closed
  | _, _ => false

/-- How many digits the value has before the point, counted negatively by the zeros that follow the point
when there are none: `10 ^ (k - 1) ≤ value < 10 ^ k`. -/
def Interval.magnitude (i : Interval) : Int :=
  let whole := i.value / i.denominator
  if whole != 0 then (Nat.toDigits 10 whole).length
  else 1 - leadingZeros 400 i.value
where
  /-- Times ten until the value reaches one. -/
  leadingZeros : Nat → Nat → Nat
    | 0, _ => 0
    | fuel + 1, v => if i.denominator ≤ v then 0 else leadingZeros fuel (10 * v) + 1

/-- The nearest decimal that reads back, of those with one digit at `place` and none after it. A tie goes
up. -/
def Interval.nearestAt (i : Interval) (place : Int) : Option Scaled :=
  let numerator := i.value * powerOfTen (-place).toNat
  let unit := i.denominator * powerOfTen place.toNat
  let down : Scaled := ⟨numerator / unit, place⟩
  let up : Scaled := ⟨numerator / unit + 1, place⟩
  match i.contains down, i.contains up with
  | true, true => some (if 2 * (numerator % unit) < unit then down else up)
  | true, false => some down
  | false, true => some up
  | false, false => none

/-- The first grid with a decimal that reads back; twenty digits are more than any format needs. -/
def Interval.shortest (i : Interval) : Scaled :=
  go 20 (i.magnitude - 1)
where
  /-- One more digit on every step. -/
  go : Nat → Int → Scaled
    | 0, place => ⟨0, place⟩
    | fuel + 1, place =>
        match i.nearestAt place with
        | some d => d
        | none => go fuel (place - 1)

/-! ## §2  Text -/

/-- The digits of a decimal without the zeros at its end. -/
def Scaled.significant (d : Scaled) : List Char :=
  ((Nat.toDigits 10 d.digits).reverse.dropWhile (· == '0')).reverse

/-- How many digits stand before the point. -/
def Scaled.pointAfter (d : Scaled) : Int :=
  (Nat.toDigits 10 d.digits).length + d.place

/-- Digits with a point after the first `point` of them, zeros filling up on either side, and at least
one digit on both sides. -/
def positional (digits : List Char) (point : Int) : List Char :=
  if point ≤ 0 then
    '0' :: '.' :: List.replicate (-point).toNat '0' ++ digits
  else
    let places := point.toNat
    let padded := digits ++ List.replicate (places - digits.length) '0'
    let fraction := padded.drop places
    padded.take places ++ '.' :: (if fraction.isEmpty then ['0'] else fraction)

/-- One digit, the others after a point, and the power of ten. -/
def scientific (digits : List Char) (point : Int) : List Char :=
  let mantissa :=
    match digits with
    | [] => []
    | [d] => [d]
    | d :: more => d :: '.' :: more
  mantissa ++ 'e' :: (toString (point - 1)).toList

/-- Positional from `0.0001` to below `10 ^ 16`, scientific outside. -/
def magnitudeText (d : Scaled) : List Char :=
  let point := d.pointAfter
  if point < -3 || 16 < point then scientific d.significant point
  else positional d.significant point

/-- The shortest text of a word of the format that reads back as the same number. -/
def Format.text (f : Format) (word : Nat) : String :=
  match f.decode word with
  | .nan => "NaN"
  | .infinite negative => if negative then "-inf" else "inf"
  | .finite negative significand exponent atPowerOfTwo =>
      let magnitude :=
        if significand == 0 then ['0', '.', '0']
        else magnitudeText (Interval.of significand exponent atPowerOfTwo).shortest
      String.ofList (if negative then '-' :: magnitude else magnitude)

end ClassFile.Decimal
