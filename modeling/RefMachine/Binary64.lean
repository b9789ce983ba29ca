/-!
# Floating-point numbers of 64 bits

What a bit pattern stands for, and its text: the shortest decimal that reads back as the same number, written without an
exponent.

A binary number stands for every real that is nearer to it than to its neighbours. Its shortest decimal is the one with
the fewest digits among those reals, and of two with equally few the nearer. All comparisons are exact.
-/

namespace RefMachine

/-- The number `digits * 10 ^ exponent`. -/
structure Decimal where
  digits : Nat
  exponent : Int
  deriving DecidableEq

/-- The reals that round to one binary number, as three multiples of one power of two: the ends and the number itself.
`closed` says whether the ends belong to it. -/
structure RoundingInterval where
  lower : Nat
  center : Nat
  upper : Nat
  exponent : Int
  closed : Bool

namespace RoundingInterval

/-- The interval of `mantissa * 2 ^ exponent`, in quarters of its last place. Numbers below a power of two stand twice
as close, unless `leastExponent` says that there are no smaller places. An end belongs to the even neighbour. -/
def around (mantissa : Nat) (exponent leastExponent : Int) (powerOfTwo : Bool) : RoundingInterval where
  lower := 4 * mantissa - if powerOfTwo && decide (leastExponent < exponent) then 1 else 2
  center := 4 * mantissa
  upper := 4 * mantissa + 2
  exponent := exponent - 2
  closed := mantissa % 2 == 0

/-- The multiple of `10 ^ exponent` in the interval that is nearest to its center; of two equally near ones, the
larger. Only the neighbours of the center have to be tried: if any multiple is in the interval, one of them is. -/
def multiple? (interval : RoundingInterval) (exponent : Int) : Option Nat :=
  let decimalUnit := Nat.pow 10 exponent.toNat * Nat.pow 2 (-interval.exponent).toNat
  let binaryUnit := Nat.pow 2 interval.exponent.toNat * Nat.pow 10 (-exponent).toNat
  let below := interval.center * binaryUnit / decimalUnit
  let contains (c : Nat) : Bool :=
    if interval.closed then
      interval.lower * binaryUnit ≤ c * decimalUnit ∧ c * decimalUnit ≤ interval.upper * binaryUnit
    else
      interval.lower * binaryUnit < c * decimalUnit ∧ c * decimalUnit < interval.upper * binaryUnit
  match contains below, contains (below + 1) with
  | false, false => none
  | true, false => some below
  | false, true => some (below + 1)
  | true, true =>
    if 2 * (interval.center * binaryUnit) < (2 * below + 1) * decimalUnit then some below else some (below + 1)

/-- The first multiple found when the powers of ten go down from `10 ^ largest` in `steps` steps. -/
def shortest? (interval : RoundingInterval) (largest : Int) (steps : Nat) : Option Decimal :=
  (List.range steps).findSome? fun (i : Nat) =>
    let exponent := largest - i
    (interval.multiple? exponent).map fun digits => ⟨digits, exponent⟩

end RoundingInterval

namespace Decimal

/-- Written without an exponent, and without a point when nothing follows it. -/
def positional (d : Decimal) : String :=
  if 0 ≤ d.exponent then
    toString (d.digits * Nat.pow 10 d.exponent.toNat)
  else
    let places := (-d.exponent).toNat
    let fraction := (Nat.toDigits 10 (d.digits % Nat.pow 10 places)).leftpad places '0'
    let kept := (fraction.reverse.dropWhile (· == '0')).reverse
    let whole := toString (d.digits / Nat.pow 10 places)
    if kept.isEmpty then whole else whole ++ "." ++ String.ofList kept

end Decimal

/-! ## Bit patterns and their texts -/

inductive Binary64 where
  | nan
  | infinity (negative : Bool)
  /-- The number `mantissa * 2 ^ exponent` under its sign. -/
  | finite (negative : Bool) (mantissa : Nat) (exponent : Int)
  deriving DecidableEq

namespace Binary64

/-- The exponent of the smallest place. -/
def leastExponent : Int := -1074

def ofBits (bits : UInt64) : Binary64 :=
  let negative := bits >>> 63 != 0
  let biased := ((bits >>> 52) &&& 0x7FF).toNat
  let fraction := (bits &&& 0xFFFFFFFFFFFFF).toNat
  if biased = 2047 then
    if fraction = 0 then infinity negative else nan
  else if biased = 0 then
    finite negative fraction leastExponent
  else
    finite negative (0x10000000000000 + fraction) (leastExponent + (biased - 1 : Nat))

/-- The shortest decimal of `mantissa * 2 ^ exponent`. Every finite number is below `10 ^ 309`, and every interval is
wider than `10 ^ (-324)`, so the search always ends with a decimal. -/
def shortest (mantissa : Nat) (exponent : Int) : Decimal :=
  let interval := RoundingInterval.around mantissa exponent leastExponent (mantissa == 0x10000000000000)
  (interval.shortest? 309 634).getD ⟨0, 0⟩

/-- Both zeros keep their sign; every pattern that is not a number has the same text. -/
def text : Binary64 → String
  | nan => "NaN"
  | infinity false => "inf"
  | infinity true => "-inf"
  | finite negative mantissa exponent =>
    let magnitude := if mantissa = 0 then "0" else (shortest mantissa exponent).positional
    if negative then "-" ++ magnitude else magnitude

end Binary64

end RefMachine
