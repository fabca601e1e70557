import SolidityBuild.Number.Binary64

/-!
# Shortest decimal form

The decimal form of a number has the fewest digits that still read back as the number, and of those
the digits nearest to it. Written out, it is positional with at least one digit after the point for
decimal exponents from -5 to 15 and scientific with a signed exponent elsewhere.
-/

namespace SolidityBuild

namespace Binary64

/-- Digits `d₁ d₂ …` and an exponent `k`, standing for `d₁ . d₂ … · 10 ^ k`. -/
structure Decimal where
  digits : List Char
  exponent : Int
deriving DecidableEq

/-- Exact bounds of the reals that round to a number, over one common denominator. -/
structure Interval where
  low : Nat
  value : Nat
  high : Nat
  denominator : Nat
  /-- Whether the bounds themselves round to the number. -/
  closed : Bool

/-- The reals that round to `x`: half way to its neighbours, where the lower neighbour of a power of
two is only half as far away. -/
def interval (x : Binary64) : Interval :=
  let narrow := x.significand = Nat.pow 2 (precision - 1) ∧ leastExponent < x.exponent
  let (unit, denominator) := scaled 1 4 x.exponent
  { low := (4 * x.significand - if narrow then 1 else 2) * unit
    value := 4 * x.significand * unit
    high := (4 * x.significand + 2) * unit
    denominator
    closed := x.significand % 2 = 0 }

/-- Whether `n · 10 ^ k` lies in an interval. -/
def Interval.contains (i : Interval) (n : Nat) (k : Int) : Bool :=
  let (left, right) :=
    if 0 ≤ k then (n * Nat.pow 10 k.toNat * i.denominator, 1) else (n * i.denominator, Nat.pow 10 (-k).toNat)
  if i.closed then i.low * right ≤ left && left ≤ i.high * right
  else i.low * right < left && left < i.high * right

/-- The exponent `k` with `10 ^ k ≤ num / den < 10 ^ (k + 1)`, for a positive fraction. -/
def decimalExponent (num den : Nat) : Int :=
  if den ≤ num then ((Nat.toDigits 10 (num / den)).length : Int) - 1
  else
    let k := (Nat.toDigits 10 (den / num)).length
    if den ≤ num * Nat.pow 10 (k - 1) then -((k : Int) - 1) else -(k : Int)

/-- The decimal with `count` digits that is nearest to the middle of an interval, if it or its
neighbour lies inside. -/
def Interval.candidate (i : Interval) (exponent : Int) (count : Nat) : Option Nat :=
  let grid := exponent - count + 1
  let (num, den) :=
    if 0 ≤ grid then (i.value, i.denominator * Nat.pow 10 grid.toNat)
    else (i.value * Nat.pow 10 (-grid).toNat, i.denominator)
  let below := num / den
  let near := roundEven num den
  let far := if near = below then below + 1 else below
  if i.contains near grid then some near else if i.contains far grid then some far else none

/-- The shortest decimal of a number other than zero; its sign is left to the caller. -/
def shortest (x : Binary64) : Decimal :=
  let i := x.interval
  let exponent := decimalExponent i.value i.denominator
  let found := (List.range 17).findSome? fun count =>
    (i.candidate exponent (count + 1)).map fun n => (n, count + 1)
  let (n, count) := found.getD (0, 1)
  let digits := Nat.toDigits 10 n
  ⟨digits, exponent + digits.length - count⟩

/-- The decimal exponents that are written positionally. -/
def positionalExponents : Int × Int := (-5, 15)

/-- A decimal with its point in place. -/
def Decimal.positional (d : Decimal) : List Char :=
  if d.exponent < 0 then
    ['0', '.'] ++ List.replicate ((-d.exponent).toNat - 1) '0' ++ d.digits
  else
    let whole := d.exponent.toNat + 1
    let fraction := d.digits.drop whole
    d.digits.take whole ++ List.replicate (whole - d.digits.length) '0' ++ ['.'] ++
      if fraction.isEmpty then ['0'] else fraction

/-- A decimal with one digit before the point and a signed exponent. -/
def Decimal.scientific (d : Decimal) : List Char :=
  let mantissa := match d.digits with
    | [] => []
    | [first] => [first]
    | first :: rest => first :: '.' :: rest
  mantissa ++ ['e', if d.exponent < 0 then '-' else '+'] ++ Nat.toDigits 10 d.exponent.natAbs

/-- The text of a number. -/
def text (x : Binary64) : String :=
  let magnitude :=
    if x.isZero then ['0', '.', '0']
    else
      let d := x.shortest
      -- Rounding up to a power of ten leaves zeros, which carry no information.
      let d := { d with digits := (d.digits.reverse.dropWhile (· == '0')).reverse }
      if positionalExponents.1 ≤ d.exponent && d.exponent ≤ positionalExponents.2 then d.positional
      else d.scientific
  String.ofList (if x.negative then '-' :: magnitude else magnitude)

end Binary64

end SolidityBuild
