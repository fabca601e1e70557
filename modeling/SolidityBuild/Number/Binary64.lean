/-!
# Binary floating-point numbers of 64 bits

Finite numbers of the form `± significand · 2 ^ exponent`, where the significand has at most 53 bits
and the exponent is at least -1074. A number has one form only: the significand has exactly 53 bits
unless the exponent is the least one. All arithmetic is exact; `nearest` rounds.
-/

namespace SolidityBuild

/-- A finite number `± significand · 2 ^ exponent`. -/
structure Binary64 where
  negative : Bool
  significand : Nat
  exponent : Int
deriving DecidableEq, Inhabited

namespace Binary64

/-- The number of bits of a significand. -/
def precision : Nat := 53

/-- The least exponent, that of the subnormal numbers. -/
def leastExponent : Int := -1074

/-- The greatest exponent; numbers beyond it are not finite. -/
def greatestExponent : Int := 971

def zero (negative : Bool) : Binary64 := ⟨negative, 0, leastExponent⟩

def isZero (x : Binary64) : Bool := x.significand = 0

/-- The fraction `num / den · 2 ^ exponent` as numerator and denominator. -/
def scaled (num den : Nat) (exponent : Int) : Nat × Nat :=
  if 0 ≤ exponent then (num * Nat.pow 2 exponent.toNat, den) else (num, den * Nat.pow 2 (-exponent).toNat)

/-- The whole number nearest to `num / den`, the even one of two equally near. -/
def roundEven (num den : Nat) : Nat :=
  let quotient := num / den
  let twice := 2 * (num % den)
  if twice < den then quotient
  else if den < twice then quotient + 1
  else if quotient % 2 = 0 then quotient else quotient + 1

/-- The number nearest to `num / den`, the one with the even significand of two equally near, or
nothing when the fraction is too large. -/
def nearest (num den : Nat) : Option Binary64 :=
  if num = 0 then some (zero false)
  else
    let low : Int := (num.log2 : Int) - den.log2 - precision
    let (n, d) := scaled num den (-low)
    let fitting := if d * Nat.pow 2 precision ≤ n then low + 1 else low
    let exponent := max fitting leastExponent
    let (n, d) := scaled num den (-exponent)
    let rounded := roundEven n d
    let (significand, exponent) :=
      if rounded = Nat.pow 2 precision then (Nat.pow 2 (precision - 1), exponent + 1) else (rounded, exponent)
    if greatestExponent < exponent then none else some ⟨false, significand, exponent⟩

/-- The number nearest to the product of two numbers without sign. -/
def mul (x y : Binary64) : Option Binary64 :=
  let (n, d) := scaled (x.significand * y.significand) 1 (x.exponent + y.exponent)
  nearest n d

/-- The number nearest to the quotient of two numbers without sign, the second not zero. -/
def div (x y : Binary64) : Option Binary64 :=
  let (n, d) := scaled x.significand y.significand (x.exponent - y.exponent)
  nearest n d

/-- The greatest power of ten that is a finite number. -/
def greatestPower : Nat := 308

/-- The number nearest to a power of ten. -/
def powerOfTen (k : Nat) : Option Binary64 := nearest (Nat.pow 10 k) 1

/-- The value of the literal `digits · 10 ^ exponent`: the digits are rounded, then multiplied or
divided by the rounded power of ten. Below the reach of one power a second division follows; what
two of them do not reach is zero. Nothing when the value is too large. -/
def ofLiteral (digits : Nat) (exponent : Int) : Option Binary64 := do
  let whole ← nearest digits 1
  if whole.isZero then return zero false
  if 0 ≤ exponent then
    if exponent.toNat ≤ greatestPower then whole.mul (← powerOfTen exponent.toNat) else none
  else
    let k := (-exponent).toNat
    if k ≤ greatestPower then whole.div (← powerOfTen k)
    else if k ≤ 2 * greatestPower then
      (← whole.div (← powerOfTen greatestPower)).div (← powerOfTen (k - greatestPower))
    else return zero false

def withSign (negative : Bool) (x : Binary64) : Binary64 := { x with negative }

end Binary64

end SolidityBuild
