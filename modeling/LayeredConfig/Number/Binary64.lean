/-!
# Binary floating-point numbers

The 64-bit floating-point numbers as exact values. A magnitude is a significand below 2 ^ 53 times
a power of two whose exponent is at least -1074. Rounding takes a ratio of naturals to the nearest
magnitude, of two equally near ones to the one with an even significand, and finds none where the
nearest one would be beyond the largest finite number. All arithmetic here is on integers.
-/

namespace LayeredConfig

/-! ## Powers of two and of ten -/

/-- Two to a power. -/
def twoTo (n : Nat) : Nat :=
  Nat.pow 2 n

/-- Ten to a power. -/
def tenTo (n : Nat) : Nat :=
  Nat.pow 10 n

/-! ## Numbers -/

/-- The finite number `significand * 2 ^ exponent`. -/
structure Magnitude where
  significand : Nat
  exponent : Int
  deriving DecidableEq

namespace Magnitude

/-- The least exponent of a magnitude. -/
def leastExponent : Int := -1074

/-- The greatest exponent of a magnitude. -/
def greatestExponent : Int := 971

/-- Zero. -/
def zero : Magnitude := ⟨0, leastExponent⟩

/-- `n * 2 ^ e` as numerator and denominator. -/
def scaled (n : Nat) (e : Int) : Nat × Nat :=
  if 0 ≤ e then (n * twoTo e.toNat, 1) else (n, twoTo (-e).toNat)

/-- The quotient rounded to the nearest natural, a half to the even one. -/
def divideToEven (num den : Nat) : Nat :=
  let quotient := num / den
  let twice := 2 * (num % den)
  if den < twice ∨ (twice = den ∧ quotient % 2 = 1) then quotient + 1 else quotient

/-- The significand of a ratio for an exponent, not yet rounded, as numerator and denominator. -/
def atExponent (num den : Nat) (exponent : Int) : Nat × Nat :=
  if 0 ≤ exponent then (num, den * twoTo exponent.toNat) else (num * twoTo (-exponent).toNat, den)

/-- The exponent for which the significand of a ratio has 53 binary digits, or the least one. -/
def exponentOf (num den : Nat) : Int :=
  let guess := max ((num.log2 : Int) - den.log2 - 53) leastExponent
  let (n, d) := atExponent num den guess
  if twoTo 53 ≤ n / d then guess + 1 else guess

/-- The magnitude nearest to a ratio, unless it is too large. -/
def round? (num den : Nat) : Option Magnitude :=
  if num = 0 then some zero
  else
    let exponent := exponentOf num den
    let (n, d) := atExponent num den exponent
    let significand := divideToEven n d
    let rounded : Magnitude :=
      if significand = twoTo 53 then ⟨twoTo 52, exponent + 1⟩ else ⟨significand, exponent⟩
    if rounded.exponent ≤ greatestExponent then some rounded else none

/-- The magnitude as numerator and denominator. -/
def ratio (m : Magnitude) : Nat × Nat :=
  scaled m.significand m.exponent

/-- The product, rounded. -/
def mul? (a b : Magnitude) : Option Magnitude :=
  round? (a.ratio.1 * b.ratio.1) (a.ratio.2 * b.ratio.2)

/-- The quotient by a number that is not zero, rounded. -/
def div? (a b : Magnitude) : Option Magnitude :=
  round? (a.ratio.1 * b.ratio.2) (a.ratio.2 * b.ratio.1)

/-- The magnitude nearest to a power of ten. -/
def powerOfTen? (n : Nat) : Option Magnitude :=
  round? (tenTo n) 1

/-- Magnitudes are equal as numbers; two spellings of a number occur only for zero. -/
def sameNumber (a b : Magnitude) : Bool :=
  a = b || (a.significand = 0 && b.significand = 0)

end Magnitude

/-- A floating-point number. -/
inductive Binary64 where
  | finite (negative : Bool) (magnitude : Magnitude)
  | infinite (negative : Bool)
  | nan
  deriving DecidableEq

/-- A number in a model file. -/
inductive Number where
  | integer (value : Int)
  | float (value : Binary64)
  deriving DecidableEq

namespace Number

/-- Whether two numbers are equal as keys: an integer is never equal to a floating-point number,
zero is equal to negative zero, and what is not a number is equal to itself. -/
def sameKey : Number → Number → Bool
  | .integer a, .integer b => a = b
  | .float (.finite s a), .float (.finite t b) =>
    Magnitude.sameNumber a b && (s = t || a.significand = 0)
  | .float (.infinite s), .float (.infinite t) => s = t
  | .float .nan, .float .nan => true
  | _, _ => false

end Number

end LayeredConfig
