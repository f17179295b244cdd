import LayeredConfig.Number.Binary64
import LayeredConfig.Text.Basic

/-!
# Shortest decimals

A floating-point number is written with the fewest decimal digits that read back as the same
number, and with those nearest to it among them, of two equally near ones the even one. For one
digit, two digits and so on, the two neighbours of the number on that decimal grid are tested
against the interval of all reals that round to it; the first grid with a hit wins. The ends of
the interval belong to it when the significand is even. Seventeen digits always suffice.

Where the point is put, and from where on an exponent is written, is the choice of a format and
is given by a `FloatStyle`.
-/

namespace LayeredConfig

/-- A decimal `digits * 10 ^ exponent`. -/
structure Decimal where
  digits : Nat
  exponent : Int
  deriving DecidableEq

namespace Magnitude

/-- The two factors that bring a multiple of `10 ^ unit` and a multiple of `2 ^ exponent` to one
scale. -/
def scales (unit exponent : Int) : Nat × Nat :=
  (tenTo unit.toNat * twoTo (-exponent).toNat, twoTo exponent.toNat * tenTo (-unit).toNat)

/-- The number of decimal digits before the point; zero or negative when the number is below
one tenth. -/
def pointPosition (m : Magnitude) : Int :=
  let guess := ((m.significand.log2 + m.exponent) * 30103).fdiv 100000
  let below (k : Int) : Bool :=
    let (ten, two) := scales k m.exponent
    m.significand * two < ten
  if below guess then guess else if below (guess + 1) then guess + 1 else guess + 2

/-- The hit on the grid of the multiples of `10 ^ unit`, the nearer one of two. -/
def hit? (m : Magnitude) (unit : Int) : Option Nat :=
  let (ten, two) := scales unit (m.exponent - 2)
  let centre := 4 * m.significand * two
  let gapBelow := if m.significand = twoTo 52 ∧ leastExponent < m.exponent then 1 else 2
  let low := (4 * m.significand - gapBelow) * two
  let high := (4 * m.significand + 2) * two
  let inside (n : Nat) : Bool :=
    if m.significand % 2 = 0 then low ≤ n * ten && n * ten ≤ high
    else low < n * ten && n * ten < high
  let floor := centre / ten
  match inside floor, inside (floor + 1) with
  | true, true => some (divideToEven centre ten)
  | true, false => some floor
  | false, true => some (floor + 1)
  | false, false => none

/-- The first hit, trying up to `tries` more digits from `digits` digits on. -/
def shortestFrom (m : Magnitude) (point : Int) : (tries digits : Nat) → Decimal
  | 0, _ => ⟨m.significand, 0⟩
  | tries + 1, digits =>
    match hit? m (point - digits) with
    | some n => ⟨n, point - digits⟩
    | none => shortestFrom m point tries (digits + 1)

/-- The shortest decimal of a magnitude. -/
def shortest (m : Magnitude) : Decimal :=
  if m.significand = 0 then ⟨0, 0⟩ else shortestFrom m m.pointPosition 17 1

end Magnitude

/-! ## Writing -/

/-- How a format writes a floating-point number. -/
structure FloatStyle where
  /-- The number of zeros after the point up to which no exponent is written. -/
  mostLeadingZeros : Nat
  /-- The number of digits before the point up to which no exponent is written. -/
  mostPlaces : Nat
  /-- Whether a positive exponent has a plus sign. -/
  plusSign : Bool
  /-- The words for infinity without its sign and for what is not a number. -/
  infinity : Text
  notANumber : Text

namespace FloatStyle

/-- Digits with the point after the first `point` of them; there is at least one digit on either
side of the point. -/
def positional (digits : Text) (point : Int) : Text :=
  if point ≤ 0 then ['0', '.'] ++ List.replicate (-point).toNat '0' ++ digits
  else
    let places := point.toNat
    if digits.length ≤ places then
      digits ++ List.replicate (places - digits.length) '0' ++ ['.', '0']
    else digits.take places ++ '.' :: digits.drop places

/-- Digits with the point after the first of them and an exponent. -/
def exponential (style : FloatStyle) (digits : Text) (point : Int) : Text :=
  let fraction := digits.drop 1
  let sign := if 0 < point - 1 ∧ style.plusSign then ['+'] else []
  digits.take 1 ++ (if fraction = [] then [] else '.' :: fraction) ++
    'e' :: sign ++ Text.ofInt (point - 1)

/-- The text of a finite number without its sign. -/
def magnitudeText (style : FloatStyle) (m : Magnitude) : Text :=
  let decimal := m.shortest
  if decimal.digits = 0 then ['0', '.', '0']
  else
    let written := Text.ofNat decimal.digits
    let point := decimal.exponent + written.length
    let digits := Text.trimEnd (· = '0') written
    if -point ≤ style.mostLeadingZeros ∧ point ≤ style.mostPlaces then positional digits point
    else style.exponential digits point

/-- The text of a floating-point number. -/
def text (style : FloatStyle) : Binary64 → Text
  | .finite negative m => (if negative then ['-'] else []) ++ style.magnitudeText m
  | .infinite negative => (if negative then ['-'] else []) ++ style.infinity
  | .nan => style.notANumber

end FloatStyle

/-- The text of a number in a format. -/
def Number.text (style : FloatStyle) : Number → Text
  | .integer value => Text.ofInt value
  | .float value => style.text value

end LayeredConfig
