import LayeredConfig.Number.Shortest
import LayeredConfig.Text.Encoding
import LayeredConfig.Text.Quoted

/-!
# YAML values

The values that a YAML document can hold. Two keys of a mapping are the same when they are the
same value; the order of pairs in a mapping that is itself a key does not count.
-/

namespace LayeredConfig.Yaml

/-- A YAML value. -/
inductive Value where
  | null
  | bool (value : Bool)
  | number (value : Number)
  | string (text : Text)
  | sequence (items : List Value)
  | mapping (pairs : List (Value × Value))
  /-- A value with a local tag, which is given without its exclamation mark. -/
  | tagged (tag : Text) (value : Value)
  deriving Inhabited

/-- Floating-point numbers in YAML: up to four zeros after the point and up to sixteen digits
before it are written out, and exponents have no plus sign. -/
def floatStyle : FloatStyle where
  mostLeadingZeros := 4
  mostPlaces := 16
  plusSign := false
  infinity := ".inf".toList
  notANumber := ".nan".toList

namespace Value

/-- The name of a local tag: a second exclamation mark at its beginning does not count. -/
def tagName : Text → Text
  | '!' :: c :: rest => c :: rest
  | tag => tag

mutual

/-- Whether two values are the same as keys. -/
def same : Value → Value → Bool
  | .null, .null => true
  | .bool a, .bool b => a = b
  | .number a, .number b => Number.sameKey a b
  | .string a, .string b => decide (a = b)
  | .sequence a, .sequence b => sameItems a b
  | .mapping a, .mapping b => a.length = b.length && includesAll a b
  | .tagged t a, .tagged u b => decide (tagName t = tagName u) && same a b
  | _, _ => false

/-- Whether two lists of values are the same item by item. -/
def sameItems : List Value → List Value → Bool
  | [], [] => true
  | a :: as, b :: bs => same a b && sameItems as bs
  | _, _ => false

/-- Whether every pair of the first list is in the second. -/
def includesAll : List (Value × Value) → List (Value × Value) → Bool
  | [], _ => true
  | (key, value) :: rest, pairs =>
    pairs.any (fun (k, v) => same key k && same value v) && includesAll rest pairs

end

/-! ## Showing a value in a message -/

/-- The text of a truth value. -/
def boolText : Bool → Text
  | true => "true".toList
  | false => "false".toList

mutual

/-- A value as messages show it. -/
def shown : Value → Text
  | .null => "Null".toList
  | .bool value => "Bool(".toList ++ boolText value ++ [')']
  | .number value => "Number(".toList ++ value.text floatStyle ++ [')']
  | .string text => "String(".toList ++ Text.quote text ++ [')']
  | .sequence items => "Sequence [".toList ++ shownItems items ++ [']']
  | .mapping pairs => "Mapping ".toList ++ '{' :: shownPairs pairs ++ ['}']
  | .tagged tag value =>
    "TaggedValue ".toList ++ ['{', ' '] ++ "tag: !".toList ++ tagName tag ++
      ", value: ".toList ++ shown value ++ [' ', '}']

/-- Values with commas between them. -/
def shownItems : List Value → Text
  | [] => []
  | [item] => shown item
  | item :: next :: items => shown item ++ [',', ' '] ++ shownItems (next :: items)

/-- A key of a mapping, which is shown without the name of its kind if it is simple. -/
def shownKey : Value → Text
  | .bool value => boolText value
  | .number value => value.text floatStyle
  | .string text => Text.quote text
  | .null => "Null".toList
  | .sequence items => "Sequence [".toList ++ shownItems items ++ [']']
  | .mapping pairs => "Mapping ".toList ++ '{' :: shownPairs pairs ++ ['}']
  | .tagged tag value =>
    "TaggedValue ".toList ++ ['{', ' '] ++ "tag: !".toList ++ tagName tag ++
      ", value: ".toList ++ shown value ++ [' ', '}']

/-- Pairs with commas between them. -/
def shownPairs : List (Value × Value) → Text
  | [] => []
  | [(key, value)] => shownKey key ++ [':', ' '] ++ shown value
  | (key, value) :: next :: pairs =>
    shownKey key ++ [':', ' '] ++ shown value ++ [',', ' '] ++ shownPairs (next :: pairs)

end

end Value

/-!
## What a plain scalar is

A plain scalar is a null, a truth value, an integer, a floating-point number or else a string, by
its spelling alone. Integers are decimal, or hexadecimal, octal or binary behind `0x`, `0o` or
`0b`, with a sign in front. Several digits that begin with a zero are a string. An integer needs
at most 64 bits; a longer one is refused up to 128 bits and a floating-point number beyond.
-/

/-- Whether a text is one of several words. -/
def isWord (words : List String) (text : Text) : Bool :=
  words.any fun word => word.toList = text

/-- Whether a text spells null. -/
def isNull (text : Text) : Bool :=
  isWord ["null", "Null", "NULL", "~"] text

/-- The truth value that a text spells. -/
def bool? (text : Text) : Option Bool :=
  if isWord ["true", "True", "TRUE"] text then some true
  else if isWord ["false", "False", "FALSE"] text then some false
  else none

/-- A text without one sign at its beginning. -/
def dropSign : Text → Text
  | '+' :: rest => rest
  | '-' :: rest => rest
  | text => text

/-- A text without one plus sign at its beginning. -/
def dropPlus : Text → Text
  | '+' :: rest => rest
  | text => text

/-- Whether a text is several digits that begin with a zero, perhaps behind a sign. -/
def isPadded (text : Text) : Bool :=
  match dropSign text with
  | '0' :: c :: rest => (c :: rest).all Text.isDigit
  | _ => false

/-! ### Integers -/

/-- The number that a text spells behind the mark of a base. -/
def basedNat? : Text → Option Nat
  | '0' :: 'x' :: digits => Text.toNat? 16 digits
  | '0' :: 'o' :: digits => Text.toNat? 8 digits
  | '0' :: 'b' :: digits => Text.toNat? 2 digits
  | _ => none

/-- The number that a text spells without a sign. -/
def unsignedNat? (text : Text) : Option Nat :=
  match basedNat? text with
  | some n => some n
  | none => if isPadded text then none else Text.toNat? 10 text

/-- The integer that a text spells. -/
def integer? : Text → Option Int
  | '-' :: rest => (unsignedNat? rest).map fun n => -(n : Int)
  | text => (unsignedNat? (dropPlus text)).map fun n => (n : Int)

/-- Whether an integer fits 64 bits, with a sign bit only if it is negative. -/
def fitsWord (n : Int) : Bool :=
  -(twoTo 63 : Int) ≤ n && n < (twoTo 64 : Int)

/-- Whether an integer fits 128 bits, with a sign bit only if it is negative. -/
def fitsDoubleWord (n : Int) : Bool :=
  -(twoTo 127 : Int) ≤ n && n < (twoTo 128 : Int)

/-! ### Floating-point numbers -/

/-- A decimal numeral: digits, a power of ten for the last of them, and what follows. -/
structure DecimalText where
  digits : Text
  scale : Int
  rest : Text

/-- The digits around the point of a numeral, of which there is at least one. -/
def decimalText? (text : Text) : Option DecimalText :=
  let whole := text.takeWhile Text.isDigit
  let found : DecimalText :=
    match text.dropWhile Text.isDigit with
    | '.' :: rest =>
      let fraction := rest.takeWhile Text.isDigit
      ⟨whole ++ fraction, -(fraction.length : Int), rest.dropWhile Text.isDigit⟩
    | rest => ⟨whole, 0, rest⟩
  if found.digits = [] then none else some found

/-- The exponent that a whole text spells; no text is exponent zero. -/
def exponentText? : Text → Option Int
  | [] => some 0
  | c :: rest =>
    if c = 'e' ∨ c = 'E' then
      match rest with
      | '-' :: digits => (Text.toNat? 10 digits).map fun n => -(n : Int)
      | digits => (Text.toNat? 10 (dropPlus digits)).map fun n => (n : Int)
    else none

/-- The decimal place, counted from the point, from which on a number is too large. -/
def largestPlace : Int := 310

/-- The decimal place, counted from the point, below which a number is rounded to zero. -/
def smallestPlace : Int := -330

/-- The magnitude nearest to `digits * 10 ^ scale`, unless it is too large. Digits far away from
the point decide alone. -/
def decimalMagnitude? (digits : Nat) (scale : Int) : Option Magnitude :=
  let places := scale + ((Nat.toDigits 10 digits).length : Int)
  if digits = 0 then some .zero
  else if largestPlace < places then none
  else if places < smallestPlace then some .zero
  else if 0 ≤ scale then Magnitude.round? (digits * tenTo scale.toNat) 1
  else Magnitude.round? digits (tenTo (-scale).toNat)

/-- The finite number that a text spells without a sign. -/
def decimal? (text : Text) : Option Magnitude := do
  let found ← decimalText? text
  let exponent ← exponentText? found.rest
  let digits ← Text.toNat? 10 found.digits
  decimalMagnitude? digits (found.scale + exponent)

/-- Whether a text spells infinity without a sign. -/
def isInfinity (text : Text) : Bool :=
  isWord [".inf", ".Inf", ".INF"] text

/-- The floating-point number that a text spells. -/
def float? (text : Text) : Option Binary64 :=
  if isInfinity (dropPlus text) then some (.infinite false)
  else if isWord [".nan", ".NaN", ".NAN"] text then some .nan
  else
    match text with
    | '-' :: rest =>
      if isInfinity rest then some (.infinite true)
      else (decimal? rest).map (Binary64.finite true)
    | _ => (decimal? (dropPlus text)).map (Binary64.finite false)

/-! ### The kind of a scalar -/

/-- What a plain scalar is, unless it is an integer that is refused. -/
def plainValue? (text : Text) : Option Value :=
  if text = [] ∨ isNull text then some .null
  else
    match bool? text with
    | some b => some (.bool b)
    | none =>
      match (integer? text).filter fitsDoubleWord with
      | some n => if fitsWord n then some (.number (.integer n)) else none
      | none =>
        if isPadded text then some (.string text)
        else
          match float? text with
          | some x => some (.number (.float x))
          | none => some (.string text)

/-- What a scalar is that says nothing about its kind: only a plain one is more than a string. -/
def scalarValue? (plain : Bool) (text : Text) : Option Value :=
  if plain then plainValue? text else some (.string text)

/-- The octets of the tag for one of the kinds that the language knows. -/
def coreTag (name : String) : Bytes :=
  Utf8.encode ("tag:yaml.org,2002:".toList ++ name.toList)

/-- What a scalar with a tag that is not local is. The tags of the kinds of plain scalars demand
that kind, every other tag makes a string. -/
def taggedScalar? (tag : Bytes) (plain : Bool) (text : Text) : Option Value :=
  if tag = coreTag "bool" then (bool? text).map Value.bool
  else if tag = coreTag "int" then
    ((integer? text).filter fitsWord).map fun n => .number (.integer n)
  else if tag = coreTag "float" then (float? text).map fun x => .number (.float x)
  else if tag = coreTag "null" then if isNull text then some .null else none
  else if plain ∧ tag.head? = some 0x21 then plainValue? text
  else some (.string text)

end LayeredConfig.Yaml
