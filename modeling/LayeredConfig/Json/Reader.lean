import LayeredConfig.Json.Basic

/-!
# Reading JSON

A strict reader: no comments, no trailing commas, no leading zeros, no raw control characters in
strings, and surrogates only in pairs. Arrays and objects may be nested 127 deep. Of two members
of one name the later one counts.
-/

namespace LayeredConfig.Json

/-- How deep arrays and objects may be nested. -/
def deepest : Nat := 127

/-- Whether a character may stand between the parts of a value. -/
def isBlank (c : Char) : Bool :=
  c = ' ' || c = '\t' || c = '\n' || c = '\r'

/-- The text without the blanks it begins with. -/
def skipBlanks (text : Text) : Text :=
  text.dropWhile isBlank

/-!
## Numerals

A numeral without fraction and exponent that fits 64 bits is an integer; every other numeral is a
floating-point number. The digits are gathered in a significand as long as it stays below 2 ^ 64.
Further digits before the point only raise the decimal exponent, further digits after it are
dropped. The significand is rounded, then scaled by a rounded power of ten and rounded again, so
the result can differ from the correctly rounded one in its last bit.
-/

/-- Gathers digits into a significand: the significand, the number of digits gathered, and the
rest, which begins with a digit only if that digit did not fit. -/
def gatherDigits : (significand count : Nat) → Text → Nat × Nat × Text
  | significand, count, [] => (significand, count, [])
  | significand, count, c :: rest =>
    let next := significand * 10 + (c.toNat - '0'.toNat)
    if Text.isDigit c ∧ next < twoTo 64 then gatherDigits next (count + 1) rest
    else (significand, count, c :: rest)

/-- A numeral that has been taken apart. -/
structure Numeral where
  negative : Bool
  significand : Nat
  /-- The power of ten from the digits around the point. -/
  scale : Int
  /-- Whether there were neither fraction nor exponent nor digits that did not fit. -/
  whole : Bool
  /-- The exponent as it is written. -/
  exponent : Int

/-- The digits before the point: the significand, the number of digits that did not fit, and the
rest. A zero stands alone. -/
def readWhole? : Text → Option (Nat × Nat × Text)
  | [] => none
  | '0' :: rest => if (rest.head?.map Text.isDigit).getD false then none else some (0, 0, rest)
  | c :: rest =>
    if Text.isDigit c then
      let (significand, _, after) := gatherDigits 0 0 (c :: rest)
      some (significand, (after.takeWhile Text.isDigit).length, after.dropWhile Text.isDigit)
    else none

/-- The digits after the point, if there is one: the significand, the number of digits gathered,
and the rest. -/
def readFraction? (significand : Nat) : Text → Option (Option (Nat × Nat) × Text)
  | '.' :: rest =>
    if (rest.head?.map Text.isDigit).getD false then
      let (significand, count, after) := gatherDigits significand 0 rest
      some (some (significand, count), after.dropWhile Text.isDigit)
    else none
  | rest => some (none, rest)

/-- The digits of an exponent. -/
def readExponentDigits? (negative : Bool) (rest : Text) : Option (Int × Text) :=
  match Text.toNat? 10 (rest.takeWhile Text.isDigit) with
  | some n => some (if negative then -(n : Int) else n, rest.dropWhile Text.isDigit)
  | none => none

/-- The exponent, if there is one, and the rest. -/
def readExponent? : Text → Option (Option Int × Text)
  | [] => some (none, [])
  | c :: rest =>
    if c = 'e' ∨ c = 'E' then
      match rest with
      | '+' :: digits => (readExponentDigits? false digits).map fun (n, r) => (some n, r)
      | '-' :: digits => (readExponentDigits? true digits).map fun (n, r) => (some n, r)
      | digits => (readExponentDigits? false digits).map fun (n, r) => (some n, r)
    else some (none, c :: rest)

/-- The numeral that a text begins with, and the rest. -/
def readNumeral? (text : Text) : Option (Numeral × Text) := do
  let (negative, text) := match text with
    | '-' :: rest => (true, rest)
    | rest => (false, rest)
  let (significand, dropped, text) ← readWhole? text
  let (fraction, text) ← readFraction? significand text
  let (exponent, text) ← readExponent? text
  let whole := dropped = 0 && fraction.isNone && exponent.isNone
  let (significand, places) := fraction.getD (significand, 0)
  return (⟨negative, significand, dropped - places, whole, exponent.getD 0⟩, text)

/-! ### The value of a numeral -/

/-- The greatest exponent of ten by which a single step scales. -/
def greatestStep : Nat := 308

/-- A magnitude times `10 ^ exponent`, in steps of at most `10 ^ 308`, each rounded. The fuel
bounds the number of steps down; as each of them divides by `10 ^ 308`, zero is reached after
three. -/
def scaleByTen? : (fuel : Nat) → Magnitude → (exponent : Int) → Option Magnitude
  | 0, _, _ => some Magnitude.zero
  | fuel + 1, m, exponent =>
    if exponent.natAbs ≤ greatestStep then do
      let power ← Magnitude.powerOfTen? exponent.natAbs
      if 0 ≤ exponent then m.mul? power else m.div? power
    else if m.significand = 0 then some m
    else if 0 ≤ exponent then none
    else do
      let power ← Magnitude.powerOfTen? greatestStep
      let smaller ← m.div? power
      scaleByTen? fuel smaller (exponent + greatestStep)

/-- The number that a numeral stands for, unless it is too large. A whole numeral below zero that
does not fit 64 bits, and negative zero, are floating-point numbers. -/
def Numeral.value? (numeral : Numeral) : Option Number :=
  if numeral.whole ∧ !numeral.negative then some (.integer numeral.significand)
  else if numeral.whole ∧ 0 < numeral.significand ∧ numeral.significand ≤ twoTo 63 then
    some (.integer (-(numeral.significand : Int)))
  else if twoTo 31 ≤ numeral.exponent.natAbs then
    if numeral.significand ≠ 0 ∧ 0 < numeral.exponent then none
    else some (.float (.finite numeral.negative .zero))
  else do
    let start ← Magnitude.round? numeral.significand 1
    let scaled ← scaleByTen? 8 start (numeral.scale + numeral.exponent)
    return .float (.finite numeral.negative scaled)

/-! ## Strings -/

/-- The number that four hexadecimal digits spell. -/
def fourDigits? (a b c d : Char) : Option Nat := do
  let a ← Text.digitValue? 16 a
  let b ← Text.digitValue? 16 b
  let c ← Text.digitValue? 16 c
  let d ← Text.digitValue? 16 d
  return ((a * 16 + b) * 16 + c) * 16 + d

/-- Whether a number is the first half of a surrogate pair. -/
def isHighSurrogate (n : Nat) : Bool :=
  0xD800 ≤ n && n < 0xDC00

/-- Whether a number is the second half of a surrogate pair. -/
def isLowSurrogate (n : Nat) : Bool :=
  0xDC00 ≤ n && n < 0xE000

/-- The character of a surrogate pair. -/
def pairChar (high low : Nat) : Char :=
  Char.ofNat (0x10000 + (high - 0xD800) * 0x400 + (low - 0xDC00))

/-- The character that a letter after a backslash stands for. -/
def escapeChar? (c : Char) : Option Char :=
  if c = '"' then some '"'
  else if c = '\\' then some '\\'
  else if c = '/' then some '/'
  else if c = 'b' then some '\x08'
  else if c = 'f' then some '\x0C'
  else if c = 'n' then some '\n'
  else if c = 'r' then some '\r'
  else if c = 't' then some '\t'
  else none

/-- A string after its opening quote, and what follows its closing quote. -/
def readString? : Text → Option (Text × Text)
  | [] => none
  | '"' :: rest => some ([], rest)
  | '\\' :: 'u' :: a :: b :: c :: d :: rest => do
    let n ← fourDigits? a b c d
    if isHighSurrogate n then
      match rest with
      | '\\' :: 'u' :: e :: f :: g :: h :: rest => do
        let m ← fourDigits? e f g h
        if isLowSurrogate m then
          let (text, after) ← readString? rest
          return (pairChar n m :: text, after)
        else none
      | _ => none
    else if isLowSurrogate n then none
    else do
      let (text, after) ← readString? rest
      return (Char.ofNat n :: text, after)
  | '\\' :: c :: rest => do
    let e ← escapeChar? c
    let (text, after) ← readString? rest
    return (e :: text, after)
  | c :: rest =>
    if c.toNat < 0x20 ∨ c = '\\' then none
    else do
      let (text, after) ← readString? rest
      return (c :: text, after)

/-! ## Values -/

/-- The literal that a text begins with, and the rest. -/
def readLiteral? (text : Text) : Option (Value × Text) :=
  match Text.dropStart? "null".toList text with
  | some rest => some (.null, rest)
  | none =>
    match Text.dropStart? "true".toList text with
    | some rest => some (.bool true, rest)
    | none => (Text.dropStart? "false".toList text).map fun rest => (.bool false, rest)

mutual

/-- The value that a text begins with, and the rest. The depth is how deep arrays and objects may
still be nested; the fuel bounds the number of steps. -/
def readValue? : (fuel depth : Nat) → Text → Option (Value × Text)
  | 0, _, _ => none
  | fuel + 1, depth, text =>
    match text with
    | '"' :: rest => (readString? rest).map fun (s, after) => (.string s, after)
    | '[' :: rest =>
      match depth with
      | 0 => none
      | depth + 1 =>
        match skipBlanks rest with
        | ']' :: after => some (.array [], after)
        | rest => (readItems? fuel depth rest).map fun (items, after) => (.array items, after)
    | '{' :: rest =>
      match depth with
      | 0 => none
      | depth + 1 =>
        match skipBlanks rest with
        | '}' :: after => some (.object [], after)
        | rest => (readMembers? fuel depth [] rest).map fun (ms, after) => (.object ms, after)
    | c :: rest =>
      if c = '-' ∨ Text.isDigit c then do
        let (numeral, after) ← readNumeral? (c :: rest)
        let number ← numeral.value?
        return (.number number, after)
      else readLiteral? (c :: rest)
    | [] => none

/-- The items of an array from its next item on, and what follows the closing bracket. -/
def readItems? : (fuel depth : Nat) → Text → Option (List Value × Text)
  | 0, _, _ => none
  | fuel + 1, depth, text => do
    let (item, rest) ← readValue? fuel depth text
    match skipBlanks rest with
    | ',' :: rest =>
      let (items, after) ← readItems? fuel depth (skipBlanks rest)
      return (item :: items, after)
    | ']' :: after => return ([item], after)
    | _ => none

/-- The members of an object from its next member on, added to those before it, and what follows
the closing brace. -/
def readMembers? : (fuel depth : Nat) → Members → Text → Option (Members × Text)
  | 0, _, _, _ => none
  | fuel + 1, depth, members, text =>
    match text with
    | '"' :: rest => do
      let (name, rest) ← readString? rest
      match skipBlanks rest with
      | ':' :: rest => do
        let (value, rest) ← readValue? fuel depth (skipBlanks rest)
        let members := Entries.insert name value members
        match skipBlanks rest with
        | ',' :: rest => readMembers? fuel depth members (skipBlanks rest)
        | '}' :: after => return (members, after)
        | _ => none
      | _ => none
    | _ => none

end

/-- The value that a whole text spells. Every step of the reader takes at least one character
or follows one that did, so twice the length of the text is fuel enough. -/
def read? (text : Text) : Option Value := do
  let (value, rest) ← readValue? (2 * text.length + 2) deepest (skipBlanks text)
  if skipBlanks rest = [] then some value else none

end LayeredConfig.Json
