import LayeredConfig.Yaml.Token.Basic

/-!
# Plain and quoted scalars

Both kinds of scalars run over words and the gaps between them, and in both line breaks are folded.
They differ in where they end and in what stands for itself.
-/

namespace LayeredConfig.Yaml

/-!
## Plain scalars

A plain scalar runs over words and the gaps between them. It ends before a colon that ends a
word, before a comment, before a document marker, before a line that is not indented enough, and
within brackets or braces before a bracket, a brace or a comma.
-/

/-- Whether a text begins with a character that may not follow a colon within brackets. -/
def startsFlowIndicator : Text → Bool
  | [] => false
  | c :: _ => isFlowIndicator c || c = '?'

/-- A plain scalar that has been read. -/
structure PlainScalar where
  text : Text
  /-- Whether line breaks were passed over after its last word. -/
  brokeOff : Bool
  rest : Text

/-- The scalar with characters in front. -/
def PlainScalar.prepend (front : Text) (scalar : PlainScalar) : PlainScalar :=
  { scalar with text := front ++ scalar.text }

/-- Whether a plain scalar ends before the character `c` that follows a gap. -/
def endsAfterGap (inFlow : Bool) (indent : Int) (column : Nat) (c : Char) (rest : Text) : Bool :=
  (!inFlow && (column : Int) < indent) || (column = 0 && atMarker (c :: rest)) || c = '#'

/-- Whether a plain scalar ends before the character `c`. -/
def endsPlain (inFlow : Bool) (c : Char) (rest : Text) : Bool :=
  (c = ':' && wordEnds rest) || (inFlow && isFlowIndicator c)

/-- The rest of a plain scalar after a gap. The indentation is the least column on which a line
of the scalar may begin. -/
def plainFrom (inFlow : Bool) (indent : Int) :
    (column : Nat) → (gap : Gap) → Text → Option PlainScalar
  | _, gap, [] => some ⟨[], gap.hasBreak, []⟩
  | _, gap, '\r' :: '\n' :: rest => plainFrom inFlow indent 0 (gap.addBreak '\n') rest
  | column, gap, c :: rest =>
    if isBreak c then plainFrom inFlow indent 0 (gap.addBreak c) rest
    else if isBlank c then
      if gap.hasBreak ∧ (column : Int) < indent ∧ c = '\t' then none
      else plainFrom inFlow indent (column + 1) (gap.addBlank c) rest
    else if !gap.isEmpty ∧ endsAfterGap inFlow indent column c rest then
      some ⟨[], gap.hasBreak, c :: rest⟩
    else if inFlow ∧ c = ':' ∧ startsFlowIndicator rest then none
    else if endsPlain inFlow c rest then some ⟨[], gap.hasBreak, c :: rest⟩
    else (plainFrom inFlow indent (column + 1) .empty rest).map (·.prepend (gap.text ++ [c]))

/-!
## Quoted scalars

Between single quotes only a doubled quote stands for something else than itself. Between double
quotes a backslash starts an escape. In both, the blanks around line breaks do not count and line
breaks are folded. A document marker may not begin a line of a quoted scalar.
-/

/-- The rest of a single-quoted scalar after a gap, and what follows its closing quote. -/
def singleQuotedFrom : (column : Nat) → (gap : Gap) → Text → Option (Text × Text)
  | _, _, [] => none
  | _, gap, '\r' :: '\n' :: rest => singleQuotedFrom 0 (gap.addBreak '\n') rest
  | column, gap, '\'' :: '\'' :: rest =>
    (singleQuotedFrom (column + 2) .empty rest).map fun (text, after) =>
      (gap.text ++ '\'' :: text, after)
  | column, gap, c :: rest =>
    if isBreak c then singleQuotedFrom 0 (gap.addBreak c) rest
    else if isBlank c then singleQuotedFrom (column + 1) (gap.addBlank c) rest
    else if column = 0 ∧ atMarker (c :: rest) then none
    else if c = '\'' then some (gap.text, rest)
    else
      (singleQuotedFrom (column + 1) .empty rest).map fun (text, after) =>
        (gap.text ++ c :: text, after)

/-- The character that a letter after a backslash stands for. -/
def escapedChar? (c : Char) : Option Char :=
  if c = '0' then some '\x00'
  else if c = 'a' then some '\x07'
  else if c = 'b' then some '\x08'
  else if c = 't' ∨ c = '\t' then some '\t'
  else if c = 'n' then some '\n'
  else if c = 'v' then some '\x0B'
  else if c = 'f' then some '\x0C'
  else if c = 'r' then some '\r'
  else if c = 'e' then some '\x1B'
  else if c = ' ' then some ' '
  else if c = '"' then some '"'
  else if c = '/' then some '/'
  else if c = '\\' then some '\\'
  else if c = 'N' then some '\u0085'
  else if c = '_' then some '\u00A0'
  else if c = 'L' then some '\u2028'
  else if c = 'P' then some '\u2029'
  else none

/-- The character whose number digits spell. -/
def numberedChar? (digits : Text) : Option Char := do
  let n ← Text.toNat? 16 digits
  if (0xD800 ≤ n ∧ n ≤ 0xDFFF) ∨ 0x10FFFF < n then none else some (Char.ofNat n)

/-- The rest of a double-quoted scalar after a gap, and what follows its closing quote. -/
def doubleQuotedFrom : (column : Nat) → (gap : Gap) → Text → Option (Text × Text)
  | _, _, [] => none
  | _, gap, '\r' :: '\n' :: rest => doubleQuotedFrom 0 (gap.addBreak '\n') rest
  | _, gap, '\\' :: '\r' :: '\n' :: rest =>
    (doubleQuotedFrom 0 (.escaped []) rest).map fun (text, after) => (gap.text ++ text, after)
  | column, gap, '\\' :: 'x' :: a :: b :: rest => do
    let c ← numberedChar? [a, b]
    let (text, after) ← doubleQuotedFrom (column + 4) .empty rest
    return (gap.text ++ c :: text, after)
  | column, gap, '\\' :: 'u' :: a :: b :: c :: d :: rest => do
    let c ← numberedChar? [a, b, c, d]
    let (text, after) ← doubleQuotedFrom (column + 6) .empty rest
    return (gap.text ++ c :: text, after)
  | column, gap, '\\' :: 'U' :: a :: b :: c :: d :: e :: f :: g :: h :: rest => do
    let c ← numberedChar? [a, b, c, d, e, f, g, h]
    let (text, after) ← doubleQuotedFrom (column + 10) .empty rest
    return (gap.text ++ c :: text, after)
  | column, gap, '\\' :: c :: rest =>
    if isBreak c then
      (doubleQuotedFrom 0 (.escaped []) rest).map fun (text, after) => (gap.text ++ text, after)
    else do
      let c ← escapedChar? c
      let (text, after) ← doubleQuotedFrom (column + 2) .empty rest
      return (gap.text ++ c :: text, after)
  | column, gap, c :: rest =>
    if isBreak c then doubleQuotedFrom 0 (gap.addBreak c) rest
    else if isBlank c then doubleQuotedFrom (column + 1) (gap.addBlank c) rest
    else if column = 0 ∧ atMarker (c :: rest) then none
    else if c = '"' then some (gap.text, rest)
    else if c = '\\' then none
    else
      (doubleQuotedFrom (column + 1) .empty rest).map fun (text, after) =>
        (gap.text ++ c :: text, after)

end LayeredConfig.Yaml
