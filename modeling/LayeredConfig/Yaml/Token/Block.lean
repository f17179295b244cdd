import LayeredConfig.Yaml.Token.Basic

/-!
# Block scalars

A block scalar begins with `|` or `>`, perhaps a digit for its indentation and a sign for what
becomes of the line breaks at its end. Its lines follow, each without the indentation. Without a
digit the indentation is that of the first line that is not empty, or the most that an empty line
before it has. In a literal scalar the line breaks stay; in a folded one a line feed between two
lines that do not begin with a blank becomes a space.
-/

namespace LayeredConfig.Yaml

/-- What becomes of the line breaks at the end of a block scalar. -/
inductive Chomping where
  /-- All of them are dropped. -/
  | strip
  /-- The first one is kept. -/
  | clip
  /-- All of them are kept. -/
  | keep
  deriving DecidableEq

/-- The chomping that a sign stands for. -/
def chomping? (c : Char) : Option Chomping :=
  if c = '+' then some .keep else if c = '-' then some .strip else none

/-- The indentation that a digit stands for; zero is refused. -/
def increment? (c : Char) : Option (Option Nat) :=
  if Text.isDigit c then if c = '0' then none else some (some (c.toNat - '0'.toNat))
  else some none

/-- The indentation digit that a text begins with, if any, and the rest. -/
def readIncrement? : Text → Option (Option Nat × Text)
  | [] => some (none, [])
  | c :: rest =>
    (increment? c).map fun
      | some n => (some n, rest)
      | none => (none, c :: rest)

/-- The sign that a text begins with, if any, and the rest. -/
def readChomping : Text → Chomping × Text
  | [] => (.clip, [])
  | c :: rest =>
    match chomping? c with
    | some chomping => (chomping, rest)
    | none => (.clip, c :: rest)

/-- The sign and the digit after a block indicator, in either order, and the rest. -/
def blockMarks? : Text → Option (Chomping × Option Nat × Text)
  | [] => some (.clip, none, [])
  | c :: rest =>
    match chomping? c with
    | some chomping => (readIncrement? rest).map fun (n, rest) => (chomping, n, rest)
    | none =>
      (readIncrement? (c :: rest)).map fun
        | (some n, rest) =>
          let (chomping, rest) := readChomping rest
          (chomping, some n, rest)
        | (none, rest) => (.clip, none, rest)

/-- The sign and the digit after a block indicator and the first line after that of the
indicator. Only a comment may follow on the line of the indicator. -/
def blockHeader? (text : Text) : Option (Chomping × Option Nat × Text) := do
  let (chomping, increment, text) ← blockMarks? text
  let text := dropBlanksAndComment text
  if lineEnds text then some (chomping, increment, dropBreak text) else none

/-- The empty lines before a line of a block scalar. -/
structure EmptyLines where
  /-- Their line breaks. -/
  breaks : Text
  /-- The column on which the next line begins. -/
  column : Nat
  /-- The greatest column that was reached. -/
  widest : Nat
  /-- The text from that column on. -/
  rest : Text

/-- Passes over indentation and empty lines. An indentation that is not known yet takes all
spaces; a tab may not stand in for indentation. -/
def emptyLines (indent : Option Nat) :
    (column widest : Nat) → (breaks : Text) → Text → Option EmptyLines
  | column, widest, breaks, [] => some ⟨breaks, column, max widest column, []⟩
  | column, widest, breaks, '\r' :: '\n' :: rest =>
    emptyLines indent 0 (max widest column) (breaks ++ ['\n']) rest
  | column, widest, breaks, c :: rest =>
    let indenting := (indent.map fun n => decide (column < n)).getD true
    if c = ' ' ∧ indenting then emptyLines indent (column + 1) widest breaks rest
    else if c = '\t' ∧ indenting then none
    else if isBreak c then
      emptyLines indent 0 (max widest column) (breaks ++ [breakText c]) rest
    else some ⟨breaks, column, max widest column, c :: rest⟩

/-- A line of a block scalar. -/
structure BlockLine where
  /-- The line without its indentation. -/
  text : Text
  /-- The line break that ends it; the last line may have none. -/
  lineBreak : Text
  /-- The breaks of the empty lines after it. -/
  emptyAfter : Text

/-- The first line break of a text as it counts in a scalar, and the rest. -/
def takeBreak : Text → Text × Text
  | [] => ([], [])
  | c :: rest => ([breakText c], dropBreak (c :: rest))

/-- The lines of a block scalar from a line that begins on a column, and what follows them. Every
line takes at least one character, so the length of the text is fuel enough. -/
def blockLines (indent : Nat) :
    (fuel column : Nat) → Text → Option (List BlockLine × Text)
  | 0, _, rest => some ([], rest)
  | fuel + 1, column, rest =>
    if column = indent ∧ rest ≠ [] then do
      let text := rest.takeWhile fun c => !isBreak c
      let (lineBreak, rest) := takeBreak (rest.dropWhile fun c => !isBreak c)
      let empty ← emptyLines (some indent) 0 0 [] rest
      let (lines, after) ← blockLines indent fuel empty.column empty.rest
      return (⟨text, lineBreak, empty.breaks⟩ :: lines, after)
    else some ([], rest)

/-- Whether the line break between two lines of a folded scalar becomes a space, or nothing if
empty lines follow it. -/
def folds (lineBreak previous next : Text) : Bool :=
  lineBreak.head? = some '\n' && !startsBlank previous && !startsBlank next

/-- The text of a block scalar from a line on, after the previous line and the breaks between. -/
def blockTextFrom (folded : Bool) (chomping : Chomping) :
    (previous : BlockLine) → List BlockLine → Text
  | previous, [] =>
    match chomping with
    | .strip => []
    | .clip => previous.lineBreak
    | .keep => previous.lineBreak ++ previous.emptyAfter
  | previous, line :: lines =>
    let between :=
      if folded ∧ folds previous.lineBreak previous.text line.text then
        if previous.emptyAfter = [] then [' '] else previous.emptyAfter
      else previous.lineBreak ++ previous.emptyAfter
    between ++ line.text ++ blockTextFrom folded chomping line lines

/-- A block scalar after its indicator, and what follows it. The indentation counts from that of
the block around the scalar. -/
def blockScalar? (folded : Bool) (outer : Int) (text : Text) : Option (Text × Text) := do
  let (chomping, increment, text) ← blockHeader? text
  let given := increment.map fun n => if 0 ≤ outer then outer.toNat + n else n
  let empty ← emptyLines given 0 0 [] text
  let indent := given.getD (max (max empty.widest (outer + 1).toNat) 1)
  let (lines, rest) ← blockLines indent empty.rest.length empty.column empty.rest
  return (blockTextFrom folded chomping ⟨[], [], empty.breaks⟩ lines, rest)

end LayeredConfig.Yaml
