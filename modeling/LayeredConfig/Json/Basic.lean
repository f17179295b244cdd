import LayeredConfig.Number.Shortest

/-!
# JSON values and their text

What is read from JSON and what is printed as JSON are different data: the members of an object
that has been read are in increasing order of their names, those of one that is printed in the
order in which they are given.
-/

namespace LayeredConfig.Json

/-!
## Values

The values of JSON, with the members of an object in increasing order of their names and each
name once.
-/

/-- A JSON value. -/
inductive Value where
  | null
  | bool (value : Bool)
  | number (value : Number)
  | string (text : Text)
  | array (items : List Value)
  | object (members : List (Text × Value))
  deriving Inhabited

/-- An object is the list of its members. -/
abbrev Members := Entries Value

/-- Floating-point numbers in JSON: up to four zeros after the point and up to sixteen digits
before it are written out, and a positive exponent has a plus sign. -/
def floatStyle : FloatStyle where
  mostLeadingZeros := 4
  mostPlaces := 16
  plusSign := true
  infinity := "null".toList
  notANumber := "null".toList

/-!
## Writing

Values are laid out with one item or member on a line and two spaces for each level; an empty
array or object stays on one line. In strings only quote, backslash and the characters below
U+0020 are escaped, the latter with their short escapes where they have one.

A `Layout` is what is printed: unlike a value it keeps its members in the order in which they
are given.
-/

/-- What is to be printed. -/
inductive Layout where
  | bool (value : Bool)
  | string (text : Text)
  | array (items : List Layout)
  | object (members : List (Text × Layout))
  deriving Inhabited

/-- One character inside a string. -/
def escape (c : Char) : Text :=
  if c = '"' then ['\\', '"']
  else if c = '\\' then ['\\', '\\']
  else if c = '\x08' then ['\\', 'b']
  else if c = '\x0C' then ['\\', 'f']
  else if c = '\n' then ['\\', 'n']
  else if c = '\r' then ['\\', 'r']
  else if c = '\t' then ['\\', 't']
  else if c.toNat < 0x20 then
    ['\\', 'u', '0', '0', Nat.digitChar (c.toNat / 16), Nat.digitChar (c.toNat % 16)]
  else [c]

/-- A string in quotes. -/
def printString (text : Text) : Text :=
  '"' :: text.flatMap escape ++ ['"']

/-- The end of a line and the spaces of a level. -/
def newline (level : Nat) : Text :=
  '\n' :: List.replicate (2 * level) ' '

mutual

/-- The text of a layout that begins on a line of a level. -/
def printAt (level : Nat) : Layout → Text
  | .bool true => "true".toList
  | .bool false => "false".toList
  | .string text => printString text
  | .array [] => ['[', ']']
  | .array (item :: items) =>
    '[' :: newline (level + 1) ++ printAt (level + 1) item ++ printItems (level + 1) items ++
      newline level ++ [']']
  | .object [] => ['{', '}']
  | .object ((name, value) :: members) =>
    '{' :: newline (level + 1) ++ printString name ++ [':', ' '] ++ printAt (level + 1) value ++
      printMembers (level + 1) members ++ newline level ++ ['}']

/-- The items of an array after the first one. -/
def printItems (level : Nat) : List Layout → Text
  | [] => []
  | item :: items => ',' :: newline level ++ printAt level item ++ printItems level items

/-- The members of an object after the first one. -/
def printMembers (level : Nat) : List (Text × Layout) → Text
  | [] => []
  | (name, value) :: members =>
    ',' :: newline level ++ printString name ++ [':', ' '] ++ printAt level value ++
      printMembers level members

end

/-- The text of a layout. -/
def print (layout : Layout) : Text :=
  printAt 0 layout

end LayeredConfig.Json
