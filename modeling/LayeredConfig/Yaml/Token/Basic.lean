import LayeredConfig.Text.Encoding

/-!
# Characters and tokens of YAML

What the readers of the single tokens share: the classes of characters that a YAML text is made
of, the tokens, and the gaps between the words of a scalar.
-/

namespace LayeredConfig.Yaml

/-!
## Characters

The classes of characters that the structure of a YAML text depends on. Besides line feed and
carriage return, the characters U+0085, U+2028 and U+2029 end a line. A word ends before a blank,
before a line break and at the end of the text.
-/

/-- Whether a character may occur in a YAML text at all. -/
def isAllowed (c : Char) : Bool :=
  let n := c.toNat
  n == 0x09 || n == 0x0A || n == 0x0D || (0x20 ≤ n && n ≤ 0x7E) || n == 0x85 ||
    (0xA0 ≤ n && n ≤ 0xD7FF) || (0xE000 ≤ n && n ≤ 0xFFFD) || 0x10000 ≤ n

/-- Whether a character ends a line. -/
def isBreak (c : Char) : Bool :=
  c = '\n' || c = '\r' || c = '\u0085' || c = '\u2028' || c = '\u2029'

/-- What a line break counts as in a scalar: the two separators of U+2028 and U+2029 are kept,
every other break is a line feed. -/
def breakText (c : Char) : Char :=
  if c = '\u2028' ∨ c = '\u2029' then c else '\n'

/-- Whether a character is a space or a tab. -/
def isBlank (c : Char) : Bool :=
  c = ' ' || c = '\t'

/-- Whether a character is a space, a tab or a line break. -/
def isSpace (c : Char) : Bool :=
  isBlank c || isBreak c

/-- Whether a character is a bracket, a brace or a comma. -/
def isFlowIndicator (c : Char) : Bool :=
  c = ',' || c = '[' || c = ']' || c = '{' || c = '}'

/-- Whether a word ends before this text. -/
def wordEnds : Text → Bool
  | [] => true
  | c :: _ => isSpace c

/-- Whether a line ends before this text. -/
def lineEnds : Text → Bool
  | [] => true
  | c :: _ => isBreak c

/-- Whether a text begins with a blank. -/
def startsBlank : Text → Bool
  | [] => false
  | c :: _ => isBlank c

/-- Whether a character may occur in the name of an anchor, a directive or a tag handle. -/
def isNameChar (c : Char) : Bool :=
  c.isAlphanum || c = '_' || c = '-'

/-- Whether a text begins with the given marker as a word of its own. -/
def startsWord (marker text : Text) : Bool :=
  match Text.dropStart? marker text with
  | some rest => wordEnds rest
  | none => false

/-- The marker of the start of a document. -/
def startMarker : Text := ['-', '-', '-']

/-- The marker of the end of a document. -/
def endMarker : Text := ['.', '.', '.']

/-- Whether a line begins with a marker of a document. -/
def atMarker (text : Text) : Bool :=
  startsWord startMarker text || startsWord endMarker text

/-- The text after its first line break. -/
def dropBreak : Text → Text
  | '\r' :: '\n' :: rest => rest
  | c :: rest => if isBreak c then rest else c :: rest
  | [] => []

/-- The text without blanks and without a comment at its beginning. -/
def dropBlanksAndComment (text : Text) : Text :=
  match text.dropWhile isBlank with
  | '#' :: rest => rest.dropWhile fun c => !isBreak c
  | rest => rest

/-!
## Tokens

The words and indicators of a YAML text, and the starts and ends of blocks that follow from the
indentation. The octets of a tag are kept as octets, because an escape in a tag spells an octet.
-/

/-- A token. -/
inductive Token where
  /-- The version that a text declares. -/
  | version (major minor : Nat)
  /-- What a tag handle stands for. -/
  | tagHandle (handle : Text) (meaning : Bytes)
  | documentStart
  | documentEnd
  | blockSequenceStart
  | blockMappingStart
  /-- The end of a block sequence or a block mapping. -/
  | blockEnd
  | flowSequenceStart
  | flowSequenceEnd
  | flowMappingStart
  | flowMappingEnd
  /-- The dash before an item. -/
  | blockEntry
  /-- The comma between items. -/
  | flowEntry
  /-- What follows is a key. -/
  | key
  /-- What follows is a value. -/
  | value
  | alias (name : Text)
  | anchor (name : Text)
  | tag (handle : Text) (suffix : Bytes)
  /-- A scalar; a plain one has neither quotes nor a block indicator. -/
  | scalar (plain : Bool) (text : Text)
  deriving DecidableEq

/-- The blanks and line breaks between two words of a scalar. -/
inductive Gap where
  /-- Blanks on one line. -/
  | inline (blanks : Text)
  /-- One or more line breaks; the blanks around them do not count. -/
  | broken (breaks : Text)
  /-- A line break after a backslash, and the line breaks after it. -/
  | escaped (breaks : Text)

namespace Gap

/-- No gap. -/
def empty : Gap := inline []

/-- The gap with a blank at its end. -/
def addBlank (c : Char) : Gap → Gap
  | inline blanks => inline (blanks ++ [c])
  | gap => gap

/-- The gap with a line break at its end. -/
def addBreak (c : Char) : Gap → Gap
  | inline _ => broken [breakText c]
  | broken breaks => broken (breaks ++ [breakText c])
  | escaped breaks => escaped (breaks ++ [breakText c])

/-- What the gap contributes to the scalar. A single line feed is folded to a space; of several,
the first one is dropped. -/
def text : Gap → Text
  | inline blanks => blanks
  | broken ['\n'] => [' ']
  | broken ('\n' :: more) => more
  | broken breaks => breaks
  | escaped breaks => breaks

/-- Whether the gap holds nothing. -/
def isEmpty : Gap → Bool
  | inline [] => true
  | _ => false

/-- Whether the gap holds a line break. -/
def hasBreak : Gap → Bool
  | inline _ => false
  | _ => true

end Gap

end LayeredConfig.Yaml
