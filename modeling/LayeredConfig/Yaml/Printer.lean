import LayeredConfig.Tree.Merge
import LayeredConfig.Yaml.Token.Basic
import LayeredConfig.Yaml.Value

/-!
# Writing YAML

A configuration tree is written as a block mapping in which every level is indented by two more
spaces. A branch without entries is a pair of braces. A text is described by what stands on its
lines after the indentation of the first one.
-/

namespace LayeredConfig.Yaml

/-!
## How a string is written

A string is written plain if it would be read back as the same string, and between single quotes
if not. A string with a line feed is a literal block. What can not be shown in these ways is
written between double quotes, with escapes. A key that spans lines or is longer than 128 octets
has to be marked as a key.
-/

/-- The ways to write a string. -/
inductive ScalarStyle where
  | plain
  | singleQuoted
  | doubleQuoted
  | literal
  deriving DecidableEq

/-- Whether a character can be written as it is. -/
def isPrintable (c : Char) : Bool :=
  let n := c.toNat
  n == 0x0A || (0x20 ≤ n && n ≤ 0x7E) || (0xA0 ≤ n && n ≤ 0xD7FF) ||
    (0xE000 ≤ n && n ≤ 0xFFFD && n ≠ 0xFEFF) || 0x10000 ≤ n

/-- Whether a character of one class stands directly before one of another class. -/
def hasPair (first second : Char → Bool) : Text → Bool
  | c :: d :: rest => (first c && second d) || hasPair first second (d :: rest)
  | _ => false

/-- Whether a character is a space. -/
def isPlainSpace (c : Char) : Bool :=
  c = ' '

/-- Whether only escapes show what a text holds: a character that can not be written as it is, or
a space before a line break. -/
def needsEscapes (text : Text) : Bool :=
  !text.all isPrintable || hasPair isPlainSpace isBreak text

/-- Whether a character that begins a text has a meaning of its own there. -/
def isIndicator (c : Char) : Bool :=
  isFlowIndicator c || c = '#' || c = '&' || c = '*' || c = '!' || c = '|' || c = '>' ||
    c = '\'' || c = '"' || c = '%' || c = '@' || c = '\x60'

/-- Whether a text, after a word that has ended or not, holds a colon that ends a word or a number
sign that begins one. -/
def hasInnerIndicator : (wordEnded : Bool) → Text → Bool
  | _, [] => false
  | wordEnded, c :: rest =>
    (c = ':' && wordEnds rest) || (c = '#' && wordEnded) || hasInnerIndicator (isSpace c) rest

/-- Whether part of a text would be read as something else than the text of a scalar. -/
def hasIndicator : Text → Bool
  | [] => false
  | c :: rest =>
    isIndicator c || ((c = '-' || c = '?') && wordEnds rest) || hasInnerIndicator false (c :: rest)

/-- Whether a text begins with the characters of a marker of a document. -/
def startsMarker (text : Text) : Bool :=
  startMarker.isPrefixOf text || endMarker.isPrefixOf text

/-- Whether the blanks and line breaks at the ends and inside of a text, and its characters, allow
it to be plain. -/
def mayBePlain (text : Text) : Bool :=
  !text.any isBreak && text.head? ≠ some ' ' && text.getLast? ≠ some ' ' && !startsMarker text &&
    !hasIndicator text

/-- Whether a plain text is read as a string. -/
def readsAsString (text : Text) : Bool :=
  match plainValue? text with
  | some (.string _) => !isPadded text
  | _ => false

/-- How a string is written. -/
def scalarStyle (text : Text) : ScalarStyle :=
  if needsEscapes text then .doubleQuoted
  else if '\n' ∈ text then if text.getLast? = some ' ' then .doubleQuoted else .literal
  else if hasPair isBreak isPlainSpace text then .doubleQuoted
  else if readsAsString text ∧ mayBePlain text then .plain
  else .singleQuoted

/-- The number of octets that a key may have without a mark. -/
def longestPlainKey : Nat := 128

/-- Whether a key has to be marked. -/
def needsKeyMark (key : Text) : Bool :=
  key.any isBreak || longestPlainKey < (Utf8.encode key).length

/-! ## Scalars -/

/-- The spaces of an indentation. -/
def spaces (indent : Nat) : Text :=
  List.replicate indent ' '

/-- The rest of a single-quoted text, on a new line or not. -/
def singleQuotedRest (indent : Nat) : (newLine : Bool) → Text → Text
  | newLine, [] => if newLine then spaces indent else []
  | newLine, c :: rest =>
    if isBreak c then c :: singleQuotedRest indent true rest
    else
      (if newLine then spaces indent else []) ++ (if c = '\'' then ['\'', '\''] else [c]) ++
        singleQuotedRest indent false rest

/-- The letter of the escape of a character that has one of its own. -/
def escapeLetter? (c : Char) : Option Char :=
  if c = '\x00' then some '0'
  else if c = '\x07' then some 'a'
  else if c = '\x08' then some 'b'
  else if c = '\t' then some 't'
  else if c = '\n' then some 'n'
  else if c = '\x0B' then some 'v'
  else if c = '\x0C' then some 'f'
  else if c = '\r' then some 'r'
  else if c = '\x1B' then some 'e'
  else if c = '"' then some '"'
  else if c = '\\' then some '\\'
  else if c = '\u0085' then some 'N'
  else if c = '\u2028' then some 'L'
  else if c = '\u2029' then some 'P'
  else none

/-- The last hexadecimal digits of a number, in upper case. -/
def hexDigits : (count : Nat) → (n : Nat) → Text
  | 0, _ => []
  | count + 1, n => hexDigits count (n / 16) ++ [(Nat.digitChar (n % 16)).toUpper]

/-- The escape of a character by its number. -/
def numberEscape (c : Char) : Text :=
  let n := c.toNat
  if n ≤ 0xFF then 'x' :: hexDigits 2 n
  else if n ≤ 0xFFFF then 'u' :: hexDigits 4 n
  else 'U' :: hexDigits 8 n

/-- A character between double quotes. -/
def doubleQuotedChar (c : Char) : Text :=
  match escapeLetter? c with
  | some letter => ['\\', letter]
  | none => if isPrintable c then [c] else '\\' :: numberEscape c

/-- The lines of a literal block, on a new line or not. Empty lines are not indented. -/
def literalRest (indent : Nat) : (newLine : Bool) → Text → Text
  | _, [] => []
  | newLine, c :: rest =>
    if isBreak c then c :: literalRest indent true rest
    else (if newLine then spaces indent else []) ++ c :: literalRest indent false rest

/-- Whether a text begins with a space or a line break, so that its indentation has to be given. -/
def startsIndented : Text → Bool
  | [] => false
  | c :: _ => isPlainSpace c || isBreak c

/-- The sign for the line breaks at the end of a literal block: none for one, a minus sign for
none at all, a plus sign for more and for a text that is only a line break. -/
def chompingSign (text : Text) : Text :=
  match text.reverse with
  | [] => ['-']
  | [c] => if isBreak c then ['+'] else ['-']
  | c :: d :: _ => if isBreak c then if isBreak d then ['+'] else [] else ['-']

/-- A string, whose further lines have an indentation. -/
def printScalar (indent : Nat) (text : Text) : Text :=
  match scalarStyle text with
  | .plain => text
  | .singleQuoted => '\'' :: singleQuotedRest indent false text ++ ['\'']
  | .doubleQuoted => '"' :: text.flatMap doubleQuotedChar ++ ['"']
  | .literal =>
    '|' :: (if startsIndented text then ['2'] else []) ++ chompingSign text ++
      '\n' :: literalRest indent true text

/-! ## Mappings -/

/-- A text that ends its last line, and the indentation of the next one. -/
def nextLine (indent : Nat) (text : Text) : Text :=
  let ended := (text.getLast?.map isBreak).getD false
  text ++ (if ended then [] else ['\n']) ++ spaces indent

mutual

/-- A node after the colon of its key, in a mapping with an indentation. After a marked key a
mapping begins on the line of the colon. -/
def printValue (indent : Nat) (marked : Bool) : LayeredConfig.Node → Text
  | .scalar text => ' ' :: printScalar (indent + 2) text
  | .branch [] => [' ', '{', '}']
  | .branch (entry :: entries) =>
    (if marked then [' '] else '\n' :: spaces (indent + 2)) ++
      printEntries (indent + 2) (entry :: entries)

/-- The entries of a mapping with an indentation. -/
def printEntries (indent : Nat) : List (Text × LayeredConfig.Node) → Text
  | [] => []
  | (key, node) :: rest =>
    let marked := needsKeyMark key
    let shownKey := printScalar (indent + 2) key
    let start := if marked then nextLine indent ('?' :: ' ' :: shownKey) else shownKey
    let shown := start ++ ':' :: printValue indent marked node
    if rest.isEmpty then shown else nextLine indent shown ++ printEntries indent rest

end

/-- A configuration tree. -/
def print (tree : Tree) : Text :=
  if tree.isEmpty then ['{', '}'] else printEntries 0 tree

end LayeredConfig.Yaml
