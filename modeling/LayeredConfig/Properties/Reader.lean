import LayeredConfig.Text.Encoding

/-!
# Reading property files

The octets of a file are made characters, the characters lines, lines that belong together logical
lines, and each logical line an entry or nothing.
-/

namespace LayeredConfig.Properties

/-!
## Lines

Content with a byte order mark is taken as it is; without one its octets are read as
Windows-1252. Lines end in a line feed, a carriage return, or both. A line that ends in an odd
number of backslashes goes on in the next line, without the white space that this begins with; a
line that would go on beyond the end of the content is lost. A comment never goes on.
-/

/-- The characters of a file. -/
def decode : Text → Text
  | '\uFEFF' :: rest => rest
  | content => Windows1252.decode (Utf8.encode content)

/-- The lines of a text. There is always one line more than there are line ends. -/
def naturalLines : Text → List Text
  | [] => [[]]
  | '\r' :: '\n' :: rest => [] :: naturalLines rest
  | c :: rest =>
    if c = '\r' ∨ c = '\n' then [] :: naturalLines rest
    else
      match naturalLines rest with
      | [] => [[c]]
      | line :: lines => (c :: line) :: lines

/-- Whether a character may stand around keys. -/
def isBlank (c : Char) : Bool :=
  c = ' ' || c = '\t' || c = '\x0C'

/-- Whether a line is a comment. -/
def isComment (line : Text) : Bool :=
  match line.dropWhile isBlank with
  | c :: _ => c = '#' || c = '!'
  | [] => false

/-- Whether a line goes on in the next one: it ends in an odd number of backslashes. -/
def goesOn (line : Text) : Bool :=
  (line.reverse.takeWhile (· = '\\')).length % 2 = 1

/-- The logical lines of a list of lines, when `pending` is what the line before, which goes on,
has left. -/
def logicalFrom : (pending : Option Text) → List Text → List Text
  | _, [] => []
  | pending, line :: lines =>
    let whole :=
      match pending with
      | some start => start ++ Text.trimStart Text.isWhiteSpace line
      | none => line
    if pending.isNone ∧ isComment line then line :: logicalFrom none lines
    else if goesOn whole then logicalFrom (some whole.dropLast) lines
    else whole :: logicalFrom none lines

/-- The logical lines of a text. -/
def logicalLines (text : Text) : List Text :=
  logicalFrom none (naturalLines text)

/-!
## Entries of lines

A key ends at the first colon, equals sign or blank that has no backslash before it. Blanks, at
most one colon or equals sign, and blanks separate it from its value, which is the rest of the
line. A line without a key and without a separator says nothing. In keys, values and comments a
backslash makes the next character literal, except that `t`, `n`, `f` and `r` stand for control
characters and `u` is followed by the four hexadecimal digits of a character.
-/

/-- The number that four characters spell in hexadecimal; the first one may be a plus sign. -/
def unit? : Text → Option Nat
  | '+' :: digits => Text.toNat? 16 digits
  | digits => Text.toNat? 16 digits

/-- A text with its escapes resolved, unless one of them names no character. A backslash at the
end, which only a comment can have, is dropped. -/
def unescape? : Text → Option Text
  | [] => some []
  | '\\' :: 'u' :: a :: b :: c :: d :: rest => do
    let n ← unit? [a, b, c, d]
    if 0xD800 ≤ n ∧ n < 0xE000 then none
    else do
      let text ← unescape? rest
      return Char.ofNat n :: text
  | '\\' :: c :: rest =>
    if c = 'u' then none
    else do
      let text ← unescape? rest
      let meant :=
        if c = 't' then '\t'
        else if c = 'n' then '\n'
        else if c = 'f' then '\x0C'
        else if c = 'r' then '\r'
        else c
      return meant :: text
  | ['\\'] => some []
  | c :: rest => (unescape? rest).map (c :: ·)

/-- Whether a character ends a key. -/
def endsKey (c : Char) : Bool :=
  c = ':' || c = '=' || isBlank c

/-- The key that a line begins with, with its escapes, and the rest of the line. -/
def splitKey : Text → Text × Text
  | [] => ([], [])
  | '\\' :: c :: rest =>
    let (key, after) := splitKey rest
    ('\\' :: c :: key, after)
  | c :: rest =>
    if endsKey c then ([], c :: rest)
    else
      let (key, after) := splitKey rest
      (c :: key, after)

/-- The value in the rest of a line after its key. -/
def valueText (rest : Text) : Text :=
  match rest.dropWhile isBlank with
  | c :: after => if c = ':' ∨ c = '=' then after.dropWhile isBlank else c :: after
  | [] => []

/-- The key and the value of a logical line, if it has them; a failure is an escape that names no
character. -/
def readLine? (line : Text) : Option (Option (Text × Text)) :=
  let content := line.dropWhile isBlank
  match content with
  | [] => some none
  | mark :: text =>
    if mark = '#' ∨ mark = '!' then
      (unescape? (Text.trimEnd isBlank (text.dropWhile isBlank))).map fun _ => none
    else do
      let (key, rest) := splitKey content
      let key ← unescape? key
      let value ← unescape? (valueText rest)
      return some (key, value)

/-- The entries of a file in the order of its lines, unless an escape names no character. -/
def read? (content : Text) : Option (List (Text × Text)) := do
  let lines ← (logicalLines (decode content)).mapM readLine?
  return lines.filterMap id

end LayeredConfig.Properties
