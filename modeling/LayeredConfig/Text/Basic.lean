/-!
# Text and maps from texts

Text is the list of its characters, so that splitting, trimming and replacing are recursions on
a list and can be reasoned about as such. The order of two texts is the lexicographic order of
their characters, which is also the order of their UTF-8 octets.

This module holds the operations the rest of the library shares: splitting at a character and
joining again, cutting off a known beginning, trimming, and deleting every occurrence of a
pattern. Maps from texts are lists of entries.
-/

namespace LayeredConfig

/-- A text is the list of its characters. -/
abbrev Text := List Char

namespace Text

/-- Whether a text comes before another one in the order of texts, or is the same. -/
def atMost (a b : Text) : Bool :=
  !decide (b < a)

/-! ## Splitting and joining -/

/-- The pieces of a text between the occurrences of a separator. There is always one piece more
than there are separators, and a piece may be empty. -/
def splitAt (separator : Char) : Text → List Text
  | [] => [[]]
  | c :: rest =>
    if c = separator then [] :: splitAt separator rest
    else
      match splitAt separator rest with
      | [] => [[c]]
      | piece :: pieces => (c :: piece) :: pieces

/-- The pieces in order with a separating text between each two of them. -/
def join (separator : Text) : List Text → Text
  | [] => []
  | [piece] => piece
  | piece :: next :: pieces => piece ++ separator ++ join separator (next :: pieces)

/-- The text before and the text after the first occurrence of a separator. -/
def splitFirst? (separator : Char) : Text → Option (Text × Text)
  | [] => none
  | c :: rest =>
    if c = separator then some ([], rest)
    else (splitFirst? separator rest).map fun (before, after) => (c :: before, after)

/-- The text after the last occurrence of a separator. -/
def afterLast? (separator : Char) : Text → Option Text
  | [] => none
  | c :: rest =>
    match afterLast? separator rest with
    | some after => some after
    | none => if c = separator then some rest else none

/-! ## Cutting and trimming -/

/-- What is left of a text that begins with `start`. -/
def dropStart? : (start : Text) → Text → Option Text
  | [], text => some text
  | _ :: _, [] => none
  | s :: start, c :: rest => if s = c then dropStart? start rest else none

/-- The text without the characters in the class at its end. -/
def trimEnd (inClass : Char → Bool) : Text → Text
  | [] => []
  | c :: rest =>
    match trimEnd inClass rest with
    | [] => if inClass c then [] else [c]
    | kept => c :: kept

/-- The text without the characters in the class at its beginning. -/
def trimStart (inClass : Char → Bool) (text : Text) : Text :=
  text.dropWhile inClass

/-- The text without the characters in the class at either end. -/
def trim (inClass : Char → Bool) (text : Text) : Text :=
  trimEnd inClass (trimStart inClass text)

/-! ## Replacing -/

/-- Every occurrence of one character replaced by another. -/
def replaceChar (old new : Char) (text : Text) : Text :=
  text.map fun c => if c = old then new else c

/-- The text from here on without the occurrences of `pattern`, when the next `skip` characters
belong to an occurrence already found. -/
def removeFrom (pattern : Text) : (skip : Nat) → Text → Text
  | _, [] => []
  | skip + 1, _ :: rest => removeFrom pattern skip rest
  | 0, c :: rest =>
    if pattern ≠ [] ∧ pattern.isPrefixOf (c :: rest) then
      removeFrom pattern (pattern.length - 1) rest
    else c :: removeFrom pattern 0 rest

/-- The text without the occurrences of `pattern`, taken from the left and not overlapping. An
empty pattern removes nothing. -/
def removeAll (pattern text : Text) : Text :=
  removeFrom pattern 0 text

/-- The list with an item at its end unless it is already there. -/
def addNew (items : List Text) (item : Text) : List Text :=
  if item ∈ items then items else items ++ [item]

/-- Whether `pattern` occurs anywhere in the text. -/
def includes (pattern : Text) : Text → Bool
  | [] => pattern.isEmpty
  | c :: rest => pattern.isPrefixOf (c :: rest) || includes pattern rest

/-! ## Digits -/

/-- The decimal digits of a number. -/
def ofNat (n : Nat) : Text :=
  Nat.toDigits 10 n

/-- The decimal digits of a number, after a minus sign if it is negative. -/
def ofInt : Int → Text
  | .ofNat n => ofNat n
  | .negSucc n => '-' :: ofNat (n + 1)

/-- The value of a digit in a base up to sixteen, letters in either case. -/
def digitValue? (base : Nat) (c : Char) : Option Nat :=
  let value :=
    if '0' ≤ c ∧ c ≤ '9' then c.toNat - '0'.toNat
    else if 'a' ≤ c ∧ c ≤ 'f' then c.toNat - 'a'.toNat + 10
    else if 'A' ≤ c ∧ c ≤ 'F' then c.toNat - 'A'.toNat + 10
    else base
  if value < base then some value else none

/-- The number that digits spell after a number already read. -/
def readDigits? (base : Nat) : (soFar : Nat) → Text → Option Nat
  | soFar, [] => some soFar
  | soFar, c :: rest => do
    let value ← digitValue? base c
    readDigits? base (soFar * base + value) rest

/-- The number that one or more digits spell; any other character is refused. -/
def toNat? (base : Nat) : Text → Option Nat
  | [] => none
  | c :: rest => readDigits? base 0 (c :: rest)

/-- Whether a character is a decimal digit. -/
def isDigit (c : Char) : Bool :=
  '0' ≤ c && c ≤ '9'

/-!
## White space

The characters with the Unicode property White_Space. The zero width space U+200B and the byte
order mark U+FEFF do not have it.
-/

/-- Whether a character has the property White_Space. -/
def isWhiteSpace (c : Char) : Bool :=
  let n := c.toNat
  (0x09 ≤ n && n ≤ 0x0D) || n == 0x20 || n == 0x85 || n == 0xA0 || n == 0x1680 ||
    (0x2000 ≤ n && n ≤ 0x200A) || n == 0x2028 || n == 0x2029 || n == 0x202F || n == 0x205F ||
    n == 0x3000

/-- The text without the white space at either end. -/
def trimSpace (text : Text) : Text :=
  trim isWhiteSpace text

end Text

/-!
## Entries by key

A finite map from texts, as the list of its entries in increasing order of the keys. So equal
maps are equal data, and every listing of a map is in one order. `Increasing` says that a list is
of this form; `insert` keeps it.
-/

/-- The entries of a map. -/
abbrev Entries (α : Type) := List (Text × α)

namespace Entries

variable {α : Type}

/-- The value of a key. -/
def get? (key : Text) : Entries α → Option α
  | [] => none
  | (k, value) :: rest => if k = key then some value else get? key rest

/-- The map with a value for a key, in place of the one it had before. -/
def insert (key : Text) (value : α) : Entries α → Entries α
  | [] => [(key, value)]
  | (k, old) :: rest =>
    if k = key then (key, value) :: rest
    else if key < k then (key, value) :: (k, old) :: rest
    else (k, old) :: insert key value rest

/-- The map without a key. -/
def erase (key : Text) : Entries α → Entries α
  | [] => []
  | (k, value) :: rest => if k = key then rest else (k, value) :: erase key rest

/-- The map of a list of entries in any order, of which a later one replaces an earlier one. -/
def ofList (entries : List (Text × α)) : Entries α :=
  entries.foldl (fun map (key, value) => insert key value map) []

/-- The keys in increasing order. -/
def keys (entries : Entries α) : List Text :=
  entries.map (·.1)

/-- Whether the keys increase strictly. -/
def Increasing : Entries α → Prop
  | [] => True
  | (key, _) :: rest => (∀ entry ∈ rest, key < entry.1) ∧ Increasing rest

end Entries

end LayeredConfig
