import LayeredConfig.Yaml.Token.Basic

/-!
# Anchors, tags and directives

An anchor or an alias is a name. A tag is a handle with a suffix: `!suffix` and `!!suffix` have
the handles `!` and `!!`, `!name!suffix` has the handle `!name!`, and a tag in angle brackets
stands for itself. The lone tag `!` stands for itself too. A directive declares a version or says
what a handle stands for.
-/

namespace LayeredConfig.Yaml

/-- Whether the name of an anchor may end before this text. -/
def anchorEnds : Text → Bool
  | [] => true
  | c :: _ =>
    isSpace c || c = '?' || c = ':' || c = ',' || c = ']' || c = '}' || c = '%' || c = '@' ||
      c = '\x60'

/-- The name of an anchor or alias after its indicator, and the rest. -/
def anchorName? (text : Text) : Option (Text × Text) :=
  let name := text.takeWhile isNameChar
  let rest := text.dropWhile isNameChar
  if name ≠ [] ∧ anchorEnds rest then some (name, rest) else none

/-! ## Tags -/

/-- Whether a character may occur in a tag; the brackets and the comma may only occur in angle
brackets and in directives. -/
def isTagChar (wide : Bool) (c : Char) : Bool :=
  isNameChar c || c = ';' || c = '/' || c = '?' || c = ':' || c = '@' || c = '&' || c = '=' ||
    c = '+' || c = '$' || c = '.' || c = '!' || c = '~' || c = '*' || c = '\'' || c = '(' ||
    c = ')' || (wide && (c = ',' || c = '[' || c = ']'))

/-- The number of octets of a character, by its first octet. -/
def octetWidth (octet : Nat) : Nat :=
  if octet < 0x80 then 1
  else if octet < 0xC0 then 0
  else if octet < 0xE0 then 2
  else if octet < 0xF0 then 3
  else if octet < 0xF8 then 4
  else 0

/-- The octets of a tag, and the rest. Escapes spell whole characters; `owed` is the number of
octets that the character begun still needs. -/
def tagOctets? (wide : Bool) : (owed : Nat) → Text → Option (Bytes × Text)
  | owed, '%' :: a :: b :: rest => do
    let octet ← Text.toNat? 16 [a, b]
    let owed ←
      if owed = 0 then if octetWidth octet = 0 then none else some (octetWidth octet - 1)
      else if octet / 0x40 = 2 then some (owed - 1)
      else none
    let (octets, after) ← tagOctets? wide owed rest
    return (.ofNat octet :: octets, after)
  | owed, c :: rest =>
    if owed ≠ 0 ∨ c = '%' then none
    else if isTagChar wide c then
      (tagOctets? wide 0 rest).map fun (octets, after) => (Utf8.encodeChar c ++ octets, after)
    else some ([], c :: rest)
  | owed, [] => if owed = 0 then some ([], []) else none

/-- Whether a tag may end before this text. -/
def tagEnds (inFlow : Bool) (text : Text) : Bool :=
  wordEnds text || (inFlow && text.head? = some ',')

/-- The handle and the suffix of a tag from its `!` on, and the rest. -/
def readTag? (inFlow : Bool) (text : Text) : Option (Text × Bytes × Text) := do
  let (handle, suffix, rest) ←
    match text with
    | '!' :: '<' :: verbatim => do
      let (octets, rest) ← tagOctets? true 0 verbatim
      match octets, rest with
      | [], _ => none
      | octets, '>' :: rest => some ([], octets, rest)
      | _, _ => none
    | '!' :: short =>
      let name := short.takeWhile isNameChar
      match short.dropWhile isNameChar with
      | '!' :: after => do
        let (octets, rest) ← tagOctets? false 0 after
        if octets = [] then none else some ('!' :: name ++ ['!'], octets, rest)
      | _ => do
        let (octets, rest) ← tagOctets? false 0 short
        if octets = [] then some ([], Utf8.encodeChar '!', rest) else some (['!'], octets, rest)
    | _ => none
  if tagEnds inFlow rest then some (handle, suffix, rest) else none

/-! ## Directives -/

/-- The most digits that a part of a version may have. -/
def longestVersionPart : Nat := 9

/-- A part of a version, and the rest. -/
def versionPart? (text : Text) : Option (Nat × Text) := do
  let digits := text.takeWhile Text.isDigit
  let n ← Text.toNat? 10 digits
  if digits.length ≤ longestVersionPart then some (n, text.dropWhile Text.isDigit) else none

/-- The value of a version directive, and the rest. -/
def versionValue? (text : Text) : Option (Token × Text) := do
  let (major, rest) ← versionPart? text
  match rest with
  | '.' :: rest =>
    let (minor, rest) ← versionPart? rest
    return (.version major minor, rest)
  | _ => none

/-- The value of a tag directive, and the rest. -/
def handleValue? (text : Text) : Option (Token × Text) := do
  let (handle, rest) ←
    match text with
    | '!' :: text =>
      let name := text.takeWhile isNameChar
      match text.dropWhile isNameChar with
      | '!' :: rest => some ('!' :: name ++ ['!'], rest)
      | rest => if name = [] then some (['!'], rest) else none
    | _ => none
  if startsBlank rest then
    let (octets, rest) ← tagOctets? true 0 (rest.dropWhile isBlank)
    if octets ≠ [] ∧ wordEnds rest then some (.tagHandle handle octets, rest) else none
  else none

/-- A directive after its percent sign, and the next line. -/
def directive? (text : Text) : Option (Token × Text) := do
  let name := text.takeWhile isNameChar
  let rest := text.dropWhile isNameChar
  if !wordEnds rest then none
  else
    let value := rest.dropWhile isBlank
    let (token, rest) ←
      if name = "YAML".toList then versionValue? value
      else if name = "TAG".toList then handleValue? value
      else none
    let rest := dropBlanksAndComment rest
    if lineEnds rest then some (token, dropBreak rest) else none

end LayeredConfig.Yaml
