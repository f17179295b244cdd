import LayeredConfig.Yaml.Token.Block
import LayeredConfig.Yaml.Token.Property
import LayeredConfig.Yaml.Token.Scalar

/-!
# The tokens of a text

The tokens of a YAML text in order. Two things are known only after the fact. That a scalar, an
alias or a bracketed collection is a key shows at the colon behind it; a place where a key may
have begun is remembered until then, and the key token is put there. And a block begins where a
key or a dash stands further to the right than the block around it, and ends where something
stands further to the left.

A key that is not marked must be on one line with its colon and no longer than 1024 characters.
-/

namespace LayeredConfig.Yaml

/-- A place in a text, counting characters from zero. -/
structure Place where
  index : Nat
  line : Nat
  column : Nat

/-- The place after some text. -/
def Place.after : Place → Text → Place
  | place, [] => place
  | place, '\r' :: '\n' :: rest => Place.after ⟨place.index + 2, place.line + 1, 0⟩ rest
  | place, c :: rest =>
    if isBreak c then Place.after ⟨place.index + 1, place.line + 1, 0⟩ rest
    else Place.after ⟨place.index + 1, place.line, place.column + 1⟩ rest

/-- A place where a key may have begun. -/
structure KeyStart where
  /-- The number of tokens before it. -/
  tokensBefore : Nat
  place : Place
  /-- Whether nothing but a key can stand there. -/
  required : Bool

/-- How far the tokens of a text have been read. -/
structure Lexer where
  place : Place
  rest : Text
  /-- The tokens read, the last one first. -/
  emitted : List Token
  /-- The column of the innermost block, or -1 outside all blocks. -/
  indent : Int
  /-- The columns of the blocks around it. -/
  outerIndents : List Int
  /-- Where a key may have begun on the innermost level of brackets. -/
  keyStart : Option KeyStart
  /-- The same for the levels around it; there are as many as there are open brackets. -/
  outerKeyStarts : List (Option KeyStart)
  /-- Whether a key that is not marked may begin here. -/
  keyAllowed : Bool

namespace Lexer

/-- The start of a text. A byte order mark there is passed over. -/
def start (text : Text) : Lexer :=
  let base : Lexer :=
    { place := ⟨0, 0, 0⟩, rest := text, emitted := [], indent := -1, outerIndents := []
      keyStart := none, outerKeyStarts := [], keyAllowed := true }
  match text with
  | '\uFEFF' :: rest => { base with place := ⟨1, 0, 1⟩, rest := rest }
  | _ => base

/-- Whether a bracket is open. -/
def inFlow (lexer : Lexer) : Bool :=
  !lexer.outerKeyStarts.isEmpty

/-- The lexer moved on to a later part of its text. -/
def moveTo (lexer : Lexer) (rest : Text) : Lexer :=
  let passed := lexer.rest.take (lexer.rest.length - rest.length)
  { lexer with place := lexer.place.after passed, rest := rest }

/-- The lexer moved on by some characters. -/
def skip (lexer : Lexer) (count : Nat) : Lexer :=
  lexer.moveTo (lexer.rest.drop count)

/-- The lexer with one more token. -/
def emit (lexer : Lexer) (token : Token) : Lexer :=
  { lexer with emitted := token :: lexer.emitted }

/-- The lexer with a token put behind the first few tokens. -/
def emitBehind (lexer : Lexer) (tokensBefore : Nat) (token : Token) : Lexer :=
  let later := lexer.emitted.length - tokensBefore
  { lexer with emitted := lexer.emitted.take later ++ token :: lexer.emitted.drop later }

/-! ## Places of keys -/

/-- Forgets the place where a key may have begun, unless a key is required there. -/
def forgetKey (lexer : Lexer) : Option Lexer :=
  if (lexer.keyStart.map KeyStart.required).getD false then none
  else some { lexer with keyStart := none }

/-- Remembers that a key may begin here. In a block, what stands in the column of the block has
to be a key. -/
def rememberKey (lexer : Lexer) : Option Lexer :=
  if lexer.keyAllowed then do
    let lexer ← lexer.forgetKey
    let required := !lexer.inFlow && lexer.indent = (lexer.place.column : Int)
    return { lexer with keyStart := some ⟨lexer.emitted.length, lexer.place, required⟩ }
  else some lexer

/-- The length that a key may have. -/
def longestKey : Nat := 1024

/-- A place of a key, unless it has been left behind; leaving a required key behind is an
error. -/
def KeyStart.current? (now : Place) (start : KeyStart) : Option (Option KeyStart) :=
  if start.place.line < now.line ∨ start.place.index + longestKey < now.index then
    if start.required then none else some none
  else some (some start)

/-- A list of places of keys without those that have been left behind. -/
def currentAll (now : Place) : List (Option KeyStart) → Option (List (Option KeyStart))
  | [] => some []
  | none :: rest => (currentAll now rest).map (none :: ·)
  | some start :: rest => do
    let kept ← KeyStart.current? now start
    let rest ← currentAll now rest
    return kept :: rest

/-- Forgets the places of keys that have been left behind. -/
def forgetStale (lexer : Lexer) : Option Lexer := do
  let all ← currentAll lexer.place (lexer.keyStart :: lexer.outerKeyStarts)
  match all with
  | innermost :: outer => return { lexer with keyStart := innermost, outerKeyStarts := outer }
  | [] => none

/-! ## Blocks -/

/-- Opens a block in a column if it is to the right of the innermost block. Its token is put
behind the first few tokens. -/
def openBlock (lexer : Lexer) (column tokensBefore : Nat) (token : Token) : Lexer :=
  if !lexer.inFlow ∧ lexer.indent < column then
    { lexer with indent := column, outerIndents := lexer.indent :: lexer.outerIndents }.emitBehind
      tokensBefore token
  else lexer

/-- Opens a block here if it is to the right of the innermost block. -/
def openBlockHere (lexer : Lexer) (token : Token) : Lexer :=
  lexer.openBlock lexer.place.column lexer.emitted.length token

/-- The columns of the blocks that stay open in a column, and the number of those that end. -/
def closeIndents (column : Int) : (indent : Int) → (outer : List Int) → Nat × Int × List Int
  | indent, [] => (0, indent, [])
  | indent, next :: outer =>
    if column < indent then
      let (closed, indent, outer) := closeIndents column next outer
      (closed + 1, indent, outer)
    else (0, indent, next :: outer)

/-- Closes the blocks to the right of a column. -/
def closeBlocks (lexer : Lexer) (column : Int) : Lexer :=
  if lexer.inFlow then lexer
  else
    let (closed, indent, outer) := closeIndents column lexer.indent lexer.outerIndents
    { lexer with
      indent := indent, outerIndents := outer
      emitted := List.replicate closed .blockEnd ++ lexer.emitted }

/-! ## Between tokens -/

/-- Passes over spaces, comments and line breaks, and over tabs where they can not be taken for
indentation: within brackets and where no key may begin. After a line break in a block a key may
begin. -/
def passSpace (inFlow : Bool) : (keyAllowed inComment : Bool) → Text → Bool × Text
  | keyAllowed, _, [] => (keyAllowed, [])
  | keyAllowed, inComment, c :: rest =>
    if isBreak c then passSpace inFlow (keyAllowed || !inFlow) false rest
    else if inComment then passSpace inFlow keyAllowed true rest
    else if c = ' ' ∨ (c = '\t' ∧ (inFlow || !keyAllowed)) then
      passSpace inFlow keyAllowed false rest
    else if c = '#' then passSpace inFlow keyAllowed true rest
    else (keyAllowed, c :: rest)

/-- Moves to where the next token begins, closing the blocks that end before it. -/
def toNextToken (lexer : Lexer) : Option Lexer := do
  let (keyAllowed, rest) := passSpace lexer.inFlow lexer.keyAllowed false lexer.rest
  let lexer ← ({ lexer with keyAllowed := keyAllowed }.moveTo rest).forgetStale
  return lexer.closeBlocks lexer.place.column

/-! ## The kinds of tokens -/

/-- A directive or a document marker: all blocks end. -/
def leaveBlocks (lexer : Lexer) : Option Lexer := do
  let lexer ← (lexer.closeBlocks (-1)).forgetKey
  return { lexer with keyAllowed := false }

/-- A directive. -/
def readDirective (lexer : Lexer) : Option Lexer := do
  let lexer ← lexer.leaveBlocks
  let (token, rest) ← directive? (lexer.rest.drop 1)
  return (lexer.moveTo rest).emit token

/-- A marker of a document. -/
def readMarker (lexer : Lexer) (token : Token) : Option Lexer := do
  let lexer ← lexer.leaveBlocks
  return (lexer.skip 3).emit token

/-- An opening bracket or brace. The collection may be a key. -/
def openFlow (lexer : Lexer) (token : Token) : Option Lexer := do
  let lexer ← lexer.rememberKey
  let lexer :=
    { lexer with
      keyStart := none, outerKeyStarts := lexer.keyStart :: lexer.outerKeyStarts
      keyAllowed := true }
  return (lexer.skip 1).emit token

/-- A closing bracket or brace. -/
def closeFlow (lexer : Lexer) (token : Token) : Option Lexer := do
  let lexer ← lexer.forgetKey
  let lexer :=
    match lexer.outerKeyStarts with
    | start :: outer => { lexer with keyStart := start, outerKeyStarts := outer }
    | [] => lexer
  return ({ lexer with keyAllowed := false }.skip 1).emit token

/-- A comma. -/
def readFlowEntry (lexer : Lexer) : Option Lexer := do
  let lexer ← lexer.forgetKey
  return ({ lexer with keyAllowed := true }.skip 1).emit .flowEntry

/-- A dash. In a block it may only stand where a key may begin. -/
def readBlockEntry (lexer : Lexer) : Option Lexer := do
  let lexer ←
    if lexer.inFlow then some lexer
    else if lexer.keyAllowed then some (lexer.openBlockHere .blockSequenceStart)
    else none
  let lexer ← lexer.forgetKey
  return ({ lexer with keyAllowed := true }.skip 1).emit .blockEntry

/-- A question mark, which marks a key. -/
def readKey (lexer : Lexer) : Option Lexer := do
  let lexer ←
    if lexer.inFlow then some lexer
    else if lexer.keyAllowed then some (lexer.openBlockHere .blockMappingStart)
    else none
  let lexer ← lexer.forgetKey
  return ({ lexer with keyAllowed := !lexer.inFlow }.skip 1).emit .key

/-- A colon. If a key may have begun before it, a key did begin there, and perhaps a block. -/
def readValue (lexer : Lexer) : Option Lexer :=
  match lexer.keyStart with
  | some start =>
    let lexer := lexer.emitBehind start.tokensBefore .key
    let lexer := lexer.openBlock start.place.column start.tokensBefore .blockMappingStart
    some (({ lexer with keyStart := none, keyAllowed := false }.skip 1).emit .value)
  | none =>
    if lexer.inFlow then some (({ lexer with keyAllowed := false }.skip 1).emit .value)
    else if lexer.keyAllowed then
      some (((lexer.openBlockHere .blockMappingStart).skip 1).emit .value)
    else none

/-- Something that may be a key by itself, given what it is and what follows it. -/
def readKeyable (lexer : Lexer) (token : Token) (rest : Text) : Option Lexer := do
  let lexer ← lexer.rememberKey
  return ({ lexer with keyAllowed := false }.moveTo rest).emit token

/-- A literal or folded scalar. -/
def readBlockScalar (lexer : Lexer) (folded : Bool) : Option Lexer := do
  let lexer ← lexer.forgetKey
  let (text, rest) ← blockScalar? folded lexer.indent (lexer.rest.drop 1)
  return ({ lexer with keyAllowed := true }.moveTo rest).emit (.scalar false text)

/-- A plain scalar. If it broke off at the start of a line, a key may begin there. -/
def readPlain (lexer : Lexer) : Option Lexer := do
  let scalar ← plainFrom lexer.inFlow (lexer.indent + 1) lexer.place.column .empty lexer.rest
  let lexer ← lexer.readKeyable (.scalar true scalar.text) scalar.rest
  return { lexer with keyAllowed := scalar.brokeOff }

/-- Whether a plain scalar may begin with a character that is followed by a text. -/
def startsPlain (inFlow : Bool) (c : Char) (rest : Text) : Bool :=
  if c = '-' then !startsBlank rest
  else if c = '?' ∨ c = ':' then !inFlow && !wordEnds rest
  else
    !(isBlank c || isFlowIndicator c || c = '#' || c = '&' || c = '*' || c = '!' || c = '|' || c = '>' ||
      c = '\'' || c = '"' || c = '%' || c = '@' || c = '\x60')

/-- The token that begins with a character. -/
def readToken (lexer : Lexer) (c : Char) (rest : Text) : Option Lexer :=
  let atStart := lexer.place.column = 0
  if atStart ∧ c = '%' then lexer.readDirective
  else if atStart ∧ startsWord startMarker (c :: rest) then lexer.readMarker .documentStart
  else if atStart ∧ startsWord endMarker (c :: rest) then lexer.readMarker .documentEnd
  else if c = '[' then lexer.openFlow .flowSequenceStart
  else if c = '{' then lexer.openFlow .flowMappingStart
  else if c = ']' then lexer.closeFlow .flowSequenceEnd
  else if c = '}' then lexer.closeFlow .flowMappingEnd
  else if c = ',' then lexer.readFlowEntry
  else if c = '-' ∧ wordEnds rest then lexer.readBlockEntry
  else if c = '?' ∧ (lexer.inFlow || wordEnds rest) then lexer.readKey
  else if c = ':' ∧ (lexer.inFlow || wordEnds rest) then lexer.readValue
  else if c = '*' then do
    let (name, rest) ← anchorName? rest
    lexer.readKeyable (.alias name) rest
  else if c = '&' then do
    let (name, rest) ← anchorName? rest
    lexer.readKeyable (.anchor name) rest
  else if c = '!' then do
    let (handle, suffix, rest) ← readTag? lexer.inFlow (c :: rest)
    lexer.readKeyable (.tag handle suffix) rest
  else if c = '|' ∧ !lexer.inFlow then lexer.readBlockScalar false
  else if c = '>' ∧ !lexer.inFlow then lexer.readBlockScalar true
  else if c = '\'' then do
    let (text, rest) ← singleQuotedFrom (lexer.place.column + 1) .empty rest
    lexer.readKeyable (.scalar false text) rest
  else if c = '"' then do
    let (text, rest) ← doubleQuotedFrom (lexer.place.column + 1) .empty rest
    lexer.readKeyable (.scalar false text) rest
  else if startsPlain lexer.inFlow c rest then lexer.readPlain
  else none

/-- The tokens from here on, after those already read. Every token but the last end of blocks
takes at least one character, so the length of the text is fuel enough. -/
def run : (fuel : Nat) → Lexer → Option (List Token)
  | 0, _ => none
  | fuel + 1, lexer => do
    let lexer ← lexer.toNextToken
    match lexer.rest with
    | [] =>
      let lexer ← lexer.leaveBlocks
      return lexer.emitted.reverse
    | c :: rest =>
      let lexer ← lexer.readToken c rest
      run fuel lexer

end Lexer

/-- The tokens of a text, if it is made of allowed characters and its tokens are well formed. -/
def tokens? (text : Text) : Option (List Token) :=
  if text.all isAllowed then (Lexer.start text).run (text.length + 1) else none

end LayeredConfig.Yaml
