import LayeredConfig.Tree.Key

/-!
# Templates

A template is a text with tokens. Rendering replaces each token by a value of the configuration,
whose own tokens have been replaced before.
-/

namespace LayeredConfig.Template

/-!
## Tokens

A token is two opening braces, a name of one or more characters other than a closing brace, and
two closing braces. Tokens are found from the left and do not overlap; every other character of
a template stands for itself. So a third opening brace belongs to the name, and a name may span
lines.
-/

/-- A part of a template. -/
inductive Piece where
  /-- A character that stands for itself. -/
  | char (c : Char)
  /-- A token with the name between its braces, as it is written. -/
  | token (name : Text)
  deriving DecidableEq

/-- The name of the token that a text begins with. -/
def tokenAt? : Text → Option Text
  | '{' :: '{' :: rest =>
    let name := rest.takeWhile (· ≠ '}')
    if name ≠ [] ∧ ['}', '}'].isPrefixOf (rest.dropWhile (· ≠ '}')) then some name else none
  | _ => none

/-- The pieces of a text when its first `skip` characters belong to a token already found. -/
def piecesFrom : (skip : Nat) → Text → List Piece
  | _, [] => []
  | skip + 1, _ :: rest => piecesFrom skip rest
  | 0, c :: rest =>
    match tokenAt? (c :: rest) with
    | some name => .token name :: piecesFrom (name.length + 3) rest
    | none => .char c :: piecesFrom 0 rest

/-- The pieces of a template. -/
def pieces (text : Text) : List Piece :=
  piecesFrom 0 text

/-- A token as it is written. -/
def tokenText (name : Text) : Text :=
  ['{', '{'] ++ name ++ ['}', '}']

/-- A piece as it is written. -/
def Piece.text : Piece → Text
  | .char c => [c]
  | .token name => tokenText name

/-- The name of a token. -/
def Piece.name? : Piece → Option Text
  | .char _ => none
  | .token name => some name

/-- The names of the tokens of a text in order of appearance, each once. -/
def names (text : Text) : List Text :=
  ((pieces text).filterMap Piece.name?).foldl Text.addNew []

/-!
## Rendering

Each token is replaced by the value that its name, without surrounding white space, has in the
configuration. A value that holds tokens itself is rendered first, and so on, as long as a
budget of nested expansions lasts. A token that can not be expanded completely stays as it is,
and the names that are to blame are reported: those inside its value first, then its own.
-/

/-- What a template became. -/
structure Rendered where
  /-- The text, in which a token that could not be expanded stands as it was. -/
  text : Text
  /-- The names that could not be expanded, in order of first occurrence and each once. -/
  missing : List Text
  deriving DecidableEq

/-- A template whose every name was expanded. -/
def Rendered.complete (rendered : Rendered) : Bool :=
  rendered.missing.isEmpty

/-- The number of nested expansions below the template itself. -/
def defaultBudget : Nat := 10

/-- What a name stands for, or else the names that are missing for it. -/
abbrev Expansion := Except (List Text) Text

/-- The expansion of each name of a text, in order of appearance. -/
def expansions (expand : Text → Expansion) (text : Text) : List (Text × Expansion) :=
  (names text).map fun name => (name, expand name)

/-- A piece with its token expanded, if the expansion is known. -/
def Piece.fill (known : List (Text × Expansion)) : Piece → Text
  | .char c => [c]
  | .token name =>
    match known.lookup name with
    | some (.ok value) => value
    | _ => tokenText name

/-- The names missing for a list of expansions, in order of first occurrence and each once. -/
def missingOf (known : List (Text × Expansion)) : List Text :=
  known.foldl
    (fun missing (_, expansion) =>
      match expansion with
      | .ok _ => missing
      | .error names => names.foldl Text.addNew missing)
    []

/-- A text with its tokens expanded. -/
def fill (expand : Text → Expansion) (text : Text) : Rendered :=
  let known := expansions expand text
  { text := (pieces text).flatMap (Piece.fill known), missing := missingOf known }

/-- The expansion of a name. A value without tokens is final; one with tokens is rendered, for
which one unit of the budget is spent. -/
def expand (config : Tree) : (budget : Nat) → (name : Text) → Expansion
  | budget, name =>
    match Tree.valueAt? (Text.trimSpace name) config with
    | none => .error [name]
    | some value =>
      if names value = [] then .ok value
      else
        match budget with
        | 0 => .error (Text.addNew (names value) name)
        | budget + 1 =>
          let inner := fill (expand config budget) value
          if inner.complete then .ok inner.text else .error (Text.addNew inner.missing name)

/-- The template rendered with a budget of nested expansions. -/
def renderWithin (budget : Nat) (config : Tree) (text : Text) : Rendered :=
  fill (expand config budget) text

/-- The template rendered with the default budget. -/
def render (config : Tree) (text : Text) : Rendered :=
  renderWithin defaultBudget config text

end LayeredConfig.Template
