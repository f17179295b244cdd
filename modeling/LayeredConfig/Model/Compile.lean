import LayeredConfig.Model.Parse
import LayeredConfig.Yaml.Printer

/-!
# Compiling a configuration

The files that a list of rules selects are parsed in the order of precedence, and their trees are
laid over each other. A file in no known format counts as an empty tree. The first file that can
not be loaded stops the compilation. The configuration can be printed as JSON or as YAML.
-/

namespace LayeredConfig

/-- The tree of a model file. -/
def ModelFile.load (file : ModelFile) (fs : FileSystem) : Except Error Tree :=
  match file.format? with
  | none => .ok []
  | some format =>
    match fs.readText file.path.text with
    | .error e => .error (.file e)
    | .ok content => format.parse file.path.text content

/-- The trees of some model files, in order. -/
def ModelFile.loadAll (fs : FileSystem) : List ModelFile → Except Error (List Tree)
  | [] => .ok []
  | file :: files => do
    let tree ← file.load fs
    let trees ← loadAll fs files
    return tree :: trees

/-- What a configuration is made from. -/
structure Sources where
  /-- The model directories. -/
  roots : List Path
  /-- The chosen variants. -/
  rules : List Rule

namespace Sources

/-- The model files that belong to the configuration, in the order of precedence. There has to be
one. -/
def selected (sources : Sources) (fs : FileSystem) : Except Error (List ModelFile) := do
  let files ← ModelFile.discover sources.roots fs
  match ModelFile.select sources.rules files with
  | [] => .error .emptyConfiguration
  | file :: files => .ok (file :: files)

/-- The configuration. -/
def compile (sources : Sources) (fs : FileSystem) : Except Error Tree := do
  let files ← sources.selected fs
  let trees ← ModelFile.loadAll fs files
  return Tree.merge trees

/-- Whether a file can be loaded. -/
def loads (fs : FileSystem) (file : ModelFile) : Bool :=
  match file.load fs with
  | .ok _ => true
  | .error _ => false

/-- The files in no known format that a compilation comes upon before it ends. -/
def unrecognized (sources : Sources) (fs : FileSystem) : List ModelFile :=
  match sources.selected fs with
  | .error _ => []
  | .ok files => (files.takeWhile (loads fs)).filter fun file => file.format? = none

end Sources

/-!
## The text of a configuration

A configuration tree as JSON or YAML, in the order of the keys. White space at the end of the text
is replaced by one line break.
-/

mutual

/-- A node as JSON. -/
def Node.json : Node → Json.Layout
  | .scalar text => .string text
  | .branch entries => .object (Tree.jsonMembers entries)

/-- The members of the object for a tree. -/
def Tree.jsonMembers : List (Text × Node) → List (Text × Json.Layout)
  | [] => []
  | (key, node) :: rest => (key, Node.json node) :: Tree.jsonMembers rest

end

/-- A format in which a configuration can be printed. -/
inductive OutputFormat where
  | json
  | yaml
  deriving DecidableEq

/-- The text of a configuration before its end is trimmed. -/
def OutputFormat.print (tree : Tree) : OutputFormat → Text
  | .json => Json.print (Node.json (.branch tree))
  | .yaml => Yaml.print tree

/-- The text of a configuration. -/
def OutputFormat.document (format : OutputFormat) (tree : Tree) : Text :=
  Text.trimEnd Text.isWhiteSpace (format.print tree) ++ ['\n']

end LayeredConfig
