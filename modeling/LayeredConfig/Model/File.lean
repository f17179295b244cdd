import LayeredConfig.FileSystem.Read

/-!
# Model files

The files that a configuration is made from: what their names say about them, which of them the
rules select, in which order they count, and how they are found.
-/

namespace LayeredConfig

/-!
## Formats

The format of a model file follows from what stands after the last dot of its name; a name that
is only a dot and an extension counts too. Extensions are compared exactly.
-/

/-- A format in which configuration values can be written. -/
inductive FileFormat where
  | json
  | yaml
  | properties
  deriving DecidableEq

namespace FileFormat

/-- The extension of the files in a format. -/
def extension : FileFormat → Text
  | .json => "json".toList
  | .yaml => "yaml".toList
  | .properties => "properties".toList

/-- The format that an extension stands for. -/
def ofExtension? (text : Text) : Option FileFormat :=
  [json, yaml, properties].find? fun format => format.extension = text

/-- The format that a file name stands for. -/
def ofFileName? (name : Text) : Option FileFormat :=
  (Text.afterLast? '.' name).bind ofExtension?

/-- The format of the file at a path. -/
def ofPath? (path : Path) : Option FileFormat :=
  path.fileName?.bind ofFileName?

end FileFormat

/-!
## Rules

A rule `segment=value` selects a variant of the models: it stands for the directories
`segment/value`, and a nested file belongs to the configuration when the rules account for all
the directories above it. What a rule accounts for is found by deleting its directories wherever
they occur in the path of the file, one rule after the other.
-/

/-- The choice of a value for a segment. -/
structure Rule where
  /-- What is chosen for. -/
  segment : Text
  /-- What is chosen. -/
  value : Text
  deriving DecidableEq

namespace Rule

/-- A rule is split at the first equals sign. The segment may not be empty, the value may. -/
def parse? (text : Text) : Option Rule :=
  match Text.splitFirst? '=' text with
  | some (c :: segment, value) => some ⟨c :: segment, value⟩
  | _ => none

/-- The rule as it is written. -/
def text (rule : Rule) : Text :=
  rule.segment ++ '=' :: rule.value

/-- The directories of a rule; an equals sign inside the value separates directories too. -/
def segmentPath (rule : Rule) : Text :=
  Text.replaceChar '=' '/' (rule.segment ++ '/' :: rule.value)

/-- What is deleted from the path of a file: the directories of the rule without slashes at the
end, so that a rule with an empty value accounts for the one directory of its segment. -/
def pattern (rule : Rule) : Text :=
  Text.trimEnd (· = '/') rule.segmentPath

/-- What is left of a path when every rule has deleted its directories. -/
def remainder (rules : List Rule) (path : Text) : Text :=
  rules.foldl (fun rest rule => Text.removeAll rule.pattern rest) path

/-- Whether what the rules left of a path selects its file: an extension alone, or slashes and
then one file name that starts with a dot and has an extension of a model file. -/
def selects (rest : Text) : Bool :=
  match rest with
  | '.' :: extension => (FileFormat.ofExtension? extension).isSome
  | '/' :: _ =>
    let name := rest.dropWhile (· = '/')
    name.head? = some '.' && !name.contains '/' && (FileFormat.ofFileName? name).isSome
  | _ => false

/-- Whether the file at a path relative to its root belongs to the configuration. Files at the
top always do. -/
def accepts (rules : List Rule) (path : Path) : Bool :=
  !path.text.contains '/' || selects (remainder rules path.text)

end Rule

/-!
## Precedence

A model file is named by the directory it was found under and its path relative to it. Files are
taken in order of depth, files of one depth in order of their relative paths, and files of one
relative path in the order in which they were given. In this order later files win.
-/

/-- A file below one of the model directories. -/
structure ModelFile where
  /-- The model directory. -/
  root : Path
  /-- The path of the file below it. -/
  relative : Path
  deriving DecidableEq

namespace ModelFile

/-- The number of directories between the root and the file. -/
def depth (file : ModelFile) : Nat :=
  file.relative.depth

/-- The path of the file. -/
def path (file : ModelFile) : Path :=
  file.root.join file.relative.text

/-- The format of the file, by its name. -/
def format? (file : ModelFile) : Option FileFormat :=
  FileFormat.ofPath? file.relative

/-- Whether a file may stand before another one in the order of precedence. -/
def precedes (a b : ModelFile) : Bool :=
  a.depth < b.depth || (a.depth == b.depth && Text.atMost a.relative.text b.relative.text)

/-- The files in the order of precedence; files that are equal in it keep their order. -/
def sort (files : List ModelFile) : List ModelFile :=
  files.mergeSort precedes

/-- The files that belong to the configuration under a list of rules. -/
def select (rules : List Rule) (files : List ModelFile) : List ModelFile :=
  files.filter fun file => Rule.accepts rules file.relative

/-!
## Finding model files

The model files of a configuration are all the files below its model directories, in the order of
precedence. All directories have to exist before any of them is listed.
-/

/-- The files below one model directory. -/
def below (root : Path) (fs : FileSystem) : Except Error (List ModelFile) :=
  match fs.listFiles root with
  | .error e => .error (.file e)
  | .ok files => .ok (files.map fun relative => ⟨root, relative⟩)

/-- The files below each of some model directories, one directory after the other. -/
def belowAll (fs : FileSystem) : List Path → Except Error (List ModelFile)
  | [] => .ok []
  | root :: roots => do
    let files ← below root fs
    let others ← belowAll fs roots
    return files ++ others

/-- The files below the model directories, in the order of precedence. -/
def discover (roots : List Path) (fs : FileSystem) : Except Error (List ModelFile) :=
  if roots = [] then .error .noModelDirectories
  else
    match roots.find? fun root => !fs.isDirectory root.text with
    | some missing => .error (.modelDirectoryNotFound missing.text)
    | none => (belowAll fs roots).map sort

end ModelFile

end LayeredConfig
