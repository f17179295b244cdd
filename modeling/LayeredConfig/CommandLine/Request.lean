import LayeredConfig.CommandLine.Options

/-!
# What a command line asks for

The arguments are read in order. One that begins with two dashes is an option by its long name,
with a value after an equals sign if it has one; one that begins with one dash is a list of
letters, in which a setting takes the rest as its value. A setting without a value takes the next
argument, which may not begin with a dash unless it is a single one. The first argument that is
neither an option nor such a value names the command. Two dashes alone end the options.
-/

namespace LayeredConfig.CommandLine

/-- The forms of an argument. -/
inductive Form where
  /-- Two dashes alone. -/
  | dashes
  /-- A long name, with the value after an equals sign. -/
  | long (name : Text) (value : Option Text)
  /-- Letters. -/
  | letters (letters : Text)
  /-- Anything else. -/
  | plain
  deriving DecidableEq

/-- The form of an argument. -/
def form : Text → Form
  | ['-', '-'] => .dashes
  | '-' :: '-' :: rest =>
    match Text.splitFirst? '=' rest with
    | some (name, value) => .long name (some value)
    | none => .long rest none
  | '-' :: c :: rest => .letters (c :: rest)
  | _ => .plain

/-- What options have given, and the setting that waits for its value. -/
abbrev Reading := Given × Option Setting

/-- Reads the letters of an argument. -/
def readLetters (scope : Scope) (given : Given) : Text → Except Stop Reading
  | [] => .ok (given, none)
  | letter :: rest =>
    match scope.short? letter with
    | none => .error .misuse
    | some (.switch switch) => do
      let given ← switch.add given
      readLetters scope given rest
    | some (.setting setting) =>
      match rest with
      | [] => .ok (given, some setting)
      | '=' :: value => (setting.add given value).map fun given => (given, none)
      | value => (setting.add given value).map fun given => (given, none)

/-- Reads an option by its long name. -/
def readLong (scope : Scope) (given : Given) (name : Text) (value : Option Text) :
    Except Stop Reading :=
  match scope.long? name, value with
  | some (.switch switch), none => (switch.add given).map fun given => (given, none)
  | some (.setting setting), some value =>
    (setting.add given value).map fun given => (given, none)
  | some (.setting setting), none => .ok (given, some setting)
  | some (.switch _), some _ => .error .misuse
  | none, _ => .error .misuse

/-- Reads options up to the end, or up to an argument that is neither an option nor a value; the
arguments from there on are given back. -/
def readOptions (scope : Scope) : (waiting : Option Setting) → Given → List Text →
    Except Stop (Given × List Text)
  | none, given, [] => .ok (given, [])
  | some _, _, [] => .error .misuse
  | waiting, given, argument :: rest =>
    match form argument, waiting with
    | .plain, some setting => do
      let given ← setting.add given argument
      readOptions scope none given rest
    | .plain, none => .ok (given, argument :: rest)
    | _, some _ => .error .misuse
    | .dashes, none => if rest = [] then .ok (given, []) else .error .misuse
    | .long name value, none => do
      let (given, waiting) ← readLong scope given name value
      readOptions scope waiting given rest
    | .letters letters, none => do
      let (given, waiting) ← readLetters scope given letters
      readOptions scope waiting given rest

/-- What the options of a command give, which nothing may follow. -/
def readAll (scope : Scope) (arguments : List Text) : Except Stop Given := do
  let (given, rest) ← readOptions scope none .nothing arguments
  if rest = [] then .ok given else .error .misuse

/-! ## Requests -/

/-- A request to apply templates. -/
structure ApplyRequest where
  sources : Sources
  layout : Layout
  /-- The targets that may be overwritten although they were edited. -/
  accepted : List Text
  dryRun : Bool
  /-- Whether the report is to be printed as JSON. -/
  json : Bool

/-- A request to print a configuration. -/
structure CompileRequest where
  sources : Sources
  format : OutputFormat

/-- What a command line asks for. -/
inductive Request where
  | greeting
  | help
  | version
  | apply (request : ApplyRequest)
  | compile (request : CompileRequest)

/-- The configuration directory: the one given, else the one that the environment names. -/
def configDir (environment : Option Text) (given : Given) : Except Stop Path :=
  match given.configDir, environment with
  | some path, _ => .ok path
  | none, some value => pathValue value
  | none, none => .ok (Path.ofText Layout.defaultConfigDir)

/-- A request to apply templates, by its options. -/
def applyRequest (environment : Option Text) (arguments : List Text) :
    Except Stop ApplyRequest := do
  let given ← readAll .apply arguments
  let configDir ← configDir environment given
  return {
    sources := ⟨given.modelDirs, given.rules⟩
    layout := ⟨configDir, given.targetRoot.getD (Path.ofText ['.'])⟩
    accepted := given.accepted
    dryRun := given.dryRun
    json := given.json }

/-- A request to print a configuration, by its options. -/
def compileRequest (arguments : List Text) : Except Stop CompileRequest := do
  let given ← readAll .compile arguments
  return ⟨⟨given.modelDirs, given.rules⟩, given.format.getD .json⟩

/-- The names that help can be asked for. -/
def helpTopics : List String := ["apply", "compile", "help"]

/-- Whether arguments ask for help on everything or on one topic. -/
def isHelpTopic : List Text → Bool
  | [] => true
  | [topic] => helpTopics.any fun name => name.toList = topic
  | _ => false

/-- The request of a command with its arguments. -/
def commandRequest (environment : Option Text) (command : Text) (arguments : List Text) :
    Except Stop Request :=
  if command = "apply".toList then (applyRequest environment arguments).map Request.apply
  else if command = "compile".toList then (compileRequest arguments).map Request.compile
  else if command = "help".toList ∧ isHelpTopic arguments then .ok .help
  else .error .misuse

/-- The request of a whole command line. -/
def readRequest (environment : Option Text) (arguments : List Text) : Except Stop Request := do
  let (_, rest) ← readOptions .outer none .nothing arguments
  match rest with
  | [] => .ok .greeting
  | command :: arguments => commandRequest environment command arguments

/-- What the arguments ask for, unless they can not be understood. -/
def request? (environment : Option Text) (arguments : List Text) : Option Request :=
  match readRequest environment arguments with
  | .ok request => some request
  | .error .help => some .help
  | .error .version => some .version
  | .error .misuse => none

/-- The directories that a request names. -/
def Request.paths : Request → List Path
  | .apply request =>
    request.layout.configDir :: request.layout.targetRoot :: request.sources.roots
  | .compile request => request.sources.roots
  | .greeting => []
  | .help => []
  | .version => []

/-- The directories that the arguments name. -/
def namedPaths (environment : Option Text) (arguments : List Text) : List Path :=
  match request? environment arguments with
  | some request => request.paths
  | none => []

end LayeredConfig.CommandLine
