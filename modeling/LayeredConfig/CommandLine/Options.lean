import LayeredConfig.Model.Compile

/-!
# Options

The options of the command line and what they give. A switch has no value and a setting has one.
Which options there are depends on the command. Model directories, rules and accepted targets can
be given repeatedly, everything else once. Paths may not be empty.
-/

namespace LayeredConfig.CommandLine

/-- An option without a value. -/
inductive Switch where
  | verbose
  | dryRun
  | json
  | help
  | version
  deriving DecidableEq

/-- An option with a value. -/
inductive Setting where
  | modelDir
  | rule
  | configDir
  | targetRoot
  | accept
  | format
  deriving DecidableEq

/-- What the name of an option stands for. -/
inductive Meaning where
  | switch (switch : Switch)
  | setting (setting : Setting)
  deriving DecidableEq

/-- An option: its name after two dashes, the letter after one dash if it has one, and what it
stands for. -/
structure Named where
  long : String
  short : Option Char
  meaning : Meaning

/-- The commands, and the part of the command line before a command. -/
inductive Scope where
  | outer
  | apply
  | compile
  deriving DecidableEq

/-- The options that say what is compiled. -/
def modelOptions : List Named :=
  [⟨"model-dir", some 'm', .setting .modelDir⟩, ⟨"rule", some 'r', .setting .rule⟩]

/-- The options that can be given everywhere. -/
def commonOptions : List Named :=
  [⟨"verbose", some 'v', .switch .verbose⟩, ⟨"help", some 'h', .switch .help⟩]

/-- The options that can be given to a command. -/
def Scope.options : Scope → List Named
  | .outer => ⟨"version", some 'V', .switch .version⟩ :: commonOptions
  | .apply =>
    modelOptions ++ commonOptions ++
      [⟨"config-dir", some 'c', .setting .configDir⟩,
        ⟨"target-root", some 't', .setting .targetRoot⟩,
        ⟨"accept", some 'a', .setting .accept⟩, ⟨"dry-run", none, .switch .dryRun⟩,
        ⟨"json", none, .switch .json⟩]
  | .compile => modelOptions ++ commonOptions ++ [⟨"format", some 'f', .setting .format⟩]

/-- What a long name stands for. -/
def Scope.long? (scope : Scope) (name : Text) : Option Meaning :=
  (scope.options.find? fun option => option.long.toList = name).map Named.meaning

/-- What a letter stands for. -/
def Scope.short? (scope : Scope) (letter : Char) : Option Meaning :=
  (scope.options.find? fun option => option.short = some letter).map Named.meaning

/-- What the options of a command have given. -/
structure Given where
  verbose : Bool
  dryRun : Bool
  json : Bool
  modelDirs : List Path
  rules : List Rule
  configDir : Option Path
  targetRoot : Option Path
  accepted : List Text
  format : Option OutputFormat

/-- Nothing has been given. -/
def Given.nothing : Given :=
  ⟨false, false, false, [], [], none, none, [], none⟩

/-- Why the reading of a command line ends early. -/
inductive Stop where
  /-- It can not be understood. -/
  | misuse
  /-- Help is asked for. -/
  | help
  /-- The version is asked for. -/
  | version
  deriving DecidableEq

/-- Demands that something has not been given before. -/
def once (before : Bool) (given : Given) : Except Stop Given :=
  if before then .error .misuse else .ok given

/-- What is given once a switch is, too. -/
def Switch.add (given : Given) : Switch → Except Stop Given
  | .verbose => once given.verbose { given with verbose := true }
  | .dryRun => once given.dryRun { given with dryRun := true }
  | .json => once given.json { given with json := true }
  | .help => .error .help
  | .version => .error .version

/-- The path that a value names. -/
def pathValue (value : Text) : Except Stop Path :=
  if value = [] then .error .misuse else .ok (Path.ofText value)

/-- The rule that a value spells. -/
def ruleValue (value : Text) : Except Stop Rule :=
  match Rule.parse? value with
  | some rule => .ok rule
  | none => .error .misuse

/-- The format that a value names. -/
def formatValue (value : Text) : Except Stop OutputFormat :=
  if value = "json".toList then .ok .json
  else if value = "yaml".toList then .ok .yaml
  else .error .misuse

/-- What is given once a setting is, too. -/
def Setting.add (given : Given) (value : Text) : Setting → Except Stop Given
  | .modelDir => do
    let path ← pathValue value
    return { given with modelDirs := given.modelDirs ++ [path] }
  | .rule => do
    let rule ← ruleValue value
    return { given with rules := given.rules ++ [rule] }
  | .configDir => do
    let path ← pathValue value
    once given.configDir.isSome { given with configDir := some path }
  | .targetRoot => do
    let path ← pathValue value
    once given.targetRoot.isSome { given with targetRoot := some path }
  | .accept => .ok { given with accepted := given.accepted ++ [value] }
  | .format => do
    let format ← formatValue value
    once given.format.isSome { given with format := some format }

end LayeredConfig.CommandLine
