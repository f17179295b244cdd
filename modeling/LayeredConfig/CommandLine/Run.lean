import LayeredConfig.Apply.Pass
import LayeredConfig.CommandLine.Request

/-!
# Running a command

What a command line prints, what it does to the files and how it ends. Warnings are printed only
if they are wanted.
-/

namespace LayeredConfig.CommandLine

/-!
## What is printed

The lines that tell what a command does and what came of it. Every function gives whole lines.
-/

/-- A line. -/
def line (text : Text) : Text :=
  text ++ ['\n']

/-- What is printed when there is no command. -/
def greetingLines : Text :=
  line "overmodel layered configuration renderer".toList ++ line [] ++
    line "Run overmodel --help for available commands.".toList

/-- The line with the name and the version. -/
def versionLine : Text :=
  line "overmodel 0.1.0".toList

/-- How the command line is used. -/
def usage : Text :=
  line "Usage: overmodel [-v] apply [-m DIR]... [-r SEGMENT=VALUE]... [-c DIR] [-t DIR]".toList ++
    line "         [-a PATH]... [--dry-run] [--json]".toList ++
    line "       overmodel [-v] compile [-m DIR]... [-r SEGMENT=VALUE]... [-f json|yaml]".toList

/-- The line before a compilation. -/
def compiling (modelDirs : Nat) : Text :=
  line ("=> Compiling ".toList ++ Text.ofNat modelDirs ++ " model director".toList ++
    (if modelDirs = 1 then ['y'] else "ies".toList) ++ "...".toList)

/-- The line for an applied target. -/
def appliedLine (applied : Apply.Applied) : Text :=
  line ((if applied.written then "OK ".toList else "WOULD WRITE ".toList) ++ applied.file.text ++
    [' ', '('] ++ applied.state.message ++
    (if applied.accepted then " accepted".toList else []) ++ [')'])

/-- The lines for a target that was not applied. -/
def failureLines : Apply.Failure → Text
  | .unresolved file names =>
    line ("UNRESOLVED ".toList ++ file.text) ++
      names.flatMap fun name => line ("   - ".toList ++ Template.tokenText name)
  | .drift file changes =>
    line ("DRIFTED ".toList ++ file.text ++ " was modified since the last apply:".toList) ++
      line (changes.flatMap Diff.Edit.text)
  | .access file error => line ("ERROR ".toList ++ file.text ++ [':', ' '] ++ error.message)

/-- The lines that sum up a report. -/
def summary (report : Apply.Report) : Text :=
  let applied := Text.ofNat report.applied.length
  if report.isSuccess then
    line ("OK ".toList ++ applied ++ " file(s) ".toList ++
      (if report.dryRun then "would be applied.".toList else "applied.".toList))
  else
    line ("FAILED ".toList ++ applied ++ " applied, ".toList ++
      Text.ofNat report.failures.length ++ " failed.".toList) ++
    if report.failures.any Apply.Failure.isDrift then
      line ("Keep local edits by updating the templates, ".toList ++
        "or re-run with --accept <path> to overwrite.".toList)
    else []

/-- The lines of a report. -/
def reportLines (report : Apply.Report) : Text :=
  report.applied.flatMap appliedLine ++ report.failures.flatMap failureLines ++ line [] ++
    summary report

/-- The line for an error. -/
def errorLine (message : Text) : Text :=
  line ("error: ".toList ++ message)

/-- The message when targets were not applied. -/
def someFailed (count : Nat) : Text :=
  Text.ofNat count ++ " target file(s) could not be applied".toList

/-- The warning that a model file is in no known format. -/
def unrecognizedLine (path : Path) : Text :=
  line ("WARN Skipping model file with unrecognized extension file=".toList ++ path.text)

/-- The warning that a target had no snapshot. -/
def unguardedLine (file : Path) : Text :=
  line ("WARN No prior snapshot; target will be overwritten file=".toList ++ file.text)

/-! ## Commands -/

/-- How a command ended. -/
inductive Ending where
  | success
  /-- The command line was not understood. -/
  | misuse
  /-- There was no model directory. -/
  | noModelDirectories
  /-- A target did not exist. -/
  | targetsMissing
  /-- Some targets were not applied. -/
  | someFailed
  /-- Anything else went wrong. -/
  | fatal
  deriving DecidableEq

/-- The exit code for an ending; of a negative one the operating system reports the remainder
modulo 256. -/
def Ending.code : Ending → Int
  | .success => 0
  | .misuse => 2
  | .noModelDirectories => -1
  | .targetsMissing => -2
  | .someFailed => -3
  | .fatal => -4

/-- How a command ends that meets an error. -/
def Ending.ofError : Error → Ending
  | .noModelDirectories => .noModelDirectories
  | .targetsMissing _ => .targetsMissing
  | _ => .fatal

/-- What came of a command. -/
structure Outcome where
  ending : Ending
  /-- What is printed. -/
  output : Text
  /-- The warnings and the error. -/
  diagnostics : Text
  /-- The files after the command. -/
  after : FileSystem

/-- The outcome of a command that meets an error before it has changed any file. -/
def Outcome.ofError (output warnings : Text) (fs : FileSystem) (error : Error) : Outcome :=
  ⟨.ofError error, output, warnings ++ errorLine error.message, fs⟩

/-- The warnings about the sources of a configuration. -/
def sourceWarnings (sources : Sources) (fs : FileSystem) : Text :=
  (sources.unrecognized fs).flatMap fun file => unrecognizedLine file.path

/-- The outcome of a pass over the targets. -/
def Outcome.ofPass (json : Bool) (output warnings : Text) (pass : Apply.Pass) : Outcome :=
  let report := pass.report
  let shown := if json then line (Json.print report.json) else reportLines report
  if report.isSuccess then ⟨.success, output ++ shown, warnings, pass.after⟩
  else
    ⟨.someFailed, output ++ shown, warnings ++ errorLine (someFailed report.failures.length),
      pass.after⟩

/-- Applies templates. -/
def ApplyRequest.run (request : ApplyRequest) (warn : Bool) (fs : FileSystem) : Outcome :=
  let output := if request.json then [] else compiling request.sources.roots.length
  let warnings := if warn then sourceWarnings request.sources fs else []
  match request.sources.compile fs with
  | .error e => .ofError output warnings fs e
  | .ok config =>
    let options : Apply.Options := ⟨AcceptSet.ofList request.accepted, request.dryRun⟩
    match Apply.run request.layout config options fs with
    | .error e => .ofError output warnings fs e
    | .ok pass =>
      let unguarded := if warn then pass.unguarded.flatMap unguardedLine else []
      .ofPass request.json output (warnings ++ unguarded) pass

/-- Prints a configuration. -/
def CompileRequest.run (request : CompileRequest) (warn : Bool) (fs : FileSystem) : Outcome :=
  let warnings := if warn then sourceWarnings request.sources fs else []
  match request.sources.compile fs with
  | .error e => .ofError [] warnings fs e
  | .ok config => ⟨.success, request.format.document config, warnings, fs⟩

/-- Does what is asked for. -/
def Request.run (warn : Bool) (fs : FileSystem) : Request → Outcome
  | .greeting => ⟨.success, greetingLines, [], fs⟩
  | .help => ⟨.success, usage, [], fs⟩
  | .version => ⟨.success, versionLine, [], fs⟩
  | .apply request => request.run warn fs
  | .compile request => request.run warn fs

/-- Runs a command line, given the configuration directory that the environment names, if any. -/
def run (environment : Option Text) (warn : Bool) (arguments : List Text) (fs : FileSystem) :
    Outcome :=
  match request? environment arguments with
  | some request => request.run warn fs
  | none => ⟨.misuse, [], usage, fs⟩

end LayeredConfig.CommandLine
