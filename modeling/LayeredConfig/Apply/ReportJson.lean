import LayeredConfig.Diff.Compare
import LayeredConfig.Error
import LayeredConfig.Json.Basic

/-!
# Reports

What became of each target when the templates were applied. A target is named by its path
relative to the target root. A failure concerns one target only; the others are applied all the
same. A report can be printed as JSON.
-/

namespace LayeredConfig.Apply

/-- How a target and its snapshot compared before the target was written. -/
inductive TargetState where
  /-- There was no snapshot. -/
  | noSnapshot
  /-- The target held what the snapshot holds. -/
  | unchanged
  /-- The target held something else. -/
  | drifted
  deriving DecidableEq

/-- The words for a state. -/
def TargetState.message : TargetState → Text
  | .noSnapshot => "no prior snapshot".toList
  | .unchanged => "unchanged".toList
  | .drifted => "drifted".toList

/-- A target that was applied, or would be in a rehearsal. -/
structure Applied where
  file : Path
  state : TargetState
  /-- Whether the target might be overwritten although it was edited. -/
  accepted : Bool
  /-- The checksum of the rendered text. -/
  checksum : Text
  /-- Whether target and snapshot were written. -/
  written : Bool
  deriving DecidableEq

/-- Why a target was not applied. -/
inductive Failure where
  /-- The template holds names that can not be expanded. -/
  | unresolved (file : Path) (names : List Text)
  /-- The target was edited since it was last written. -/
  | drift (file : Path) (changes : Diff.Script)
  /-- Something could not be read or written. -/
  | access (file : Path) (error : FileError)
  deriving DecidableEq

namespace Failure

/-- The target that was not applied. -/
def target : Failure → Path
  | unresolved file _ => file
  | drift file _ => file
  | access file _ => file

/-- Whether the target was edited. -/
def isDrift : Failure → Bool
  | drift .. => true
  | _ => false

/-- The message of a failure. -/
def message : Failure → Text
  | unresolved file names =>
    file.text ++ ": unresolved variables: ".toList ++ Text.join [',', ' '] names
  | drift file changes =>
    file.text ++ ": target was modified since the last apply: ".toList ++ changes.shown
  | access file error => file.text ++ [':', ' '] ++ error.message

end Failure

/-- What became of all targets, each list in the order of the targets. -/
structure Report where
  applied : List Applied
  failures : List Failure
  /-- Whether nothing was to be written. -/
  dryRun : Bool
  deriving DecidableEq

/-- Whether every target was applied. -/
def Report.isSuccess (report : Report) : Bool :=
  report.failures.isEmpty

/-!
## Reports as JSON

The members of a report and of its parts, in their fixed order. Failures are told apart by their
member `kind`.
-/

open LayeredConfig (Json.Layout)

/-- An object of members with names that are known in advance. -/
def object (members : List (String × Json.Layout)) : Json.Layout :=
  .object (members.map fun (name, value) => (name.toList, value))

/-- A string that is known in advance. -/
def word (text : String) : Json.Layout :=
  .string text.toList

/-- A state as JSON. -/
def TargetState.json : TargetState → Json.Layout
  | .noSnapshot => word "no_prior_snapshot"
  | .unchanged => word "snapshot_matches_target"
  | .drifted => word "snapshot_differs_from_target"

/-- An applied target as JSON. -/
def Applied.json (applied : Applied) : Json.Layout :=
  object [("file", .string applied.file.text), ("state", applied.state.json),
    ("accepted", .bool applied.accepted), ("checksum", .string applied.checksum),
    ("written", .bool applied.written)]

/-- A run of an edit script as JSON. -/
def editJson : Diff.Edit → Json.Layout
  | .keep text => object [("tag", word "equal"), ("text", .string text)]
  | .delete text => object [("tag", word "delete"), ("text", .string text)]
  | .insert text => object [("tag", word "insert"), ("text", .string text)]

/-- A failure as JSON. -/
def Failure.json : Failure → Json.Layout
  | .unresolved file names =>
    object [("kind", word "unresolved_variable"), ("file", .string file.text),
      ("variables", .array (names.map Json.Layout.string))]
  | .drift file changes =>
    object [("kind", word "drift_conflict"), ("file", .string file.text),
      ("diff", object [("parts", .array (changes.map editJson))])]
  | .access file error =>
    object [("kind", word "io"), ("file", .string file.text), ("message", .string error.message)]

/-- A report as JSON. -/
def Report.json (report : Report) : Json.Layout :=
  object [("applied", .array (report.applied.map Applied.json)),
    ("failures", .array (report.failures.map Failure.json)), ("dry_run", .bool report.dryRun)]

end LayeredConfig.Apply
