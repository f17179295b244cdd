import LayeredConfig.Apply.AcceptSet
import LayeredConfig.Checksum.Sha256
import LayeredConfig.FileSystem.Write

/-!
# Applying templates

Every template below the directory of templates is rendered onto its target. All targets have to
exist before the first one is written. Then each target is judged and written by itself, in the
order of the paths: the target first and its snapshot after it, so that the snapshot tells what
was last written. What goes wrong with one target is recorded in the report.
-/

namespace LayeredConfig.Apply

/-- What may be overwritten, and whether anything is written at all. -/
structure Options where
  accepted : AcceptSet
  /-- Whether nothing is to be written. -/
  dryRun : Bool

/-! ## Before anything is written -/

/-- The templates, by their paths relative to their directory, in the order of the paths. -/
def templates (layout : Layout) (fs : FileSystem) : Except FileError (List Path) :=
  (fs.listFiles layout.templatesDir).map fun files =>
    files.mergeSort fun a b => Text.atMost a.text b.text

/-- The targets for which there is a template. -/
def scheduled (layout : Layout) (fs : FileSystem) : Except Error (List Path) :=
  if !fs.isDirectory layout.templatesDir.text then
    .error (.templateDirectoryNotFound layout.templatesDir.text)
  else (templates layout fs).mapError Error.file

/-- The targets that are not files. -/
def missing (layout : Layout) (fs : FileSystem) (targets : List Path) : List Path :=
  targets.filter fun file => !fs.isFile (layout.target file).text

/-- Demands that every target is a file. -/
def check (layout : Layout) (fs : FileSystem) (targets : List Path) : Except Error Unit :=
  match missing layout fs targets with
  | [] => .ok ()
  | file :: files => .error (.targetsMissing ((file :: files).map Path.text))

/-! ## Target by target -/

/-- Writes a text to a target and then to its snapshot. -/
def writeTarget (layout : Layout) (file : Path) (content : Text) (fs : FileSystem) :
    FileSystem.Outcome FileError :=
  match fs.replaceText (layout.target file) content with
  | (.error e, fs) => (.error e, fs)
  | (.ok (), fs) => fs.replaceText (layout.snapshot file) content

/-- The entry of a target in the report, given what is to be written to it. -/
def appliedEntry (options : Options) (file : Path) (plan : Plan) : Applied where
  file := file
  state := plan.state
  accepted := options.accepted.contains file
  checksum := Sha256.checksum (Utf8.encode plan.content)
  written := !options.dryRun

/-- Applies the template of one target. -/
def applyTarget (layout : Layout) (config : Tree) (options : Options) (file : Path)
    (fs : FileSystem) : Except Failure Applied × FileSystem :=
  match judge fs layout config (options.accepted.contains file) file with
  | .error failure => (.error failure, fs)
  | .ok plan =>
    if options.dryRun then (.ok (appliedEntry options file plan), fs)
    else
      match writeTarget layout file plan.content fs with
      | (.error e, fs) => (.error (.access file e), fs)
      | (.ok (), fs) => (.ok (appliedEntry options file plan), fs)

/-- What a pass over targets comes to. -/
structure Pass where
  report : Report
  /-- The targets that had no snapshot when their turn came. -/
  unguarded : List Path
  /-- The files after the pass. -/
  after : FileSystem

/-- A report with the entry of one more target in front. -/
def Report.prepend (outcome : Except Failure Applied) (report : Report) : Report :=
  match outcome with
  | .ok applied => { report with applied := applied :: report.applied }
  | .error failure => { report with failures := failure :: report.failures }

/-- Applies the templates of some targets, one after the other. -/
def applyAll (layout : Layout) (config : Tree) (options : Options) :
    List Path → FileSystem → Pass
  | [], fs => ⟨⟨[], [], options.dryRun⟩, [], fs⟩
  | file :: files, fs =>
    let unguarded := !fs.isFile (layout.snapshot file).text
    let (outcome, fs) := applyTarget layout config options file fs
    let pass := applyAll layout config options files fs
    { report := pass.report.prepend outcome
      unguarded := if unguarded then file :: pass.unguarded else pass.unguarded
      after := pass.after }

/-- Applies all templates. -/
def run (layout : Layout) (config : Tree) (options : Options) (fs : FileSystem) :
    Except Error Pass :=
  match scheduled layout fs with
  | .error e => .error e
  | .ok targets =>
    match check layout fs targets with
    | .error e => .error e
    | .ok () => .ok (applyAll layout config options targets fs)

end LayeredConfig.Apply
