import LayeredConfig.Apply.ReportJson
import LayeredConfig.FileSystem.Read
import LayeredConfig.Template.Render

/-!
# Judging a target

Whether a target may be written and with what, found by reading alone. A target that differs from
its snapshot was edited by hand and is kept, unless it has been accepted.
-/

namespace LayeredConfig

/-!
## Accepted targets

The targets that may be overwritten although they were edited, named by their paths relative to
the target root. What is given as such a path may begin with `./`, once or repeatedly, and after
that with slashes.
-/

/-- The spellings that have been accepted. -/
structure AcceptSet where
  /-- The relative paths, without the beginnings that do not count. -/
  paths : List Text
  deriving DecidableEq

namespace AcceptSet

/-- No target is accepted. -/
def empty : AcceptSet := ⟨[]⟩

/-- A text without any `./` it begins with. -/
def dropHere : Text → Text
  | '.' :: '/' :: rest => dropHere rest
  | text => text

/-- The relative path that an argument names. -/
def canonical (argument : Text) : Text :=
  (dropHere (Path.ofText argument).text).dropWhile (· = '/')

/-- The set with the target that an argument names. -/
def insert (argument : Text) (set : AcceptSet) : AcceptSet :=
  ⟨Text.addNew set.paths (canonical argument)⟩

/-- The set of the targets that a list of arguments names. -/
def ofList (arguments : List Text) : AcceptSet :=
  arguments.foldl (fun set argument => set.insert argument) empty

/-- Whether a target is accepted. -/
def contains (set : AcceptSet) (relative : Path) : Bool :=
  set.paths.contains relative.text

/-- Whether nothing is accepted. -/
def isEmpty (set : AcceptSet) : Bool :=
  set.paths.isEmpty

end AcceptSet

/-!
## Judging

A target that may be written has its template read and rendered, and only a complete text will
do.
-/

namespace Apply

/-- What is to be written to a target. -/
structure Plan where
  state : TargetState
  /-- The rendered template. -/
  content : Text
  deriving DecidableEq

/-- How a target and its snapshot compare. A target that may not be overwritten is a failure. -/
def compareSnapshot (fs : FileSystem) (layout : Layout) (accepted : Bool) (file : Path) :
    Except Failure TargetState :=
  if !fs.isFile (layout.snapshot file).text then .ok .noSnapshot
  else
    match fs.readBytes (layout.target file).text, fs.readBytes (layout.snapshot file).text with
    | .error e, _ => .error (.access file e)
    | _, .error e => .error (.access file e)
    | .ok target, .ok snapshot =>
      if target = snapshot then .ok .unchanged
      else if accepted then .ok .drifted
      else .error (.drift file (Diff.compare (Utf8.decodeLossy snapshot) (Utf8.decodeLossy target)))

/-- The text of a target under a configuration. -/
def renderTarget (fs : FileSystem) (layout : Layout) (config : Tree) (file : Path) :
    Except Failure Text :=
  match fs.readText (layout.template file).text with
  | .error e => .error (.access file e)
  | .ok template =>
    let rendered := Template.render config template
    if rendered.complete then .ok rendered.text else .error (.unresolved file rendered.missing)

/-- What is to be written to a target, unless it is to be left alone. -/
def judge (fs : FileSystem) (layout : Layout) (config : Tree) (accepted : Bool) (file : Path) :
    Except Failure Plan :=
  match compareSnapshot fs layout accepted file with
  | .error failure => .error failure
  | .ok state =>
    match renderTarget fs layout config file with
    | .error failure => .error failure
    | .ok content => .ok ⟨state, content⟩

end Apply

end LayeredConfig
