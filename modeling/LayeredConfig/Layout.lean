import LayeredConfig.Text.Basic

/-!
# Paths and the layout of a configuration directory

Where templates, snapshots and targets are follows from two directories and the path of the target
alone, by joining paths as texts.
-/

namespace LayeredConfig

/-!
## Paths

A path is a text in which `/` separates the components; a backslash in what is given as a path
counts as a separator too, so a path never holds one. Paths are compared as texts: two spellings
of one place are different paths.
-/

/-- A text without backslashes, read as components between slashes. -/
structure Path where
  /-- The spelling of the path. -/
  text : Text
  /-- Only `/` separates components. -/
  no_backslash : '\\' ∉ text
  deriving DecidableEq

namespace Path

/-- Equal spelling makes equal paths. -/
@[ext] theorem ext_text {p q : Path} (h : p.text = q.text) : p = q := by
  cases p; cases q; simp_all

/-- The path that a text names, with each backslash read as a slash. -/
def ofText (text : Text) : Path where
  text := Text.replaceChar '\\' '/' text
  no_backslash := by
    simp only [Text.replaceChar, List.mem_map, not_exists, not_and]
    intro c _ h
    split at h <;> simp_all

/-- A place below a path. Slashes at the beginning of the second part are dropped, so that it
always counts as relative to the first. -/
def join (base : Path) (relative : Text) : Path where
  text :=
    let tail := ((ofText relative).text).dropWhile (· = '/')
    if base.text = [] then tail
    else if base.text.getLast? = some '/' then base.text ++ tail
    else base.text ++ '/' :: tail
  no_backslash := by
    have hb := base.no_backslash
    have ht : '\\' ∉ ((ofText relative).text).dropWhile (· = '/') := fun h =>
      (ofText relative).no_backslash ((List.dropWhile_sublist _).subset h)
    dsimp only
    split
    · exact ht
    · split <;> simp_all

/-- The last component, not counting slashes at the end. -/
def fileName? (path : Path) : Option Text :=
  let trimmed := Text.trimEnd (· = '/') path.text
  match (Text.splitAt '/' trimmed).getLast? with
  | some (c :: name) => some (c :: name)
  | _ => none

/-- The number of slashes: a file at the top has depth zero. -/
def depth (path : Path) : Nat :=
  path.text.count '/'

end Path

/-!
## Layouts

A configuration directory holds the templates below `files` and, below `.files`, a snapshot of
what each target held when it was last written. Template, snapshot and target of one file have
the same path relative to the directory of templates, the directory of snapshots and the root of
the targets.
-/

/-- Where templates, snapshots and targets are. -/
structure Layout where
  /-- The directory of templates and snapshots. -/
  configDir : Path
  /-- The directory that targets are relative to. -/
  targetRoot : Path
  deriving DecidableEq

namespace Layout

/-- The configuration directory when none is named. -/
def defaultConfigDir : Text := "_overmodel".toList

/-- The name of the directory of templates. -/
def templatesName : Text := "files".toList

/-- The name of the directory of snapshots. -/
def snapshotsName : Text := ".files".toList

/-- The directory of templates. -/
def templatesDir (layout : Layout) : Path :=
  layout.configDir.join templatesName

/-- The directory of snapshots. -/
def snapshotsDir (layout : Layout) : Path :=
  layout.configDir.join snapshotsName

/-- The template of a target. -/
def template (layout : Layout) (relative : Path) : Path :=
  layout.templatesDir.join relative.text

/-- The snapshot of a target. -/
def snapshot (layout : Layout) (relative : Path) : Path :=
  layout.snapshotsDir.join relative.text

/-- The target itself. -/
def target (layout : Layout) (relative : Path) : Path :=
  layout.targetRoot.join relative.text

end Layout

end LayeredConfig
