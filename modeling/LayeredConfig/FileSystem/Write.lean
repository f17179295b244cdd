import LayeredConfig.FileSystem.Read

/-!
# Replacing files

A file is replaced as a whole: the new content is staged under a fresh name in the directory of
the file, which is made if it is missing, and then renamed. So a reader finds the old content or
the new one. Where the renaming fails, the staged file is removed. A link is replaced and not
followed, a directory is not replaced at all.
-/

namespace LayeredConfig.FileSystem

/-!
## The paths above a path

The path above another one is found in its text alone: the last component is dropped, with the
slashes and the dots that name nothing around it. A dot at the beginning of a path is a component
of its own.
-/

/-- Whether a piece of a path between slashes names nothing. -/
def namesNothing (piece : Text) : Bool :=
  piece = [] || piece = ['.']

/-- Pieces of a path without those at the end that name nothing. -/
def dropNothing (pieces : List Text) : List Text :=
  (pieces.reverse.dropWhile namesNothing).reverse

/-- The path above a path; there is none above the empty path and the root. -/
def parent? (path : Text) : Option Text :=
  match Text.splitAt '/' path with
  | [] => none
  | first :: rest =>
    match dropNothing rest with
    | [] => if first = [] then none else some []
    | components =>
      let above := dropNothing components.dropLast
      if first = [] ∧ above = [] then some ['/']
      else some (Text.join ['/'] (first :: above))

/-- A path and the paths above it, the longest first, without the root and the empty path. Each
is shorter than the one before it, so the length of the path is fuel enough. -/
def ancestorsFrom : (fuel : Nat) → (path : Text) → List Text
  | 0, _ => []
  | fuel + 1, path =>
    match parent? path with
    | none => []
    | some above => path :: ancestorsFrom fuel above

/-- A path and the paths above it, the longest first, without the root and the empty path. -/
def ancestors (path : Text) : List Text :=
  ancestorsFrom (path.length + 1) path

/-- The directory in which the content of a file is made ready before it gets its name. -/
def stagingDirectory (path : Text) : Text :=
  match parent? path with
  | some (c :: above) => c :: above
  | _ => ['.']

/-! ## Directories -/

/-- The outcome of an operation and the file system after it. What an operation has done before
it fails stays done. -/
abbrev Outcome (ε : Type) := Except ε Unit × FileSystem

/-- Makes the directory at a path. -/
def makeDirectory (path : Text) (fs : FileSystem) : Except OsError FileSystem :=
  match fs.follow false path (Step.ofPath path) with
  | .ok (.vacant directory name) => .ok (fs.put (directory ++ [name]) (.directory []))
  | .ok (.found _) => .error .exists
  | .error reason => .error reason

/-- Makes the directory at the first of some paths, where the rest are the paths above it. A
directory above is made only if there is no place for the first one. -/
def makeFirst : (paths : List Text) → FileSystem → Outcome OsError
  | [], fs => (.ok (), fs)
  | path :: above, fs =>
    match fs.makeDirectory path with
    | .ok fs => (.ok (), fs)
    | .error .notFound =>
      match makeFirst above fs with
      | (.error reason, fs) => (.error reason, fs)
      | (.ok (), fs) =>
        match fs.makeDirectory path with
        | .ok fs => (.ok (), fs)
        | .error reason => if fs.isDirectory path then (.ok (), fs) else (.error reason, fs)
    | .error reason => if fs.isDirectory path then (.ok (), fs) else (.error reason, fs)

/-- Makes the directory at a path and the directories above it, as far as they are missing. -/
def createDirectories (path : Text) (fs : FileSystem) : Outcome OsError :=
  makeFirst (ancestors path) fs

/-! ## Staging -/

/-- A name that no entry of a directory has, because it is longer than all of them. -/
def freshName (entries : Directory) : Text :=
  let longest := (Entries.keys entries).foldl (fun n name => max n name.length) 0
  ".overmodel-".toList ++ List.replicate longest 'x' ++ ".tmp".toList

/-- Writes content to a new file in the directory at a path, and gives its place. -/
def stage (directory : Text) (content : Bytes) (fs : FileSystem) :
    Except OsError (Location × FileSystem) :=
  match fs.locate directory with
  | .error reason => .error reason
  | .ok location =>
    match fs.at? location with
    | some (.directory entries) =>
      let place := location ++ [freshName entries]
      .ok (place, fs.put place (.file content))
    | _ => .error .notADirectory

/-- The place that a file is renamed to. A path that ends in a dot or two names no place, and one
with a slash at the end names a directory. -/
def renamePlace (path : Text) (fs : FileSystem) : Except OsError Location :=
  let steps := Step.ofPath path
  match fs.follow true path (steps.dropLast ++ [.stay]) with
  | .error reason => .error reason
  | .ok (.vacant ..) => .error .notFound
  | .ok (.found directory) =>
    match steps.getLast? with
    | some (.down name) =>
      if path.getLast? = some '/' then .error .notADirectory else .ok (directory ++ [name])
    | _ => .error .busy

/-- Renames the file at a place, so that it replaces what is at a path. -/
def rename (source : Location) (path : Text) (fs : FileSystem) : Except OsError FileSystem :=
  match fs.renamePlace path with
  | .error reason => .error reason
  | .ok place =>
    match fs.at? place, fs.at? source with
    | some (.directory _), _ => .error .isADirectory
    | _, some entry => .ok ((fs.erase source).put place entry)
    | _, none => .error .notFound

/-- Replaces the file at a path. -/
def replace (path : Path) (content : Bytes) (fs : FileSystem) : Outcome FileError :=
  let directory := stagingDirectory path.text
  match fs.createDirectories directory with
  | (.error reason, fs) => (.error (.access directory reason), fs)
  | (.ok (), fs) =>
    match fs.stage directory content with
    | .error reason => (.error (.access directory reason), fs)
    | .ok (staged, fs) =>
      match fs.rename staged path.text with
      | .error reason => (.error (.access path.text reason), fs.erase staged)
      | .ok fs => (.ok (), fs)

/-- Replaces the file at a path by text. -/
def replaceText (path : Path) (content : Text) (fs : FileSystem) : Outcome FileError :=
  fs.replace path (Utf8.encode content)

end LayeredConfig.FileSystem
