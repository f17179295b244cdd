import LayeredConfig.Error
import LayeredConfig.FileSystem.Basic

/-!
# Reading a file system

Every operation on files begins by following a path to an entry. Reading takes the content of the
file there, listing visits all that is below the directory there.
-/

namespace LayeredConfig

/-!
## Where a path leads

A path is followed step by step from the working directory, or from the root if it begins with a
slash. A name leads to an entry of the directory reached so far, a dot stays there and two dots
lead up. A link on the way is replaced by the path that it stands for; whether a link at the end
is too is up to the operation. A slash at the end asks for a directory. Every way follows at most
forty links.
-/

/-- A step on the way that a path describes. -/
inductive Step where
  | stay
  | up
  | down (name : Text)
  deriving DecidableEq

namespace Step

/-- The step that a piece of a path between slashes stands for; an empty piece is none. -/
def ofPiece? (piece : Text) : Option Step :=
  if piece = [] then none
  else if piece = ['.'] then some stay
  else if piece = ['.', '.'] then some up
  else some (down piece)

/-- The steps of a path. -/
def ofPath (path : Text) : List Step :=
  (Text.splitAt '/' path).filterMap ofPiece?

/-- The steps of a path to an entry: after a slash at the end there is one that stays, which only
a directory allows. -/
def toEntry (path : Text) : List Step :=
  if path.getLast? = some '/' then ofPath path ++ [stay] else ofPath path

/-- The place that a step leads to from a directory, if there is no link. -/
def next (here : Location) : Step → Location
  | stay => here
  | up => here.dropLast
  | down name => here ++ [name]

end Step

/-- Where a path leads. -/
inductive Destination where
  /-- There is an entry. -/
  | found (location : Location)
  /-- There is a directory for it, but nothing under its name. -/
  | vacant (directory : Location) (name : Text)
  deriving DecidableEq

namespace FileSystem

/-- Where a path begins that is read in some directory. -/
def start (here : Location) (path : Text) : Location :=
  if path.head? = some '/' then [] else here

/-- The place that a path names if no link is on the way. -/
def placeOf (workingDirectory : Location) (path : Text) : Location :=
  (Step.ofPath path).foldl Step.next (start workingDirectory path)

/-- Follows steps. What is done at a link is given; a link at the end is left alone unless
`followLast` holds. -/
def walkWith (onLink : (here : Location) → (target : Text) → List Step →
      Except OsError Destination) (followLast : Bool) (root : Directory) :
    (here : Location) → List Step → Except OsError Destination
  | here, [] => .ok (.found here)
  | here, step :: rest =>
    match DirEntry.at? here (.directory root) with
    | none => .error .notFound
    | some (.directory entries) =>
      match step with
      | .stay => walkWith onLink followLast root here rest
      | .up => walkWith onLink followLast root here.dropLast rest
      | .down name =>
        match Entries.get? name entries with
        | some (.link target) =>
          if rest = [] ∧ !followLast then .ok (.found (here ++ [name]))
          else onLink here target rest
        | some _ => walkWith onLink followLast root (here ++ [name]) rest
        | none => if rest = [] then .ok (.vacant here name) else .error .notFound
    | some _ => .error .notADirectory

/-- Follows steps and at most a number of links. -/
def walk (followLast : Bool) (root : Directory) :
    (links : Nat) → (here : Location) → List Step → Except OsError Destination
  | 0 => walkWith (fun _ _ _ => .error .linkLoop) followLast root
  | links + 1 =>
    walkWith
      (fun here target rest =>
        if target = [] then .error .notFound
        else walk followLast root links (start here target) (Step.toEntry target ++ rest))
      followLast root

/-- The number of links that are followed on one way. -/
def mostLinks : Nat := 40

/-- Follows the steps of a path; the empty path leads nowhere. -/
def follow (followLast : Bool) (path : Text) (steps : List Step) (fs : FileSystem) :
    Except OsError Destination :=
  if path = [] then .error .notFound
  else walk followLast fs.root mostLinks (start fs.workingDirectory path) steps

/-- The place of the entry that a path leads to, through all links. -/
def locate (path : Text) (fs : FileSystem) : Except OsError Location :=
  match fs.follow true path (Step.toEntry path) with
  | .ok (.found location) => .ok location
  | .ok (.vacant ..) => .error .notFound
  | .error reason => .error reason

/-- The entry that a path leads to, through all links. -/
def entry (path : Text) (fs : FileSystem) : Except OsError DirEntry :=
  match fs.locate path with
  | .error reason => .error reason
  | .ok location =>
    match fs.at? location with
    | some entry => .ok entry
    | none => .error .notFound

/-!
## Reading files

What a path leads to and what the file there holds. All links are followed. To open a directory is
allowed, to read from it is not.
-/

/-- Whether a path leads to a file. -/
def isFile (path : Text) (fs : FileSystem) : Bool :=
  match fs.entry path with
  | .ok entry => entry.isFile
  | .error _ => false

/-- Whether a path leads to a directory. -/
def isDirectory (path : Text) (fs : FileSystem) : Bool :=
  match fs.entry path with
  | .ok entry => entry.isDirectory
  | .error _ => false

/-- The content of the file that a path leads to. -/
def readBytes (path : Text) (fs : FileSystem) : Except FileError Bytes :=
  match fs.entry path with
  | .ok (.file content) => .ok content
  | .ok _ => .error (.access path .isADirectory)
  | .error reason => .error (.access path reason)

/-- The text in the file that a path leads to. -/
def readText (path : Text) (fs : FileSystem) : Except FileError Text :=
  match fs.readBytes path with
  | .error e => .error e
  | .ok content =>
    match Utf8.decode? content with
    | some text => .ok text
    | none => .error (.access path .invalidText)

/-!
## Listing the files below a directory

Every file below a directory is listed with its path relative to that directory. Links are
followed; a link that leads nowhere stops the listing, and so does a link to a directory that the
listing is in at that moment. Entries are visited in the order of their names.

A link that is followed leads to a directory that is not on the way to it, so the links on one
way lead to different directories, and the number of all directories bounds how many there are.
-/

/-- A directory on the way to an entry. -/
structure Visited where
  /-- Its place. -/
  location : Location
  /-- The path under which it was visited. -/
  shown : Text

/-- The path of an entry of the directory at a path. -/
def entryPath (directory name : Text) : Text :=
  if directory.getLast? = some '/' then directory ++ name else directory ++ '/' :: name

/-- The relative path of an entry of the directory at a relative path. -/
def entryRelative (directory name : Text) : Text :=
  if directory = [] then name else directory ++ '/' :: name

mutual

/-- The relative paths of the files at and below an entry. What is done at a link is given. -/
def filesAt (onLink : List Visited → (shown relative : Text) → Except FileError (List Text))
    (above : List Visited) (location : Location) (shown relative : Text) :
    DirEntry → Except FileError (List Text)
  | .file _ => .ok [relative]
  | .link _ => onLink above shown relative
  | .directory entries =>
    filesBelow onLink (⟨location, shown⟩ :: above) location shown relative entries

/-- The relative paths of the files among the entries of a directory and below them. -/
def filesBelow (onLink : List Visited → (shown relative : Text) → Except FileError (List Text))
    (above : List Visited) (location : Location) (shown relative : Text) :
    List (Text × DirEntry) → Except FileError (List Text)
  | [] => .ok []
  | (name, entry) :: rest => do
    let first ← filesAt onLink above (location ++ [name]) (entryPath shown name)
      (entryRelative relative name) entry
    let others ← filesBelow onLink above location shown relative rest
    return first ++ others

end

/-- The relative paths of the files at and below what a link leads to, following at most a number
of links on one way. -/
def filesBehind (fs : FileSystem) :
    (links : Nat) → List Visited → (shown relative : Text) → Except FileError (List Text)
  | 0, _, shown, _ => .error (.walk shown (.entry .linkLoop))
  | links + 1, above, shown, relative =>
    match fs.locate shown with
    | .error reason => .error (.walk shown (.entry reason))
    | .ok location =>
      match above.find? fun visited => visited.location = location with
      | some visited => .error (.walk shown (.loop visited.shown))
      | none =>
        match fs.at? location with
        | some entry => filesAt (filesBehind fs links) above location shown relative entry
        | none => .error (.walk shown (.entry .notFound))

/-- The files below a directory, by their paths relative to it. -/
def listFiles (directory : Path) (fs : FileSystem) : Except FileError (List Path) :=
  match fs.locate directory.text with
  | .error _ => .error (.notADirectory directory.text)
  | .ok location =>
    match fs.at? location with
    | some (.directory entries) =>
      let links := DirEntry.directoryCount (.directory fs.root)
      (filesAt (filesBehind fs links) [] location directory.text [] (.directory entries)).map
        fun relatives => relatives.map Path.ofText
    | _ => .error (.notADirectory directory.text)

end FileSystem

end LayeredConfig
