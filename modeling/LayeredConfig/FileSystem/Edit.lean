import LayeredConfig.FileSystem.Write

/-!
# Changing a file system from outside

What happens to the files apart from the operations of this library: they are edited by hand
between two passes, and what a pass has changed is carried over to a larger file system.
-/

namespace LayeredConfig

/-!
## Editing by hand

What a person or another program does to files between two passes: writing through links, making
directories and links, and removing. A failure leaves everything as it is.
-/

namespace FileSystem

/-- Writes content to the file that a path leads to, which is made if it is missing. -/
def write (path : Text) (content : Bytes) (fs : FileSystem) : Except OsError FileSystem :=
  match fs.follow true path (Step.toEntry path) with
  | .error reason => .error reason
  | .ok (.vacant directory name) => .ok (fs.put (directory ++ [name]) (.file content))
  | .ok (.found location) =>
    match fs.at? location with
    | some (.directory _) => .error .isADirectory
    | _ => .ok (fs.put location (.file content))

/-- Makes a link to a path. -/
def link (path target : Text) (fs : FileSystem) : Except OsError FileSystem :=
  match fs.follow false path (Step.toEntry path) with
  | .error reason => .error reason
  | .ok (.found _) => .error .exists
  | .ok (.vacant directory name) => .ok (fs.put (directory ++ [name]) (.link target))

/-- Removes the entry at a path with all below it; a link is removed and not followed. -/
def remove (path : Text) (fs : FileSystem) : Except OsError FileSystem :=
  match fs.follow false path (Step.toEntry path) with
  | .error reason => .error reason
  | .ok (.vacant ..) => .error .notFound
  | .ok (.found location) => .ok (fs.erase location)

end FileSystem

/-!
## What has changed between two file systems

The files of a file system that another one does not hold with the same content, and the
directories that another one does not have. Together with grafting, which fills a place and makes
the directories above it, this is what it takes to work on part of a larger file system.
-/

/-- The directory with an entry at a place, and with the directories above that place. -/
def Directory.graft (new : DirEntry) : Location → Directory → Directory
  | [], entries => entries
  | [name], entries => Entries.insert name new entries
  | name :: next :: names, entries =>
    let inner :=
      match Entries.get? name entries with
      | some (.directory inner) => inner
      | _ => []
    Entries.insert name (.directory (graft new (next :: names) inner)) entries

namespace FileSystem

/-- The file system with an entry at a place, and with the directories above that place. -/
def graft (location : Location) (entry : DirEntry) (fs : FileSystem) : FileSystem :=
  { fs with root := Directory.graft entry location fs.root }

/-- A place that has to be filled to turn one file system into another. -/
inductive Change where
  | directory (location : Location)
  | file (location : Location) (content : Bytes)
  deriving DecidableEq

/-- Whether an entry is a file with some content. -/
def holds (content : Bytes) : Option DirEntry → Bool
  | some (.file old) => old = content
  | _ => false

mutual

/-- The changes from a file system to an entry at a place. -/
def changesAt (before : FileSystem) (location : Location) : DirEntry → List Change
  | .link _ => []
  | .file content => if holds content (before.at? location) then [] else [.file location content]
  | .directory entries =>
    (match before.at? location with
      | some _ => []
      | none => [.directory location]) ++ changesBelow before location entries

/-- The changes from a file system to the entries of a directory at a place. -/
def changesBelow (before : FileSystem) (location : Location) :
    List (Text × DirEntry) → List Change
  | [] => []
  | (name, entry) :: rest =>
    changesAt before (location ++ [name]) entry ++ changesBelow before location rest

end

/-- The places to be filled to turn one file system into another, every directory before what is
in it. -/
def changes (before after : FileSystem) : List Change :=
  changesBelow before [] after.root

end FileSystem

end LayeredConfig
