import LayeredConfig.Text.Encoding

/-!
# File systems

A file system is a tree of directories with files and symbolic links in them, and one directory in
it is the working directory, where relative paths begin. A place in the tree is named by the names
on the way down to it; it is found, filled and emptied by recursion on these names, without any
link being followed.
-/

namespace LayeredConfig

/-- What a name in a directory stands for. -/
inductive DirEntry where
  | file (content : Bytes)
  /-- A symbolic link, with the path that it stands for. -/
  | link (target : Text)
  | directory (entries : List (Text × DirEntry))
  deriving Inhabited

/-- The entries of a directory by name. -/
abbrev Directory := Entries DirEntry

/-- The names from the root down to a place. -/
abbrev Location := List Text

namespace DirEntry

/-- The entry at a place below an entry. -/
def at? : Location → DirEntry → Option DirEntry
  | [], entry => some entry
  | name :: names, directory entries =>
    match Entries.get? name entries with
    | some entry => at? names entry
    | none => none
  | _ :: _, file _ => none
  | _ :: _, link _ => none

/-- Whether an entry is a directory. -/
def isDirectory : DirEntry → Bool
  | directory _ => true
  | _ => false

/-- Whether an entry is a file. -/
def isFile : DirEntry → Bool
  | file _ => true
  | _ => false

mutual

/-- The number of directories at and below an entry. -/
def directoryCount : DirEntry → Nat
  | file _ => 0
  | link _ => 0
  | directory entries => directoryCountOf entries + 1

/-- The number of directories among entries and below them. -/
def directoryCountOf : List (Text × DirEntry) → Nat
  | [] => 0
  | (_, entry) :: rest => directoryCount entry + directoryCountOf rest

end

end DirEntry

namespace Directory

/-- The directory with an entry at a place, in place of the one that was there before. Nothing
changes if the directory that the place is in does not exist. -/
def put (new : DirEntry) : Location → Directory → Directory
  | [], entries => entries
  | [name], entries => Entries.insert name new entries
  | name :: next :: names, entries =>
    match Entries.get? name entries with
    | some (.directory inner) =>
      Entries.insert name (.directory (put new (next :: names) inner)) entries
    | _ => entries

/-- The directory without the entry at a place. -/
def erase : Location → Directory → Directory
  | [], entries => entries
  | [name], entries => Entries.erase name entries
  | name :: next :: names, entries =>
    match Entries.get? name entries with
    | some (.directory inner) =>
      Entries.insert name (.directory (erase (next :: names) inner)) entries
    | _ => entries

end Directory

/-- A tree of directories and the place in it where relative paths begin. -/
structure FileSystem where
  /-- The entries of the root. -/
  root : Directory
  /-- The place of the working directory. -/
  workingDirectory : Location

namespace FileSystem

/-- The file system with nothing in it. -/
def empty : FileSystem := ⟨[], []⟩

/-- The entry at a place. -/
def at? (location : Location) (fs : FileSystem) : Option DirEntry :=
  DirEntry.at? location (.directory fs.root)

/-- The file system with an entry at a place. -/
def put (location : Location) (entry : DirEntry) (fs : FileSystem) : FileSystem :=
  { fs with root := Directory.put entry location fs.root }

/-- The file system without the entry at a place. -/
def erase (location : Location) (fs : FileSystem) : FileSystem :=
  { fs with root := Directory.erase location fs.root }

end FileSystem

end LayeredConfig
