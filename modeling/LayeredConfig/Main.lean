import LayeredConfig.CommandLine.Run
import LayeredConfig.FileSystem.Edit

/-!
# The program

What the command line names is read from the disk into a file system value, together with all that
links in it lead to. The command runs on that value, and what it has changed is written to the
disk.
-/

namespace LayeredConfig.Program

/-! ## Reading -/

/-- The path of a place on the disk. -/
def diskPath (location : Location) : String :=
  "/" ++ String.ofList (Text.join ['/'] location)

/-- Reading collects the places that links lead to. -/
abbrev Reading := StateT (List Location) IO

mutual

/-- Reads an entry of a directory. A link that leads nowhere is read as one to the empty path. -/
partial def readEntry (entry : IO.FS.DirEntry) : Reading (Option DirEntry) := do
  match (← entry.path.symlinkMetadata).type with
  | .dir => return some (.directory (← readDirectory entry.path.toString))
  | .file => return some (.file (← IO.FS.readBinFile entry.path).toList)
  | .symlink =>
    try
      let target := (← IO.FS.realPath entry.path).toString.toList
      modify (FileSystem.placeOf [] target :: ·)
      return some (.link target)
    catch _ => return some (.link [])
  | .other => return none

/-- Reads a directory. -/
partial def readDirectory (path : String) : Reading Directory := do
  let mut found : Directory := []
  let real ← IO.FS.realPath path
  for entry in ← real.readDir do
    match ← readEntry entry with
    | some value => found := Entries.insert entry.fileName.toList value found
    | none => pure ()
  return found

end

/-- Adds what is at some places on the disk to a file system, and what links there lead to. What is
below a place that has been read is not read again. -/
partial def addAll (done : List Location) (fs : FileSystem) : List Location → IO FileSystem
  | [] => return fs
  | place :: places => do
    match place.getLast? with
    | some name =>
      if done.any fun above => above.isPrefixOf place then addAll done fs places
      else
        try
          let entry : IO.FS.DirEntry := ⟨diskPath place.dropLast, String.ofList name⟩
          let (found, more) ← (readEntry entry).run []
          let fs := (found.map fun value => fs.graft place value).getD fs
          addAll (place :: done) fs (more ++ places)
        catch _ => addAll done fs places
    | none => addAll done fs places

/-- The file system with the directories that a command line names. -/
def load (workingDirectory : Location) (paths : List Path) : IO FileSystem :=
  let empty : FileSystem := ⟨[], workingDirectory⟩
  addAll [] (empty.graft workingDirectory (.directory []))
    (paths.map fun path => FileSystem.placeOf workingDirectory path.text)

/-! ## Writing -/

/-- Makes a change on the disk. The content of a file is staged beside the file and renamed. -/
def write : FileSystem.Change → IO Unit
  | .directory place => IO.FS.createDirAll (diskPath place)
  | .file place content => do
    let path := diskPath place
    let staged := path ++ ".overmodel.tmp"
    IO.FS.writeBinFile staged ⟨content.toArray⟩
    IO.FS.rename staged path

end LayeredConfig.Program

open LayeredConfig in
/-- Runs the command line. -/
def main (arguments : List String) : IO UInt32 := do
  let environment := (← IO.getEnv "OVERMODEL_CONFIG_DIR").map String.toList
  let workingDirectory := FileSystem.placeOf [] (← IO.currentDir).toString.toList
  let arguments := arguments.map String.toList
  let before ← Program.load workingDirectory (CommandLine.namedPaths environment arguments)
  let outcome := CommandLine.run environment true arguments before
  for change in before.changes outcome.after do
    Program.write change
  (← IO.getStdout).putStr (String.ofList outcome.output)
  (← IO.getStderr).putStr (String.ofList outcome.diagnostics)
  return (outcome.ending.code % 256).toNat.toUInt32
