import Pocket.Command.Inspect

/-!
# The program

Takes a snapshot of the folders that the arguments speak of, runs the command on it and carries out
what the command says: print, write the files that have changed, and end with its status. The word
`inspect` in front of the arguments asks for an inspection instead of a command.
-/

open Pocket

namespace Pocket.Main

/-- The names on a path from the root, the last of them first. -/
def placeOf (path : String) : Place :=
  (Disk.mk [] []).place (.ofString path)

/-- The path of a place. -/
def pathOf (place : Place) : Option String :=
  let path : Text := "/" ++ Text.join "/" place.reverse
  String.fromUTF8? ⟨path.toArray⟩

/-- Adds the files and folders below a place to a disk. What cannot be read is left out. -/
partial def addEntries (disk : Disk) (place : Place) (entries : Array IO.FS.DirEntry) :
    IO Disk := do
  let mut disk := disk.makeFolder place
  for e in entries do
    let inner : Place := .ofString e.fileName :: place
    if ← e.path.isDir then
      let below ← try e.path.readDir catch _ => pure #[]
      disk ← addEntries disk inner below
    else
      try
        let content ← IO.FS.readBinFile e.path
        disk := disk.put inner content.data.toList
      catch _ => pure ()
  return disk

/-- Adds the folder with a path to a disk, if there is one. -/
def addFolder (disk : Disk) (path : String) : IO Disk := do
  try
    let real ← IO.FS.realPath path
    addEntries disk (placeOf real.toString) (← real.readDir)
  catch _ => return disk

/-- The disk that the arguments speak of: the folder that the program runs in, and the folders of the
files that are named. -/
def snapshot (args : List String) : IO Disk := do
  let here ← IO.currentDir
  let mut disk ← addFolder ⟨placeOf here.toString, []⟩ here.toString
  for arg in args do
    let folder := Path.dir (disk.absolute (.ofString arg))
    if (disk.entry? (disk.place folder)).isNone then
      if let some path := String.fromUTF8? ⟨folder.toArray⟩ then
        disk ← addFolder disk path
  return disk

/-- Writes the files that differ between two disks. -/
def writeChanges (old new : Disk) : IO Unit := do
  for (place, entry) in new.entries do
    if let .file content := entry then
      if old.entry? place != some entry then
        if let some path := pathOf place then
          IO.FS.writeBinFile path ⟨content.toArray⟩

end Pocket.Main

/-- Runs the command line. -/
def main (args : List String) : IO UInt32 := do
  let disk ← Pocket.Main.snapshot args
  let outcome := match args with
    | "inspect" :: rest => inspect disk (rest.map .ofString)
    | _ => runArgs disk (args.map .ofString)
  Pocket.Main.writeChanges disk outcome.disk
  (← IO.getStdout).write ⟨outcome.stdout.toArray⟩
  (← IO.getStderr).write ⟨outcome.stderr.toArray⟩
  return outcome.exit.toUInt32
