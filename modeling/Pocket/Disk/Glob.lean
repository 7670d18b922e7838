import Pocket.Disk
import Pocket.Target.Pattern

/-!
# Globbing

The paths on a disk that a pattern describes. Every piece of the pattern between slashes is matched
with the names in a folder; folders and names come in bytewise order. What cannot be read is passed
over, and only a malformed pattern is an error.
-/

namespace Pocket.Disk

/-- The names in a folder, in bytewise order. -/
def names (d : Disk) (folder : Place) : List Text :=
  Text.sort (d.places.filterMap fun p =>
    match p with
    | name :: above => if above = folder then some name else none
    | [] => none)

/-- Whether a path holds a sign that has a meaning in patterns. -/
def hasMeta (path : Text) : Bool :=
  path.any fun b => ("*?[\\" : Text).contains b

/-- The folder part of a pattern, without the slash at its end. -/
def folderPattern (pattern : Text) : Text :=
  let folder := pattern.take (pattern.length - (Path.lastPiece pattern).length)
  if folder.isEmpty then "." else if folder = "/" then folder else folder.dropLast

/-- The paths in a folder whose last name a pattern describes; `none` stands for a malformed pattern,
which shows only if there is a name to try. -/
def globIn (d : Disk) (folder pattern : Text) : Option (List Text) :=
  match d.locate folder with
  | .error _ => some []
  | .ok p =>
    if d.entry? p = some .folder then
      match d.names p, Pattern.ofText? pattern with
      | [], _ => some []
      | _, none => none
      | found, some fit =>
        some ((found.filter fit.fits).map fun name => Path.join [folder, name])
    else some []

/-- The paths that a pattern describes; nothing if it is malformed. -/
def glob? (d : Disk) (pattern : Text) : Option (List Text) :=
  if (Pattern.ofText? pattern).isNone then none
  else if !hasMeta pattern then some (if d.has pattern then [pattern] else [])
  else
    let folder := folderPattern pattern
    let last := Path.lastPiece pattern
    if !hasMeta folder then d.globIn folder last
    else if _h : folder.length < pattern.length then do
      let folders ← d.glob? folder
      let found ← folders.mapM fun f => d.globIn f last
      some found.flatten
    else none
termination_by pattern.length

end Pocket.Disk
