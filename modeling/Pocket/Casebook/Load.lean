import Pocket.Casebook
import Pocket.Disk.Glob

/-!
# Casebooks on a disk

The casebooks in the files that a pattern describes, under the names of the files without their
extension. Of two files of one name the later one counts.
-/

namespace Pocket.Casebook

/-- Why the casebooks cannot be loaded. -/
inductive LoadTrouble where
  | badPattern
  | file (failure : Disk.Failure)
  | book (path : Text) (trouble : Trouble)
  deriving DecidableEq, Repr

/-- The wording of a trouble. -/
def LoadTrouble.message : LoadTrouble → Text
  | .badPattern => "syntax error in pattern"
  | .file failure => failure.message
  | .book path trouble => path ++ ": " ++ trouble.message

/-- The name of the casebook in a file. -/
def bookName (path : Text) : Text :=
  (Path.base path).dropEnding (Path.ext path)

/-- Loads the casebook in one file. -/
def loadOne (disk : Disk) (path : Text) : Except LoadTrouble (Text × List Case) :=
  match disk.read path with
  | .error failure => .error (.file failure)
  | .ok content => match ofText content with
    | .error trouble => .error (.book path trouble)
    | .ok cases => .ok (bookName path, cases)

/-- Keeps the last book of every name, in the order of the names. -/
def byName (books : List (Text × List Case)) : List (Text × List Case) :=
  (Text.sort (books.map (·.1)).eraseDups).filterMap fun name =>
    (books.reverse.lookup name).map (name, ·)

/-- Loads the casebooks that a pattern describes. -/
def load (disk : Disk) (pattern : Text) : Except LoadTrouble (List (Text × List Case)) :=
  match disk.glob? pattern with
  | none => .error .badPattern
  | some paths => (paths.mapM (loadOne disk)).map byName

end Pocket.Casebook
