import Pocket.Text.Basic

/-!
# Paths

A path is a text of names between slashes. The functions here read and change paths as texts, without
looking at what exists: a path is cleaned by dropping the steps that lead nowhere and letting `..`
cancel the name before it.
-/

namespace Pocket.Path

/-- Whether a path starts at the root. -/
def isAbsolute (path : Text) : Bool :=
  path.startsWith "/"

/-- The pieces of a path between its slashes. -/
def pieces (path : Text) : List Text :=
  path.split '/'.toUInt8

/-- One more piece after the names walked so far, the last of them first. Empty pieces and `.` stay,
`..` goes back; before the first name, `..` stays at the root, or is kept if the path has none. -/
def step (rooted : Bool) (names : List Text) (piece : Text) : List Text :=
  if piece = [] || piece = "." then names
  else if piece = ".." then
    match names with
    | [] => if rooted then [] else [piece]
    | last :: before => if last = ".." then piece :: names else before
  else piece :: names

/-- The shortest path that says the same. The empty path says `.`. -/
def clean (path : Text) : Text :=
  let rooted := isAbsolute path
  let names := ((pieces path).foldl (step rooted) []).reverse
  if rooted then "/" ++ Text.join "/" names
  else if names.isEmpty then "."
  else Text.join "/" names

/-- Paths put together with slashes and cleaned; empty ones do not count. -/
def join (paths : List Text) : Text :=
  match paths.filter fun p => !p.isEmpty with
  | [] => []
  | named => clean (Text.join "/" named)

/-- What stands after the last slash of a path. -/
def lastPiece (path : Text) : Text :=
  (path.reverse.takeWhile (· != '/'.toUInt8)).reverse

/-- The folder that a path lies in. -/
def dir (path : Text) : Text :=
  clean (path.take (path.length - (lastPiece path).length))

/-- The last name of a path. -/
def base (path : Text) : Text :=
  let body := (path.reverse.dropWhile (· == '/'.toUInt8)).reverse
  if path.isEmpty then "." else if body.isEmpty then "/" else lastPiece body

/-- The extension of the last piece, from its last dot on; empty if it has no dot. -/
def ext (path : Text) : Text :=
  let piece := (lastPiece path).reverse
  match piece.dropWhile (· != '.'.toUInt8) with
  | [] => []
  | dot :: _ => dot :: (piece.takeWhile (· != '.'.toUInt8)).reverse

/-- The path with its extension replaced. A path that has no extension, or has the new one already,
gets the new one appended, so that the result always differs from the path if `ext` is not empty. -/
def withExt (path newExt : Text) : Text :=
  let old := ext path
  if old.isEmpty || old = newExt then path ++ newExt
  else path.dropEnding old ++ newExt

/-- The path as seen from the root, for a reader in the folder `here`. -/
def absolute (here path : Text) : Text :=
  if isAbsolute path then clean path else join [here, path]

end Pocket.Path
