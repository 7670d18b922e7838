import Pocket.Path

/-!
# Disks

A tree of folders and files as a value, together with the folder that relative paths start in. A path
is followed name by name, and the way it fails is the way a Unix system says it. Following a path
leads to the same place as cleaning it as a text, because there are no links.
-/

namespace Pocket

/-- A place in the tree: the names on the way to it from the root, the last of them first. -/
abbrev Place := List Text

namespace Disk

/-- What a place may hold. -/
inductive Entry where
  | file (content : Text)
  | folder
  deriving DecidableEq, Repr

/-- Why a path cannot be used. -/
inductive Reason where
  | noEntry
  | notFolder
  | isFolder
  | badName
  | nameTooLong
  deriving DecidableEq, Repr

/-- The wording of a reason. -/
def Reason.message : Reason → Text
  | .noEntry => "no such file or directory"
  | .notFolder => "not a directory"
  | .isFolder => "is a directory"
  | .badName => "invalid argument"
  | .nameTooLong => "file name too long"

/-- What was attempted. -/
inductive Attempt where
  | open
  | read
  deriving DecidableEq, Repr

/-- The name of an attempt. -/
def Attempt.name : Attempt → Text
  | .open => "open"
  | .read => "read"

/-- A failed attempt on a path. -/
structure Failure where
  attempt : Attempt
  path : Text
  reason : Reason
  deriving DecidableEq, Repr

/-- The wording of a failure. -/
def Failure.message (f : Failure) : Text :=
  f.attempt.name ++ " " ++ f.path ++ ": " ++ f.reason.message

end Disk

/-- A tree of folders and files, and the folder that relative paths start in. -/
structure Disk where
  here : Place
  entries : List (Place × Disk.Entry)
  deriving DecidableEq, Repr

namespace Disk

/-- The longest name a folder can hold. -/
def longestName : Nat := 255

/-- What a place holds; the root is always a folder. -/
def entry? (d : Disk) (p : Place) : Option Entry :=
  if p = [] then some .folder else d.entries.lookup p

/-- The places that hold something. -/
def places (d : Disk) : List Place :=
  d.entries.map (·.1)

/-- The path of the folder that relative paths start in. -/
def herePath (d : Disk) : Text :=
  "/" ++ Text.join "/" d.here.reverse

/-- The path as seen from the root. -/
def absolute (d : Disk) (path : Text) : Text :=
  Path.absolute d.herePath path

/-- The place that following a path starts at. -/
def start (d : Disk) (path : Text) : Place :=
  if Path.isAbsolute path then [] else d.here

/-- The place that a path leads to, whether or not it exists. -/
def place (d : Disk) (path : Text) : Place :=
  (Path.pieces path).foldl (Path.step true) (d.start path)

/-! ### Following paths -/

/-- Follows the pieces of a path. Every place on the way has to be a folder, and every piece has to
lead to something. -/
def walk (d : Disk) : Place → List Text → Except Reason Place
  | p, [] => .ok p
  | p, piece :: rest =>
    match d.entry? p with
    | some .folder =>
      let next := Path.step true p piece
      if longestName < piece.length then .error .nameTooLong
      else if (d.entry? next).isSome then walk d next rest
      else .error .noEntry
    | some (.file _) => .error .notFolder
    | none => .error .noEntry

/-- The place that a path leads to, if it exists. -/
def locate (d : Disk) (path : Text) : Except Reason Place :=
  if path = [] then .error .noEntry
  else if path.contains 0 then .error .badName
  else d.walk (d.start path) (Path.pieces path)

/-- Whether a path leads to something. -/
def has (d : Disk) (path : Text) : Bool :=
  (d.locate path).isOk

/-- The content of the file that a path leads to. -/
def read (d : Disk) (path : Text) : Except Failure Text :=
  match d.locate path with
  | .error reason => .error ⟨.open, path, reason⟩
  | .ok p => match d.entry? p with
    | some (.file content) => .ok content
    | some .folder => .error ⟨.read, path, .isFolder⟩
    | none => .error ⟨.open, path, .noEntry⟩

/-! ### Writing -/

/-- The place that a file with this path would be created at, or the place of the file that would be
replaced. A path that ends in a slash or a dot names a folder. -/
def target (d : Disk) (path : Text) : Except Reason Place :=
  if path = [] then .error .noEntry
  else if path.contains 0 then .error .badName
  else match (Path.pieces path).reverse.dropWhile (·.isEmpty) with
    | [] => .error .isFolder
    | name :: before => do
      let folder ← d.walk (d.start path) before.reverse
      match d.entry? folder with
      | some .folder =>
        let p := Path.step true folder name
        if name = "." || name = ".." || Path.lastPiece path = [] then .error .isFolder
        else if longestName < name.length then .error .nameTooLong
        else if d.entry? p = some .folder then .error .isFolder
        else .ok p
      | _ => .error .notFolder

/-- The disk with a file put at a place. -/
def put (d : Disk) (p : Place) (content : Text) : Disk :=
  { d with entries := (p, .file content) :: d.entries.filter (·.1 ≠ p) }

/-- The disk with a folder at a place and at every place above it, where nothing is yet. -/
def makeFolder (d : Disk) : Place → Disk
  | [] => d
  | name :: above =>
    let e := makeFolder d above
    if (e.entry? (name :: above)).isSome then e
    else { e with entries := (name :: above, .folder) :: e.entries }

/-- The disk with a file put at a place and folders made above it. -/
def install (d : Disk) (p : Place) (content : Text) : Disk :=
  (d.makeFolder p.tail).put p content

/-- Creates the file with a path, or replaces its content. -/
def write (d : Disk) (path content : Text) : Except Failure Disk :=
  match d.target path with
  | .error reason => .error ⟨.open, path, reason⟩
  | .ok p => .ok (d.put p content)

/-! ### What is read lies at the place of its path -/

theorem walk_eq {d : Disk} {p q : Place} {pieces : List Text} (h : d.walk p pieces = .ok q) :
    q = pieces.foldl (Path.step true) p := by
  induction pieces generalizing p with
  | nil => simpa [walk] using h.symm
  | cons piece rest ih =>
    rw [walk] at h
    split at h
    · dsimp only at h
      split at h
      · cases h
      · split at h
        · exact ih h
        · cases h
    · cases h
    · cases h

theorem locate_eq {d : Disk} {path : Text} {q : Place} (h : d.locate path = .ok q) :
    q = d.place path := by
  unfold locate at h
  split at h
  · cases h
  · split at h
    · cases h
    · exact walk_eq h

theorem mem_places_of_entry? {d : Disk} {p : Place} {content : Text}
    (h : d.entry? p = some (.file content)) : p ∈ d.places := by
  unfold entry? at h
  split at h
  · cases h
  · have : (p, Entry.file content) ∈ d.entries := by
      generalize d.entries = es at h
      induction es with
      | nil => cases h
      | cons e es ih =>
        obtain ⟨q, v⟩ := e
        rw [List.lookup_cons] at h
        split at h
        · next hq =>
          cases h
          rw [eq_of_beq hq]
          exact List.mem_cons_self
        · exact List.mem_cons_of_mem _ (ih h)
    exact List.mem_map_of_mem this

/-- A file that could be read lies at the place that its path names. -/
theorem place_mem_places {d : Disk} {path content : Text} (h : d.read path = .ok content) :
    d.place path ∈ d.places := by
  unfold read at h
  split at h
  · cases h
  · next p hp =>
    rw [← locate_eq hp]
    split at h
    · next hc => exact mem_places_of_entry? hc
    · cases h
    · cases h

end Disk

end Pocket
