import Pocket.Preprocess.Directive
import Pocket.Visited

/-!
# Preprocessing

Definitions are taken out of a source, the files it includes are spliced in, and macros are expanded
in its code. Every line of the source keeps its place: a definition leaves an empty line. A file is
spliced in at most once, and a file that is included while it is still being read is an error.

Every file that is read was not read before, so that the recursion through included files ends on
every disk.
-/

namespace Pocket

namespace Preprocess

/-- What carries over from line to line and through included files. -/
structure State where
  macros : Macros
  /-- The places of the files that have been spliced in. -/
  spliced : List Place
  region : Region
  deriving DecidableEq, Repr

/-- How many places of the disk have not been spliced in. -/
def State.remaining (disk : Disk) (s : State) : Nat :=
  unvisited disk.places s.spliced

/-- A later state: no file is there to be spliced in that was not there before. -/
abbrev State.Later (disk : Disk) (s : State) : Type :=
  { t : State // t.remaining disk ≤ s.remaining disk }

/-- The state once the file at a place has been spliced in. -/
def State.addSpliced (s : State) (place : Place) : State :=
  { s with spliced := place :: s.spliced }

/-- The path that an included file is looked for at: in the folder of the file that includes it, or,
if nothing is there, in the folder that relative paths start in. -/
def includePath (disk : Disk) (dir file : Text) : Text :=
  let near := Path.join [dir, file]
  let far := disk.absolute file
  match disk.locate near with
  | .error .noEntry => if disk.has far then far else near
  | _ => near

mutual

/-- The text that an inclusion is replaced by. `reading` holds the places of the files that are being
read. -/
def splice (disk : Disk) (depth : Nat) (dir : Text) (reading : List Place) (s : State)
    (line : Text) : Except Trouble (Text × s.Later disk) :=
  match Directive.includedFile line with
  | .error e => .error e
  | .ok file =>
    let path := includePath disk dir file
    if disk.place path ∈ reading then .error (.circularInclude file)
    else if _hs : disk.place path ∈ s.spliced then .ok ([], ⟨s, Nat.le_refl _⟩)
    else match _hr : disk.read path with
      | .error failure => .error (.unreadable file failure)
      | .ok content =>
        let place := disk.place path
        match run disk depth (Path.dir path) (place :: reading) 1 (s.addSpliced place)
            content.lines with
        | .error e => .error (.inFile file e)
        | .ok (text, t) =>
          if t.val.region = .code then
            .ok (text, ⟨t.val, Nat.le_trans t.property (unvisited_cons_le _ _ _)⟩)
          else .error (.unfinished file)
termination_by (s.remaining disk, 0)
decreasing_by
  exact Prod.Lex.left _ _ (unvisited_cons_lt (Disk.place_mem_places _hr) _hs)

/-- What one line is replaced by. -/
def replaceLine (disk : Disk) (depth : Nat) (dir : Text) (reading : List Place) (s : State)
    (line : Text) : Except Trouble (Text × s.Later disk) :=
  match if s.region = .code then Directive.ofLine line else .plain with
  | .definition rest => do
    let macros ← Directive.macrosAfter s.macros depth rest
    .ok ([], ⟨{ s with macros }, Nat.le_refl _⟩)
  | .inclusion line => splice disk depth dir reading s line
  | .plain => do
    let (segments, region) := s.region.cutLine line
    let text ← withinDepth depth (Segment.expandAll s.macros depth segments)
    .ok (text, ⟨{ s with region }, Nat.le_refl _⟩)
termination_by (s.remaining disk, 1)

/-- What the lines of a file are replaced by, the first of them having the given number. -/
def run (disk : Disk) (depth : Nat) (dir : Text) (reading : List Place) (number : Nat) (s : State)
    (lines : List Text) : Except Trouble (Text × s.Later disk) :=
  match lines with
  | [] => .ok ([], ⟨s, Nat.le_refl _⟩)
  | line :: rest =>
    match replaceLine disk depth dir reading s line with
    | .error e => .error (.onLine number e)
    | .ok (text, t) =>
      match run disk depth dir reading (number + 1) t.val rest with
      | .error e => .error e
      | .ok (more, u) =>
        .ok (if rest.isEmpty then text else text ++ "\n" ++ more,
          ⟨u.val, Nat.le_trans u.property t.property⟩)
termination_by (s.remaining disk, lines.length + 2)
decreasing_by
  · exact Prod.Lex.right _ (by simp)
  · rcases Nat.lt_or_eq_of_le t.property with h | h
    · exact Prod.Lex.left _ _ h
    · rw [h]
      exact Prod.Lex.right _ (by simp)

end

/-- The macros that are given from outside: each name stands for its value. -/
def seed (given : List (Text × Text)) : Macros :=
  given.map fun (name, value) => (name, ⟨[], value⟩)

/-- How deep calls of macros may nest in a source. -/
def standardDepth : Nat := 100000

end Preprocess

open Preprocess in
/-- Preprocesses a source that lies in the folder `dir`, with some macros given from outside. -/
def preprocess (disk : Disk) (depth : Nat) (dir : Text) (given : List (Text × Text))
    (source : Text) : Except Trouble Text :=
  (run disk depth dir [] 1 ⟨seed given, [], .code⟩ source.lines).map (·.1)

end Pocket
