import Pocket.Disk
import Pocket.Target.Profile
import Pocket.Yaml.Reader
import Pocket.Yaml.Writer

/-!
# Stored profiles

A profile is stored as a mapping, one key for each of its fields. Reading lays a mapping over the
standard profile: keys that are missing keep their standard value, and unknown keys do not count.
-/

namespace Pocket

namespace Profile

/-- A field of a profile, by the kind of its value. -/
inductive Field where
  | text (get : Profile → Text) (set : Text → Profile → Profile)
  | list (get : Profile → List Text) (set : List Text → Profile → Profile)
  | flag (get : Profile → Bool) (set : Bool → Profile → Profile)

/-- A field with the key it is stored under. -/
structure Key where
  name : Text
  field : Field
  /-- Whether the key is left out if its value is empty. -/
  optional : Bool

/-- The keys of a profile in the order they are written in. -/
def keys : List Key := [
  ⟨"name", .text name fun v p => { p with name := v }, false⟩,
  ⟨"header", .list header fun v p => { p with header := v }, false⟩,
  ⟨"footer", .list footer fun v p => { p with footer := v }, false⟩,
  ⟨"entry", .text entry fun v p => { p with entry := v }, false⟩,
  ⟨"start_label", .text startLabel fun v p => { p with startLabel := v }, false⟩,
  ⟨"exit", .list exit fun v p => { p with exit := v }, false⟩,
  ⟨"accumulator", .text accumulator fun v p => { p with accumulator := v }, false⟩,
  ⟨"load", .text load fun v p => { p with load := v }, false⟩,
  ⟨"call", .text call fun v p => { p with call := v }, false⟩,
  ⟨"os_call", .text osCall fun v p => { p with osCall := v }, false⟩,
  ⟨"return", .text ret fun v p => { p with ret := v }, false⟩,
  ⟨"transfers", .list transfers fun v p => { p with transfers := v }, false⟩,
  ⟨"external", .list external fun v p => { p with external := v }, false⟩,
  ⟨"symbols", .list symbols fun v p => { p with symbols := v }, true⟩,
  ⟨"strict", .flag strict fun v p => { p with strict := v }, false⟩,
  ⟨"label_prefix", .text labelPrefix fun v p => { p with labelPrefix := v }, true⟩,
  ⟨"comments", .flag comments fun v p => { p with comments := v }, false⟩,
  ⟨"strip_unused", .flag stripUnused fun v p => { p with stripUnused := v }, false⟩]

/-- A profile whose fields are all empty. -/
def blank : Profile :=
  ⟨[], [], [], [], [], [], [], [], [], [], [], [], [], [], false, [], false, false⟩

/-! ### Writing -/

/-- The value of a field as it is written. -/
def Field.datum (f : Field) (p : Profile) : Yaml.Datum :=
  match f with
  | .text get _ => .text (get p)
  | .list get _ => .list (get p)
  | .flag get _ => .flag (get p)

/-- Whether a key is written. -/
def Key.isWritten (k : Key) (p : Profile) : Bool :=
  !k.optional || !(k.field.datum p == .text [] || k.field.datum p == .list [])

/-- The text that a profile is stored as. -/
def toYaml (p : Profile) : Text :=
  Yaml.writeMapping ((keys.filter (·.isWritten p)).map fun k => (k.name, k.field.datum p))

/-! ### Reading -/

/-- The text that a scalar means in a text field. -/
def scalarText (s : Yaml.Scalar) : Text :=
  if s.isNull then [] else s.text

/-- A field set to a value that was read; nothing if the value is not of its kind. -/
def Field.read? (f : Field) (value : Yaml.Value) (p : Profile) : Option Profile :=
  match f, value with
  | .text _ set, .scalar s => some (set (scalarText s) p)
  | .list _ set, .list items => (items.mapM (Option.map scalarText)).map (set · p)
  | .list _ set, .scalar s => if s.isNull then some (set [] p) else none
  | .flag _ set, .scalar s => if s.isNull then some (set false p) else s.bool?.map (set · p)
  | _, _ => none

/-- A profile with one entry of a mapping laid over it. -/
def overlayEntry? (p : Profile) (entry : Text × Yaml.Value) : Option Profile :=
  match keys.find? (·.name = entry.1) with
  | some k => k.field.read? entry.2 p
  | none => some p

/-- A profile with a document laid over it. -/
def overlay? (p : Profile) : Yaml.Document → Option Profile
  | .empty => some p
  | .null => some blank
  | .mapping entries => entries.foldlM overlayEntry? p

/-- Why a stored profile cannot be used. -/
inductive LoadTrouble where
  | file (failure : Disk.Failure)
  | malformed
  | flaw (f : Flaw)
  deriving DecidableEq, Repr

/-- The wording of a trouble. -/
def LoadTrouble.message : LoadTrouble → Text
  | .file failure => failure.message
  | .malformed => "target profile: not a mapping of profile keys"
  | .flaw f => f.message

/-- Reads a stored profile and checks it. -/
def ofYaml (t : Text) : Except LoadTrouble Profile :=
  match (Yaml.Document.ofText? t).bind standard.overlay? with
  | none => .error .malformed
  | some p => match p.flaw? with
    | some f => .error (.flaw f)
    | none => .ok p

/-- Loads the profile that is stored in a file. -/
def load? (disk : Disk) (path : Text) : Except LoadTrouble Profile :=
  match disk.read path with
  | .error failure => .error (.file failure)
  | .ok content => ofYaml content

/-- Stores a profile in a file. -/
def save (p : Profile) (disk : Disk) (path : Text) : Except Disk.Failure Disk :=
  disk.write path p.toYaml

end Profile

end Pocket
