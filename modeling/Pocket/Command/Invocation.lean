import Pocket.Command.Flags

/-!
# Invocations

What the arguments of the command line ask for: settings that every command shares, and one command.
-/

namespace Pocket

/-- The settings that every command shares. -/
structure Settings where
  /-- The file with the target profile; empty for the standard profile. -/
  target : Text
  /-- Macros given as `NAME` or `NAME=VALUE`. -/
  defines : List Text
  /-- Whether functions that cannot be reached are left out, whatever the profile says. -/
  stripUnused : Bool
  deriving DecidableEq, Repr

/-- A command with its arguments. -/
inductive Command where
  /-- Compiles one source; `output` is the file to write, `-` for the standard output, and empty for
  a name made from that of the source. `outlined` asks for the declarations, too. -/
  | build (output : Text) (outlined : Bool) (files : List Text)
  /-- Compiles several sources, into a folder or, if that is empty, next to the sources. -/
  | batch (folder : Text) (files : List Text)
  /-- Lists the functions of a source and the routines it calls. -/
  | symbols (files : List Text)
  /-- Writes the standard profile to a file. -/
  | init (force : Bool) (files : List Text)
  /-- Says how the program is used. -/
  | usage
  deriving DecidableEq, Repr

namespace Command

/-- Why arguments are no command. -/
inductive Misuse where
  | flag (m : Flag.Misuse)
  | unknownCommand (name : Text)
  deriving DecidableEq, Repr

/-- The flags that stand before the command. Tracing has nothing to show and is accepted. -/
def sharedFlags : List Flag :=
  [⟨"target", none, .text⟩, ⟨"define", some "D", .text⟩, ⟨"strip-unused", none, .switch⟩,
   ⟨"trace", none, .switch⟩]

/-- The flags of `build`. -/
def buildFlags : List Flag :=
  [⟨"output", some "o", .text⟩, ⟨"dump-ast", none, .switch⟩]

/-- The flags of `batch`. The number of jobs does not change what is written. -/
def batchFlags : List Flag :=
  [⟨"jobs", some "j", .number⟩, ⟨"out-dir", none, .text⟩]

/-- The flags of `init`. -/
def initFlags : List Flag :=
  [⟨"force", none, .switch⟩]

/-- Reads a command from its name and arguments. -/
def ofArgs (name : Text) (args : List Text) : Except Misuse Command :=
  let parse (flags : List Flag) : Except Misuse (Flag.Given × List Text) :=
    (Flag.parse flags args).mapError .flag
  if name = "build" then do
    let (given, files) ← parse buildFlags
    .ok (.build (given.text "output") (given.isOn "dump-ast") files)
  else if name = "batch" then do
    let (given, files) ← parse batchFlags
    .ok (.batch (given.text "out-dir") files)
  else if name = "symbols" then do
    let (_, files) ← parse []
    .ok (.symbols files)
  else if name = "init" then do
    let (given, files) ← parse initFlags
    .ok (.init (given.isOn "force") files)
  else if name = "help" || name = "h" then .ok .usage
  else .error (.unknownCommand name)

end Command

/-- Reads the arguments of the command line. -/
def invocation (args : List Text) : Except Command.Misuse (Settings × Command) := do
  let (given, rest) ← (Flag.parse Command.sharedFlags args).mapError Command.Misuse.flag
  let settings : Settings :=
    ⟨given.text "target", given.texts "define", given.isOn "strip-unused"⟩
  match rest with
  | [] => .ok (settings, .usage)
  | name :: args => .ok (settings, ← Command.ofArgs name args)

end Pocket
