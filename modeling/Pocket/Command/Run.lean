import Pocket.Batch
import Pocket.Command.Invocation
import Pocket.Diagnostic
import Pocket.Preprocess
import Pocket.Program.Outline
import Pocket.Target.Schema
import Pocket.Text.Grid

/-!
# Commands

What each command does, as a function from the disk it finds to the texts it prints, the status it
ends with and the disk it leaves. Sources are read and preprocessed before anything is written.
-/

namespace Pocket

/-- The end of a command. -/
structure Outcome where
  exit : Nat
  stdout : Text
  stderr : Text
  disk : Disk
  deriving DecidableEq, Repr

namespace Command

/-- The name of the program, as it stands in front of its messages. -/
def programName : Text := "calcc"

/-- The extension of assembly files. -/
def outputExt : Text := ".z80"

/-- A message with the name of the program in front, on a line of its own. -/
def logLine (message : Text) : Text :=
  programName ++ ": " ++ message ++ "\n"

/-- A diagnostic on lines of its own. -/
def errorLines (diagnostic : Text) : Text :=
  "error: " ++ diagnostic ++ "\n"

/-- A command that was asked for in the wrong way. -/
def refuse (disk : Disk) (status : Nat) (message : Text) : Outcome :=
  ⟨status, [], message ++ "\n", disk⟩

/-- A command that could not go on. -/
def fail (disk : Disk) (message : Text) : Outcome :=
  ⟨1, [], logLine message, disk⟩

/-! ### Sources -/

/-- Macros from `NAME` and `NAME=VALUE`. A bare name stands for 1, and the last value of a name
counts. -/
def defines (given : List Text) : List (Text × Text) :=
  given.foldl (fun done define =>
    let (name, value) := (Text.cut? '='.toUInt8 define).getD (define, "1")
    (name.trim, value) :: done.filter (·.1 ≠ name.trim)) []

/-- Why a command could not start. -/
inductive Trouble where
  | profile (file : Text) (trouble : Profile.LoadTrouble)
  | unreadable (file : Text) (failure : Disk.Failure)
  | preprocess (file : Text) (trouble : Preprocess.Trouble)
  deriving DecidableEq, Repr

/-- The wording of a trouble. -/
def Trouble.message : Trouble → Text
  | .profile file trouble => "loading " ++ file ++ ": " ++ trouble.message
  | .unreadable file failure =>
    "failed to read input file " ++ file.quote ++ ": " ++ failure.message
  | .preprocess file trouble => file ++ ": " ++ trouble.message

/-- The profile that the settings ask for. -/
def loadProfile (disk : Disk) (s : Settings) : Except Trouble Profile := do
  let p ← if s.target.isEmpty then .ok Profile.standard
    else (Profile.load? disk s.target).mapError (.profile s.target)
  .ok (if s.stripUnused then { p with stripUnused := true } else p)

/-- Reads and preprocesses a source. -/
def readSource (disk : Disk) (s : Settings) (file : Text) : Except Trouble Text := do
  let content ← (disk.read file).mapError (.unreadable file)
  let dir := Path.dir (disk.absolute file)
  (preprocess disk Preprocess.standardDepth dir (defines s.defines) content).mapError
    (.preprocess file)

/-- A refusal shown against its source. -/
def refusalDiagnostic (file source : Text) : Refusal → Text
  | .profile flaw => Diagnostic.renderPlain file flaw.message
  | .source fault => Diagnostic.render file source fault.report

/-- A trouble in a batch shown against its source. -/
def troubleDiagnostic (file source : Text) : Batch.Trouble → Text
  | .refused r => refusalDiagnostic file source r
  | t => Diagnostic.renderPlain file t.message

/-- A failure to write shown against its source. -/
def writeDiagnostic (file source : Text) (failure : Disk.Failure) : Text :=
  refusalDiagnostic file source (.source (.emit (.refused failure.message)))

/-! ### build -/

/-- What a successful compilation leaves behind. -/
def buildOutput (disk : Disk) (file source destination shown : Text) (o : Output) : Outcome :=
  if destination = "-" then ⟨0, shown ++ o.text, [], disk⟩
  else match disk.write destination o.text with
    | .error failure => ⟨1, shown, errorLines (writeDiagnostic file source failure), disk⟩
    | .ok after =>
      let count := Text.ofNat o.program.decls.length
      ⟨0, shown, logLine (file ++ " -> " ++ destination ++ " (" ++ count ++ " functions)"), after⟩

/-- Compiles one source. -/
def runBuild (disk : Disk) (s : Settings) (output : Text) (outlined : Bool)
    (files : List Text) : Outcome :=
  match files with
  | [file] =>
    match loadProfile disk s, readSource disk s file with
    | .error t, _ => fail disk t.message
    | .ok _, .error t => fail disk t.message
    | .ok p, .ok source =>
      match compile p source with
      | .error r => ⟨1, [], errorLines (refusalDiagnostic file source r), disk⟩
      | .ok o =>
        let shown : Text :=
          if outlined then (Outline.ofDecls o.program.decls).render 0 ++ "\n" else []
        let destination := if output.isEmpty then Path.withExt file outputExt else output
        buildOutput disk file source destination shown o
  | _ => refuse disk 2 "build needs exactly one source file"

/-! ### batch -/

/-- Why the files of a batch cannot be compiled together. -/
inductive Clash where
  | repeated (file : Text)
  | sameOutput (first second output : Text)
  deriving DecidableEq, Repr

/-- The wording of a clash. -/
def Clash.message : Clash → Text
  | .repeated file => file ++ " is listed more than once"
  | .sameOutput first second output =>
    first ++ " and " ++ second ++ " would both write " ++ output

/-- The file that a source of a batch is written to. -/
def batchOutput (folder file : Text) : Text :=
  let output := Path.withExt file outputExt
  if folder.isEmpty then output else Path.join [folder, Path.base output]

/-- The sources with the files they are written to, after those in `done`. No two of these files may
be the same. -/
def batchOutputsFrom (folder : Text) (done : List (Text × Text)) :
    List Text → Except Clash (List (Text × Text))
  | [] => .ok done
  | file :: rest =>
    let output := batchOutput folder file
    match done.find? fun d => Path.clean d.2 = Path.clean output with
    | some (first, _) =>
      .error (if first = file then .repeated file else .sameOutput first file output)
    | none => batchOutputsFrom folder (done ++ [(file, output)]) rest

/-- The sources of a batch with the files they are written to. -/
def batchOutputs (folder : Text) (files : List Text) : Except Clash (List (Text × Text)) :=
  batchOutputsFrom folder [] files

/-- How far the writing of a batch has got. -/
structure BatchState where
  disk : Disk
  stderr : Text
  failed : Nat
  deriving DecidableEq, Repr

/-- Writes one result of a batch, or shows why there is none. -/
def writeResult (state : BatchState) (output source : Text) (r : Batch.Result) : BatchState :=
  let failure (diagnostic : Text) : BatchState :=
    { state with stderr := state.stderr ++ errorLines diagnostic, failed := state.failed + 1 }
  match r.outcome with
  | .error t => failure (troubleDiagnostic r.name source t)
  | .ok o => match state.disk.write output o.text with
    | .error f => failure (writeDiagnostic r.name source f)
    | .ok disk =>
      { state with disk, stderr := state.stderr ++ logLine (r.name ++ " -> " ++ output) }

/-- Writes the results of a batch in their order. -/
def writeResults (disk : Disk) (p : Profile) (outputs : List (Text × Text))
    (sources : List Source) : BatchState :=
  let results := Batch.compileAll p false sources
  ((outputs.zip sources).zip results).foldl
    (fun state ((output, source), r) => writeResult state output.2 source.text r) ⟨disk, [], 0⟩

/-- Compiles several sources. -/
def runBatch (disk : Disk) (s : Settings) (folder : Text) (files : List Text) : Outcome :=
  if files.isEmpty then refuse disk 2 "batch needs at least one source file"
  else match loadProfile disk s with
    | .error t => fail disk t.message
    | .ok p => match batchOutputs folder files with
      | .error c => refuse disk 2 c.message
      | .ok outputs =>
        match files.mapM fun file => (readSource disk s file).map fun text => Source.mk file text with
        | .error t => fail disk t.message
        | .ok sources =>
          let state := writeResults disk p outputs sources
          if state.failed = 0 then ⟨0, [], state.stderr, state.disk⟩
          else
            let summary : Text :=
              .ofNat state.failed ++ " of " ++ .ofNat files.length ++ " files failed\n"
            ⟨1, [], state.stderr ++ summary, state.disk⟩

/-! ### symbols -/

/-- The table of the functions of a program and the routines it calls. -/
def symbolGrid (p : Profile) (program : Program) : Grid :=
  let function (d : Decl) : List Text :=
    [d.name, d.convention.name, p.label d.name, d.returns, d.pos.render]
  let routine (name : Text) : List Text :=
    let pos := (program.table.externalPos? name).getD ⟨0, 0⟩
    [name, "external", p.osCall ++ "(" ++ name ++ ")", [], pos.render]
  ⟨["NAME", "KIND", "LABEL", "RETURNS", "POSITION"],
    program.decls.map function ++ program.table.externalNames.map routine⟩

/-- Lists the functions of a source. -/
def runSymbols (disk : Disk) (s : Settings) (files : List Text) : Outcome :=
  match files with
  | [file] =>
    match loadProfile disk s, readSource disk s file with
    | .error t, _ => fail disk t.message
    | .ok _, .error t => fail disk t.message
    | .ok p, .ok source =>
      match compile p source with
      | .error r => ⟨1, [], errorLines (refusalDiagnostic file source r), disk⟩
      | .ok o => ⟨0, (symbolGrid p o.program).render, [], disk⟩
  | _ => refuse disk 2 "symbols needs exactly one source file"

/-! ### init -/

/-- The file that the standard profile is written to if none is named. -/
def profileFile : Text := "calcc.yaml"

/-- Writes the standard profile. -/
def runInit (disk : Disk) (force : Bool) (files : List Text) : Outcome :=
  let named := files.headD []
  let file := if named.isEmpty then profileFile else named
  if disk.has file && !force then
    refuse disk 1 (file ++ " already exists (use --force to overwrite)")
  else match Profile.standard.save disk file with
    | .error failure => fail disk ("error creating " ++ file ++ ": " ++ failure.message)
    | .ok after => ⟨0, [], logLine ("wrote " ++ file), after⟩

/-! ### All commands -/

/-- How the program is used. -/
def usageText : Text :=
  "calcc - compile calculator programs to TI-83 Plus Z80 assembly\n\n" ++
  "calcc [--target FILE] [-D NAME[=VALUE]]... [--strip-unused] COMMAND\n\n" ++
  "  build [-o FILE] [--dump-ast] FILE      compile one source file\n" ++
  "  batch [-j N] [--out-dir DIR] FILE...   compile several source files\n" ++
  "  symbols FILE                           list the functions of a source file\n" ++
  "  init [--force] [FILE]                  write the default target profile\n"

/-- Runs a command. -/
def run (disk : Disk) (s : Settings) : Command → Outcome
  | .build output outlined files => runBuild disk s output outlined files
  | .batch folder files => runBatch disk s folder files
  | .symbols files => runSymbols disk s files
  | .init force files => runInit disk force files
  | .usage => ⟨0, usageText, [], disk⟩

end Command

/-- Runs the command line. -/
def runArgs (disk : Disk) (args : List Text) : Outcome :=
  match invocation args with
  | .ok (s, c) => c.run disk s
  | .error (.flag m) => Command.fail disk m.message
  | .error (.unknownCommand name) =>
    Command.refuse disk 3 ("No help topic for '" ++ name ++ "'")

end Pocket
