import Pocket.Command.Run

/-!
# Inspection

Prints every stage of a compilation under the standard profile: the preprocessed source, the tokens,
the declarations, the assembly and the table of functions. What has been printed before a stage fails
stays printed.
-/

namespace Pocket

namespace Inspect

/-- The program that is inspected if no file is named. -/
def sample : Text :=
  "void main() \x7b\n    clearScreen();\n    putNum(8 - (3 + 2));\n    getKey();\n\x7d\n\n" ++
  "void clearScreen() \x7b\nasm \x7b\n    b_call(_ClrLCDFull)\n\x7d\n\x7d\n\n" ++
  "void putNum() \x7b\nasm \x7b\n    b_call(_DispHL)\n    b_call(_NewLine)\n\x7d\n\x7d\n\n" ++
  "void getKey() \x7b\nasm \x7b\n    b_call(_GetKey)\n\x7d\n\x7d\n"

/-- The tokens as a list. -/
def tokenList (tokens : List Token) : Text :=
  let lines : Text := tokens.flatMap fun t => "  " ++ t.render ++ "\n"
  "Tokens (" ++ .ofNat tokens.length ++ ")\n" ++ lines ++ "\n"

/-- The declarations of a program. -/
def declarations (program : Program) : Text :=
  "AST\n" ++ (Outline.ofDecls program.decls).render 0 ++ "\n\n"

/-- The assembly of a program and its table of functions. -/
def assembly (program : Program) (listing : Asm.Listing) : Text :=
  "Generated Assembly\n" ++ listing.render ++ "\n" ++ program.table.render

/-- Prints the stages of a preprocessed source. -/
def stages (disk : Disk) (source : Text) : Outcome :=
  let shown := "Source:\n" ++ source ++ "\n"
  let stop (shown : Text) (fault : Fault) : Outcome :=
    ⟨1, shown, Diagnostic.render "input" source fault.report ++ "\n", disk⟩
  match source.lex with
  | .error fault => stop shown fault
  | .ok tokens =>
    let shown := shown ++ tokenList tokens
    match Program.ofTokens .standard tokens with
    | .error fault => stop shown fault
    | .ok program =>
      let shown := shown ++ declarations program
      match program.listing .standard with
      | .error fault => stop shown fault
      | .ok listing => ⟨0, shown ++ assembly program listing, [], disk⟩

/-- The source that is inspected and the folder it lies in: the first file named, or the sample. -/
def chosen (disk : Disk) (args : List Text) : Except Disk.Failure (Text × Text) :=
  match args with
  | [] => .ok (sample, ".")
  | file :: _ => (disk.read file).map fun content => (content, Path.dir file)

end Inspect

/-- Inspects a source. -/
def inspect (disk : Disk) (args : List Text) : Outcome :=
  match Inspect.chosen disk args with
  | .error failure => ⟨1, [], "read error: " ++ failure.message ++ "\n", disk⟩
  | .ok (content, dir) =>
    match preprocess disk Preprocess.standardDepth dir [] content with
    | .error t => ⟨1, [], "preprocess error: " ++ t.message ++ "\n", disk⟩
    | .ok source => Inspect.stages disk source

end Pocket
