import Pocket.Disk
import Pocket.Preprocess.Region

/-!
# Directives

A line of code whose first characters other than blanks are `#define` or `#include` is a directive.
This module reads directives, and it words everything that can go wrong while a source is
preprocessed.
-/

namespace Pocket

namespace Preprocess

/-- Why a source cannot be preprocessed. -/
inductive Trouble where
  | namelessDefine
  | unclosedParameters
  | invalidInclude (directive : Text)
  | circularInclude (file : Text)
  | unreadable (file : Text) (failure : Disk.Failure)
  /-- The included file ends inside a comment or a raw body. -/
  | unfinished (file : Text)
  /-- Calls of macros nest deeper than the given bound. -/
  | tooDeep (depth : Nat)
  | inFile (file : Text) (inner : Trouble)
  | onLine (number : Nat) (inner : Trouble)
  deriving DecidableEq, Repr

/-- The wording of a trouble. -/
def Trouble.message : Trouble → Text
  | .namelessDefine => "#define without a name"
  | .unclosedParameters => "unterminated macro parameter list"
  | .invalidInclude directive => "invalid include directive: " ++ directive
  | .circularInclude file => "circular include detected: " ++ file
  | .unreadable file failure => "failed to read included file " ++ file ++ ": " ++ failure.message
  | .unfinished file => "in " ++ file ++ ": file ends inside a comment or asm block"
  | .tooDeep depth => "macro calls nest deeper than " ++ .ofNat depth
  | .inFile file inner => "in " ++ file ++ ": " ++ inner.message
  | .onLine number inner => "line " ++ .ofNat number ++ ": " ++ inner.message

/-- A value, or the trouble that the bound on nested calls was exceeded. -/
def withinDepth (depth : Nat) : Option α → Except Trouble α
  | some a => .ok a
  | none => .error (.tooDeep depth)

end Preprocess

/-- What a line of code is. -/
inductive Directive where
  /-- A definition, with what follows the word `#define`, trimmed. -/
  | definition (rest : Text)
  /-- An inclusion, with the whole line, trimmed. -/
  | inclusion (line : Text)
  /-- No directive. -/
  | plain
  deriving DecidableEq, Repr

namespace Directive

open Preprocess

/-- Reads a line of code. -/
def ofLine (line : Text) : Directive :=
  let trimmed := line.trim
  match Text.after? "#define" trimmed with
  | some rest => .definition rest.trim
  | none => if trimmed.startsWith "#include" then .inclusion trimmed else .plain

/-- Whether a byte ends the name of a macro in its definition. -/
def endsName (b : UInt8) : Bool :=
  b == ' '.toUInt8 || b == '\t'.toUInt8 || b == '('.toUInt8

/-- The names in a parameter list; a blank list has none. -/
def parameters (list : Text) : List Text :=
  if list.trim.isEmpty then [] else (list.split ','.toUInt8).map Text.trim

/-- Splits a definition into the name of the macro, its parameters and its body. An opening
parenthesis directly after the name begins a parameter list. -/
def readDefinition (rest : Text) : Except Trouble (Text × Macro) :=
  if rest = [] then .error .namelessDefine
  else
    let name := rest.takeWhile (!endsName ·)
    match rest.dropWhile (!endsName ·) with
    | [] => .ok (name, ⟨[], []⟩)
    | b :: after =>
      if b = '('.toUInt8 then
        match Text.cut? ')'.toUInt8 after with
        | none => .error .unclosedParameters
        | some (list, body) => .ok (name, ⟨parameters list, body.trim⟩)
      else .ok (name, ⟨[], Text.trim (b :: after)⟩)

/-- The macros after a definition. The body of a macro without parameters is expanded once, when it
is defined. -/
def macrosAfter (ms : Macros) (depth : Nat) (rest : Text) : Except Trouble Macros := do
  let (name, m) ← readDefinition rest
  if m.params.isEmpty then
    let body ← withinDepth depth (ms.expand depth m.body)
    .ok (ms.define name ⟨[], body⟩)
  else .ok (ms.define name m)

/-- The file that an inclusion names: what stands between its first two quotes. -/
def includedFile (line : Text) : Except Trouble Text :=
  match line.split '"'.toUInt8 with
  | _ :: file :: _ :: _ => .ok file
  | _ => .error (.invalidInclude line)

end Directive

end Pocket
