import Pocket.Markdown
import Pocket.Text.Blank
import Pocket.Text.Quoted

/-!
# Casebooks

Test cases for the compiler, written in Markdown. A case begins at a heading `Test: name`; the fences
up to the next one give, by their language, the program (`calc`), a profile (`profile`), and what is
expected (`asm`, `contains` or `error`). Every case needs a program and at least one expectation.
-/

namespace Pocket.Casebook

/-- What an expectation is about. -/
inductive Kind where
  /-- The exact assembly. -/
  | asm
  /-- Lines of the assembly, in their order. -/
  | contains
  /-- The start of the diagnostic. -/
  | error
  deriving DecidableEq, Repr

/-- The language of the fences of a kind. -/
def Kind.name : Kind → Text
  | .asm => "asm"
  | .contains => "contains"
  | .error => "error"

/-- One expectation of a case. -/
structure Assertion where
  kind : Kind
  content : Text
  line : Nat
  deriving DecidableEq, Repr

/-- The lines of an expectation that are not blank. -/
def contentLines (content : Text) : List Text :=
  content.lines.filter fun line => !line.trim.isEmpty

/-- A test case. An empty profile stands for the standard one. -/
structure Case where
  name : Text
  input : Text
  profile : Text
  assertions : List Assertion
  line : Nat
  deriving DecidableEq, Repr

/-- What a fence is for. -/
inductive Role where
  | input
  | profile
  | assertion (kind : Kind)
  deriving DecidableEq, Repr

/-- What the fences of a language are for. -/
def Role.ofLanguage? (language : Text) : Option Role :=
  if language = "calc" then some .input
  else if language = "profile" then some .profile
  else if language = "asm" then some (.assertion .asm)
  else if language = "contains" then some (.assertion .contains)
  else if language = "error" then some (.assertion .error)
  else none

/-- Why a document is no casebook. -/
inductive Trouble where
  | outside (line : Nat) (language : Text)
  | secondInput (line : Nat) (name : Text)
  | unknownFence (line : Nat) (language name : Text)
  | noInput (line : Nat) (name : Text)
  | noAssertion (line : Nat) (name : Text)
  deriving DecidableEq, Repr

/-- The wording of a trouble. -/
def Trouble.message : Trouble → Text
  | .outside line language =>
    "line " ++ .ofNat line ++ ": " ++ language ++ " fence outside of a test case"
  | .secondInput line name =>
    "line " ++ .ofNat line ++ ": test " ++ name.quote ++ " has more than one calc fence"
  | .unknownFence line language name =>
    "line " ++ .ofNat line ++ ": unknown fence " ++ language.quote ++ " in test " ++ name.quote
  | .noInput line name => "line " ++ .ofNat line ++ ": test " ++ name.quote ++ " has no calc fence"
  | .noAssertion line name =>
    "line " ++ .ofNat line ++ ": test " ++ name.quote ++ " has no assertion fences"

/-- A case that has been read to its end. -/
def finish (c : Case) : Except Trouble Case :=
  if c.input.isEmpty then .error (.noInput c.line c.name)
  else if c.assertions.isEmpty then .error (.noAssertion c.line c.name)
  else .ok c

/-- A case with one more fence. An empty program counts as none. -/
def addFence (c : Case) (line : Nat) (language content : Text) : Except Trouble Case :=
  match Role.ofLanguage? language with
  | none => .error (.unknownFence line language c.name)
  | some .input =>
    if c.input.isEmpty then .ok { c with input := content }
    else .error (.secondInput line c.name)
  | some .profile => .ok { c with profile := content }
  | some (.assertion kind) =>
    .ok { c with assertions := c.assertions ++ [⟨kind, content, line⟩] }

/-- The name that a heading gives to the case it begins. -/
def caseName? (heading : Text) : Option Text :=
  (Text.after? "Test: " heading).map Text.trim

/-- The cases of some blocks, given the case that they continue. -/
def casesFrom : Option Case → List Markdown.Block → Except Trouble (List Case)
  | none, [] => .ok []
  | some c, [] => do .ok [← finish c]
  | current, .heading line text :: rest =>
    match caseName? text with
    | none => casesFrom current rest
    | some name =>
      let next : Case := ⟨name, [], [], [], line⟩
      match current with
      | none => casesFrom (some next) rest
      | some c => do
        let done ← finish c
        .ok (done :: (← casesFrom (some next) rest))
  | none, .fence line language _ :: rest =>
    if (Role.ofLanguage? language).isSome then .error (.outside line language)
    else casesFrom none rest
  | some c, .fence line language content :: rest => do
    casesFrom (some (← addFence c line language content)) rest

/-- The cases of a document. -/
def ofBlocks (blocks : List Markdown.Block) : Except Trouble (List Case) :=
  casesFrom none blocks

/-- Reads a casebook. -/
def ofText (t : Text) : Except Trouble (List Case) :=
  ofBlocks (Markdown.blocks t)

end Pocket.Casebook
