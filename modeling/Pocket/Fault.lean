import Pocket.Token.Basic

/-!
# Faults

What can be wrong with a source program, and how it is said. A fault is a cause at a position; the
wording of every cause stands here and nowhere else.
-/

namespace Pocket

/-- The stage of compilation that found a fault. -/
inductive Phase where
  | lex
  | parse
  | eval
  | emit
  | other (code : Int)
  deriving DecidableEq, Repr

namespace Phase

/-- The phase with a given number; phases are numbered from one. -/
def ofCode : Int → Phase
  | 1 => .lex
  | 2 => .parse
  | 3 => .eval
  | 4 => .emit
  | code => .other code

/-- The name of a phase. -/
def name : Phase → Text
  | .lex => "lex"
  | .parse => "parse"
  | .eval => "eval"
  | .emit => "emit"
  | .other code => "Phase(" ++ .ofInt code ++ ")"

end Phase

/-- Why a token cannot be read. -/
inductive LexCause where
  | unterminatedComment
  | unterminatedString
  | unterminatedAsm
  /-- The keyword `asm` is followed by the given character, or by nothing. -/
  | asmWithoutBrace (got : Option Char)
  | malformedInteger (run : Text)
  | unexpected (c : Char)
  deriving DecidableEq, Repr

/-- The wording of a cause. -/
def LexCause.message : LexCause → Text
  | .unterminatedComment => "unterminated block comment"
  | .unterminatedString => "unterminated string literal"
  | .unterminatedAsm => "unterminated asm block"
  | .asmWithoutBrace none => "expected '\x7b' after asm, got end of input"
  | .asmWithoutBrace (some c) => "expected '\x7b' after asm, got " ++ .quoteChar c
  | .malformedInteger run => "malformed integer literal " ++ run.quote
  | .unexpected c => "unexpected character " ++ .quoteChar c

/-- What the grammar asks for at a point where nothing else may stand. -/
inductive Wanted where
  | functionName
  | leftParen
  | rightParen
  | leftBrace
  | rightBrace
  | semicolon
  | asmLeftBrace
  | asmText
  | asmRightBrace
  deriving DecidableEq, Repr

/-- The wording of a demand. -/
def Wanted.describe : Wanted → Text
  | .functionName => "function name"
  | .leftParen => "'('"
  | .rightParen => "')'"
  | .leftBrace => "'\x7b'"
  | .rightBrace => "'\x7d'"
  | .semicolon => "';'"
  | .asmLeftBrace => "'\x7b' after asm"
  | .asmText => "asm text"
  | .asmRightBrace => "'\x7d' closing asm"

/-- The kind of token that meets a demand. -/
def Wanted.kind : Wanted → Token.Kind
  | .functionName => .identifier
  | .leftParen => .leftParen
  | .rightParen => .rightParen
  | .leftBrace | .asmLeftBrace => .leftBrace
  | .rightBrace | .asmRightBrace => .rightBrace
  | .semicolon => .semicolon
  | .asmText => .rawText

/-- Why tokens are no program. -/
inductive ParseCause where
  | expectedDeclaration (got : Token)
  | expected (what : Wanted) (got : Token)
  | hasParameters
  | unclosedFunction (name : Text)
  | asmNotWholeBody
  | unknownStatement (got : Token)
  | extraArgument (callee : Text)
  | stringLiteral
  | notConstant (name : Text)
  | expectedExpression (got : Token)
  | redeclared (name : Text) (first : Position)
  | labelTaken (name label entry : Text)
  /-- A call of a name that is neither declared nor external; `listed` says that the target has a
  list of the external names it knows. -/
  | undeclared (name : Text) (listed : Bool)
  | noEntry (name : Text)
  deriving DecidableEq, Repr

/-- The wording of a cause. -/
def ParseCause.message : ParseCause → Text
  | .expectedDeclaration got =>
    "expected a function declaration (void, int or char), got " ++ got.describe
  | .expected what got => "expected " ++ what.describe ++ ", got " ++ got.describe
  | .hasParameters => "functions take no parameters; the argument arrives in the accumulator"
  | .unclosedFunction name =>
    "expected '\x7d' to close function " ++ name.quote ++ ", got end of input"
  | .asmNotWholeBody => "an asm block must be the whole body of a function"
  | .unknownStatement got => "unknown statement form starting with " ++ got.describe
  | .extraArgument callee =>
    "call to " ++ callee.quote ++ " has more than one argument; only the accumulator is passed"
  | .stringLiteral => "string literals are not supported"
  | .notConstant name =>
    name.quote ++ " is not a constant; expressions may only use integer literals"
  | .expectedExpression got => "expected an expression, got " ++ got.describe
  | .redeclared name first =>
    "function " ++ name.quote ++ " redeclared (first declared at " ++ first.render ++ ")"
  | .labelTaken name label entry =>
    "function " ++ name.quote ++ " would share the label " ++ label.quote ++
      " with the entry function " ++ entry.quote
  | .undeclared name listed =>
    "call to undeclared function " ++ name.quote ++
      (if listed then " (not in the target's symbol list)" else "")
  | .noEntry name => "program has no entry function " ++ name.quote

/-- Why a constant expression has no value. -/
inductive EvalCause where
  | tooLarge (literal : Text)
  | divisionByZero
  | moduloByZero
  | negativeShift
  | unknownUnary (op : Token.Kind)
  | unknownBinary (op : Token.Kind)
  deriving DecidableEq, Repr

/-- The wording of a cause. -/
def EvalCause.message : EvalCause → Text
  | .tooLarge literal => "integer literal " ++ literal ++ " does not fit in 16 bits"
  | .divisionByZero => "division by zero in constant expression"
  | .moduloByZero => "modulo by zero in constant expression"
  | .negativeShift => "negative shift count in constant expression"
  | .unknownUnary op => "unknown unary operator " ++ op.name
  | .unknownBinary op => "unknown binary operator " ++ op.name

/-- Why finished text could not be written. -/
inductive EmitCause where
  | shortWrite
  /-- The receiver refused, with its own wording. -/
  | refused (reason : Text)
  deriving DecidableEq, Repr

/-- The wording of a cause. -/
def EmitCause.message : EmitCause → Text
  | .shortWrite => "short write"
  | .refused reason => reason

/-- A fault of a source program, or of the place its assembly is written to. -/
inductive Fault where
  | lex (pos : Position) (cause : LexCause)
  | parse (pos : Position) (cause : ParseCause)
  | eval (pos : Position) (cause : EvalCause)
  | emit (cause : EmitCause)
  deriving DecidableEq, Repr

/-- A fault as it is reported: the phase that found it, its position and the wording of its cause. -/
structure Report where
  phase : Phase
  pos : Position
  detail : Text
  deriving DecidableEq, Repr

/-- The report in one line. Emission has no position in the source. -/
def Report.message (r : Report) : Text :=
  match r.phase with
  | .emit => "emit error: " ++ r.detail
  | phase => r.pos.render ++ ": " ++ phase.name ++ " error: " ++ r.detail

/-- How a fault is reported. -/
def Fault.report : Fault → Report
  | .lex pos cause => ⟨.lex, pos, cause.message⟩
  | .parse pos cause => ⟨.parse, pos, cause.message⟩
  | .eval pos cause => ⟨.eval, pos, cause.message⟩
  | .emit cause => ⟨.emit, ⟨0, 0⟩, cause.message⟩

end Pocket
