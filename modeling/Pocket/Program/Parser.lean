import Pocket.Program.Table

/-!
# Parsing programs

    program     = declaration* end
    declaration = type IDENTIFIER "(" ["void"] ")" "{" body "}"
    type        = "void" | "int" | "char"
    body        = "asm" "{" RAWTEXT "}" [";"] | statement*
    statement   = IDENTIFIER "(" [expression] ")" ";" | expression ";"

An expression has six levels of binary operators, all of them left associative, over the unary
operators `-`, `+` and `~`, integer literals and parentheses. Every expression is folded as soon as
it is read. Each reader returns the tokens it has left over with a proof that it used some up.

Calls are resolved when all declarations are read, in source order, so a function may be called
before it is declared.
-/

namespace Pocket

/-- A program: its functions in source order and the table that resolved its calls. -/
structure Program where
  decls : List Decl
  table : DeclTable
  deriving DecidableEq, Repr

namespace Parser

/-- Tokens left over, fewer than there were. -/
abbrev Fewer (ts : List Token) := { rest : List Token // rest.length < ts.length }

/-- Tokens left over, perhaps all. -/
abbrev Left (ts : List Token) := { rest : List Token // rest.length ≤ ts.length }

/-- The token at the front, or the one that stands for the end of the list. -/
def peek (stop : Token) (ts : List Token) : Token :=
  ts.headD stop

/-- Takes the token at the front if it is of the kind that is wanted. -/
def expect (stop : Token) (what : Wanted) (ts : List Token) : Except Fault (Token × Fewer ts) :=
  match ts with
  | t :: rest =>
    if t.kind = what.kind then .ok (t, ⟨rest, by simp⟩)
    else .error (.parse t.pos (.expected what t))
  | [] => .error (.parse stop.pos (.expected what stop))

/-! ### Expressions -/

/-- The binary operators from the weakest level to the strongest. -/
def operatorLevels : List (List Token.Kind) :=
  [[.pipe], [.caret], [.amp], [.shiftLeft, .shiftRight], [.plus, .minus],
   [.star, .slash, .percent]]

/-- Whether a kind is a unary operator. -/
def isUnary : Token.Kind → Bool
  | .minus | .plus | .tilde => true
  | _ => false

mutual

/-- Reads a literal or an expression in parentheses. -/
def primary (stop : Token) (ts : List Token) : Except Fault (Expr × Fewer ts) :=
  match ts with
  | [] => .error (.parse stop.pos (.expectedExpression stop))
  | t :: rest =>
    match t.kind with
    | .integer =>
      match Word.ofLiteral? t.lexeme with
      | some value => .ok (.literal value t.lexeme t.pos, ⟨rest, by simp⟩)
      | none => .error (.eval t.pos (.tooLarge t.lexeme))
    | .leftParen => do
      let (e, ⟨rest, h⟩) ← binary stop operatorLevels rest
      let (_, ⟨rest, h'⟩) ← expect stop .rightParen rest
      .ok (e, ⟨rest, by simp; omega⟩)
    | .string => .error (.parse t.pos .stringLiteral)
    | .identifier => .error (.parse t.pos (.notConstant t.lexeme))
    | _ => .error (.parse t.pos (.expectedExpression t))
termination_by (ts.length, 0)

/-- Reads an operand with the unary operators before it. -/
def unary (stop : Token) (ts : List Token) : Except Fault (Expr × Fewer ts) :=
  match ts with
  | t :: rest =>
    if isUnary t.kind then do
      let (e, ⟨rest, h⟩) ← unary stop rest
      .ok (.unary t.kind e t.pos, ⟨rest, by simp; omega⟩)
    else primary stop (t :: rest)
  | [] => primary stop []
termination_by (ts.length, 1)

/-- Reads an expression of the given levels. -/
def binary (stop : Token) (levels : List (List Token.Kind)) (ts : List Token) :
    Except Fault (Expr × Fewer ts) :=
  match levels with
  | [] => unary stop ts
  | ops :: tighter => do
    let (left, ⟨rest, h⟩) ← binary stop tighter ts
    let (e, ⟨rest, h'⟩) ← chain stop ops tighter left rest
    .ok (e, ⟨rest, by omega⟩)
termination_by (ts.length, levels.length + 2)

/-- Reads the further operands of one level and joins them from the left. -/
def chain (stop : Token) (ops : List Token.Kind) (tighter : List (List Token.Kind)) (left : Expr)
    (ts : List Token) : Except Fault (Expr × Left ts) :=
  match ts with
  | [] => .ok (left, ⟨[], by simp⟩)
  | t :: rest =>
    if ops.contains t.kind then do
      let (right, ⟨rest, h⟩) ← binary stop tighter rest
      let (e, ⟨rest, h'⟩) ← chain stop ops tighter (.binary t.kind left right t.pos) rest
      .ok (e, ⟨rest, by simp; omega⟩)
    else .ok (left, ⟨t :: rest, by simp⟩)
termination_by (ts.length, 0)

end

/-- Reads an expression. -/
def expression (stop : Token) (ts : List Token) : Except Fault (Expr × Fewer ts) :=
  binary stop operatorLevels ts

/-- Reads an expression and folds it at once. -/
def folded (stop : Token) (ts : List Token) : Except Fault ((Expr × Word) × Fewer ts) := do
  let (e, rest) ← expression stop ts
  let value ← e.fold
  .ok ((e, value), rest)

/-! ### Statements -/

/-- Whether a kind begins an expression statement. -/
def startsExpression : Token.Kind → Bool
  | .integer | .leftParen | .minus | .plus | .tilde => true
  | _ => false

/-- Reads the argument of a call, the parenthesis that closes it and the semicolon. -/
def callRest (stop name : Token) (ts : List Token) : Except Fault (Call × Fewer ts) := do
  if (peek stop ts).kind = .rightParen then
    let (_, ⟨rest, h⟩) ← expect stop .rightParen ts
    let (_, ⟨rest, h'⟩) ← expect stop .semicolon rest
    .ok (⟨name.lexeme, none, 0, .unresolved, name.pos⟩, ⟨rest, by omega⟩)
  else
    let ((e, value), ⟨rest, h⟩) ← folded stop ts
    let t := peek stop rest
    if t.kind = .comma then .error (.parse t.pos (.extraArgument name.lexeme))
    else
      let (_, ⟨rest, h'⟩) ← expect stop .rightParen rest
      let (_, ⟨rest, h''⟩) ← expect stop .semicolon rest
      .ok (⟨name.lexeme, some e, value, .unresolved, name.pos⟩, ⟨rest, by omega⟩)

/-- Reads a statement. -/
def statement (stop : Token) (ts : List Token) : Except Fault (Stmt × Fewer ts) :=
  match ts with
  | [] => .error (.parse stop.pos (.unknownStatement stop))
  | t :: rest =>
    if t.kind = .identifier then
      match rest with
      | paren :: args =>
        if paren.kind = .leftParen then do
          let (c, ⟨rest, h⟩) ← callRest stop t args
          .ok (.call c, ⟨rest, by simp; omega⟩)
        else .error (.parse t.pos (.unknownStatement t))
      | [] => .error (.parse t.pos (.unknownStatement t))
    else if startsExpression t.kind then do
      let ((e, value), ⟨rest, h⟩) ← folded stop (t :: rest)
      let (_, ⟨rest, h'⟩) ← expect stop .semicolon rest
      .ok (.expr e value t.pos, ⟨rest, by omega⟩)
    else .error (.parse t.pos (.unknownStatement t))

/-- Reads statements up to the closing brace of the function with the given name. -/
def statements (stop : Token) (name : Text) (ts : List Token) : Except Fault (List Stmt × Left ts) :=
  let t := peek stop ts
  if t.kind = .rightBrace then .ok ([], ⟨ts, Nat.le_refl _⟩)
  else if t.kind = .eof then .error (.parse t.pos (.unclosedFunction name))
  else if t.kind = .asm then .error (.parse t.pos .asmNotWholeBody)
  else do
    let (s, ⟨rest, h⟩) ← statement stop ts
    let (ss, ⟨rest, h'⟩) ← statements stop name rest
    .ok (s :: ss, ⟨rest, by omega⟩)
termination_by ts.length

/-! ### Declarations -/

/-- Reads a raw body behind the keyword `asm`; nothing else may stand in the function. -/
def asmBody (stop : Token) (ts : List Token) : Except Fault (Body × Fewer ts) := do
  let (_, ⟨rest, h⟩) ← expect stop .asmLeftBrace ts
  let (text, ⟨rest, h'⟩) ← expect stop .asmText rest
  let (_, ⟨rest, h''⟩) ← expect stop .asmRightBrace rest
  let ⟨rest, h'''⟩ : Left rest :=
    match rest with
    | t :: more => if t.kind = .semicolon then ⟨more, by simp⟩ else ⟨t :: more, by simp⟩
    | [] => ⟨[], by simp⟩
  let t := peek stop rest
  if t.kind = .rightBrace ∨ t.kind = .eof then
    .ok (.asm text.lexeme text.pos, ⟨rest, by omega⟩)
  else .error (.parse t.pos .asmNotWholeBody)

/-- Reads the body of a function. -/
def body (stop : Token) (name : Text) (ts : List Token) : Except Fault (Body × Left ts) :=
  match ts with
  | t :: rest =>
    if t.kind = .asm then do
      let (b, ⟨rest, h⟩) ← asmBody stop rest
      .ok (b, ⟨rest, by simp; omega⟩)
    else do
      let (ss, rest) ← statements stop name (t :: rest)
      .ok (.stmts ss, rest)
  | [] => do
    let (ss, rest) ← statements stop name []
    .ok (.stmts ss, rest)

/-- Drops the word `void` that may stand for an empty parameter list. -/
def emptyParameters (ts : List Token) : Left ts :=
  match ts with
  | v :: paren :: rest =>
    if v.kind = .void ∧ paren.kind = .rightParen then ⟨paren :: rest, by simp⟩
    else ⟨v :: paren :: rest, by simp⟩
  | ts => ⟨ts, Nat.le_refl _⟩

/-- Reads a declaration. -/
def declaration (stop : Token) (ts : List Token) : Except Fault (Decl × Fewer ts) :=
  match ts with
  | [] => .error (.parse stop.pos (.expectedDeclaration stop))
  | type :: rest =>
    if type.kind.isType then do
      let (name, ⟨rest, h₁⟩) ← expect stop .functionName rest
      let (_, ⟨rest, h₂⟩) ← expect stop .leftParen rest
      let ⟨rest, h₃⟩ := emptyParameters rest
      let t := peek stop rest
      if t.kind = .rightParen then
        let (_, ⟨rest, h₄⟩) ← expect stop .rightParen rest
        let (_, ⟨rest, h₅⟩) ← expect stop .leftBrace rest
        let (b, ⟨rest, h₆⟩) ← body stop name.lexeme rest
        let (_, ⟨rest, h₇⟩) ← expect stop .rightBrace rest
        .ok (⟨name.lexeme, type.lexeme, b, name.pos⟩, ⟨rest, by simp; omega⟩)
      else .error (.parse t.pos .hasParameters)
    else .error (.parse type.pos (.expectedDeclaration type))

/-- Reads declarations up to the end and enters them into the table. The second result is the token
that stands for the end. -/
def declarations (stop : Token) (table : DeclTable) (ts : List Token) :
    Except Fault (DeclTable × Token) :=
  let t := peek stop ts
  if t.kind = .eof then .ok (table, t)
  else do
    let (d, ⟨rest, _h⟩) ← declaration stop ts
    let table ← table.declare d
    declarations stop table rest
termination_by ts.length

/-! ### Resolving calls -/

/-- Resolves the calls among some statements, in order. -/
def resolveStmts (table : DeclTable) : List Stmt → Except Fault (List Stmt × DeclTable)
  | [] => .ok ([], table)
  | .call c :: ss => do
    let (target, table) ← table.resolve c.callee c.pos
    let (ss, table) ← resolveStmts table ss
    .ok (.call { c with target } :: ss, table)
  | .expr e value pos :: ss => do
    let (ss, table) ← resolveStmts table ss
    .ok (.expr e value pos :: ss, table)

/-- Resolves the calls of some functions, in order. -/
def resolveDecls (table : DeclTable) : List Decl → Except Fault (List Decl × DeclTable)
  | [] => .ok ([], table)
  | d :: ds =>
    match d.body with
    | .stmts ss => do
      let (ss, table) ← resolveStmts table ss
      let (ds, table) ← resolveDecls table ds
      .ok ({ d with body := .stmts ss } :: ds, table)
    | .asm _ _ => do
      let (ds, table) ← resolveDecls table ds
      .ok (d :: ds, table)

/-- The token that stands for the end of a list that has no end token: it has the position of the
last token. -/
def stopOf (ts : List Token) : Token :=
  ⟨.eof, [], (ts.getLast?.map Token.pos).getD .start⟩

end Parser

/-- Reads and resolves a program. -/
def Program.ofTokens (profile : Profile) (ts : List Token) : Except Fault Program := do
  let (table, last) ← Parser.declarations (Parser.stopOf ts) (.empty profile) ts
  let (decls, table) ← Parser.resolveDecls table table.decls
  if (table.lookup? profile.entry).isNone then .error (.parse last.pos (.noEntry profile.entry))
  else .ok ⟨decls, { table with decls }⟩

end Pocket
