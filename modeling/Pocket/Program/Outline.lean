import Pocket.Program.Basic

/-!
# Outlines

The declarations of a program as nested records, one field a line, for inspection. Fields that are
zero or empty are left out.
-/

namespace Pocket

/-- A value as it is shown in an outline. -/
inductive Outline where
  | atom (t : Text)
  /-- A record or a list: its type, and its fields with the names in front of them. -/
  | group (type : Text) (fields : List (Text × Outline))
  deriving Repr

namespace Outline

mutual

/-- An outline as text, on lines that are indented by so many spaces. -/
def render (indent : Nat) : Outline → Text
  | .atom t => t
  | .group type fields =>
    type ++ "\x7b\n" ++ renderFields (indent + 2) fields ++ Text.spaces indent ++ "\x7d"

/-- The fields of a group, one after the other. -/
def renderFields (indent : Nat) : List (Text × Outline) → Text
  | [] => []
  | (name, value) :: rest =>
    Text.spaces indent ++ name ++ render indent value ++ ",\n" ++ renderFields indent rest

end

/-- A field with a name. -/
def field (name : Text) (value : Outline) : List (Text × Outline) :=
  [(name ++ ": ", value)]

/-- A field with a text, unless it is empty. -/
def textField (name value : Text) : List (Text × Outline) :=
  if value.isEmpty then [] else field name (.atom value.quote)

/-- A field with a number, unless it is zero. -/
def numberField (name : Text) (value : Int) : List (Text × Outline) :=
  if value = 0 then [] else field name (.atom (.ofInt value))

/-- A field with a name out of a list of names, such as a kind of token. -/
def namedField (name type value : Text) : List (Text × Outline) :=
  field name (.atom (type ++ "(" ++ value ++ ")"))

/-- The field with a position. -/
def posField (p : Position) : List (Text × Outline) :=
  field "Pos" (.group "compiler.Pos" (numberField "Line" p.line ++ numberField "Col" p.col))

/-- The field with an operator. The end of the source counts as none. -/
def opField (op : Token.Kind) : List (Text × Outline) :=
  if op = .eof then [] else namedField "Op" "compiler.TokenType" op.name

/-- An expression. -/
def ofExpr : Expr → Outline
  | .literal value text pos =>
    .group "&compiler.Literal"
      (numberField "Value" value.toNat ++ textField "Text" text ++ posField pos)
  | .unary op right pos =>
    .group "&compiler.UnaryExpr" (opField op ++ field "Right" (ofExpr right) ++ posField pos)
  | .binary op left right pos =>
    .group "&compiler.BinaryExpr"
      (opField op ++ field "Left" (ofExpr left) ++ field "Right" (ofExpr right) ++ posField pos)

/-- A statement. -/
def ofStmt : Stmt → Outline
  | .call c =>
    let arg := match c.arg with
      | none => []
      | some e => field "Arg" (ofExpr e)
    let target := match c.target with
      | .unresolved => []
      | b => namedField "Target" "compiler.Binding" b.name
    .group "&compiler.CallStmt"
      (textField "Name" c.callee ++ arg ++ numberField "Value" c.value.toInt ++ target ++
        posField c.pos)
  | .expr e value pos =>
    .group "&compiler.ExprStmt"
      (field "Expr" (ofExpr e) ++ numberField "Value" value.toInt ++ posField pos)

/-- The fields that show the body of a function. -/
def bodyFields : Body → List (Text × Outline)
  | .stmts [] => []
  | .stmts ss => field "Stmts" (.group "[]compiler.Stmt" (ss.map fun s => ([], ofStmt s)))
  | .asm text pos =>
    namedField "Convention" "compiler.Convention" Convention.raw.name ++
      field "Asm" (.group "&compiler.AsmBlock" (textField "Text" text ++ posField pos))

/-- A function. -/
def ofDecl (d : Decl) : Outline :=
  .group [] (textField "Name" d.name ++ textField "ReturnType" d.returns ++ bodyFields d.body ++
    posField d.pos)

/-- The functions of a program. -/
def ofDecls (ds : List Decl) : Outline :=
  .group "[]*compiler.FunctionDecl" (ds.map fun d => ([], ofDecl d))

end Outline

end Pocket
