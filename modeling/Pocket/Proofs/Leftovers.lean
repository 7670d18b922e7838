import Pocket.Proofs.Readers

/-!
# Tokens that the parser leaves

A reader of the parser says which tokens it leaves over only if it succeeds. Here every reader also says
so when it meets a fault: the tokens that are not taken by then. What is left over after a success is the
end of the tokens that were given. Apart from that the readers are those of the parser (`fst_run`).
-/

namespace Pocket

namespace Parser

namespace Tracked

/-- A fault, and the tokens that are not taken when it is met. -/
structure Halt where
  fault : Fault
  left : List Token

/-- The last of some tokens, perhaps all. -/
abbrev Rest (ts : List Token) := { rest : List Token // rest <:+ ts }

/-- The last of some tokens, but not all. -/
abbrev Tail (ts : List Token) := { rest : List Token // rest <:+ ts ∧ rest.length < ts.length }

variable {α β : Type}

theorem tail_cons (t : Token) (rest : List Token) : rest <:+ t :: rest ∧ rest.length < (t :: rest).length :=
  ⟨List.suffix_cons t rest, Nat.lt_succ_self _⟩

theorem tail_trans {ts us vs : List Token} (h : us <:+ ts ∧ us.length < ts.length) (h' : vs <:+ us) :
    vs <:+ ts ∧ vs.length < ts.length :=
  ⟨h'.trans h.1, Nat.lt_of_le_of_lt h'.length_le h.2⟩

/-- A computation between two tokens: if it fails, the given tokens are left. -/
def leaving (left : List Token) (x : Except Fault α) : Except Halt α :=
  x.mapError (⟨·, left⟩)

/-- Takes the token at the front if it is of the kind that is wanted. -/
def expect (stop : Token) (what : Wanted) (ts : List Token) : Except Halt (Token × Tail ts) :=
  match ts with
  | t :: rest =>
    if t.kind = what.kind then .ok (t, ⟨rest, tail_cons t rest⟩)
    else .error ⟨.parse t.pos (.expected what t), t :: rest⟩
  | [] => .error ⟨.parse stop.pos (.expected what stop), []⟩

/-! ### Expressions -/

mutual

/-- Reads a literal or an expression in parentheses. A literal is taken before it is evaluated. -/
def primary (stop : Token) (ts : List Token) : Except Halt (Expr × Tail ts) :=
  match ts with
  | [] => .error ⟨.parse stop.pos (.expectedExpression stop), []⟩
  | t :: rest =>
    if t.kind = .integer then
      match Word.ofLiteral? t.lexeme with
      | some value => .ok (.literal value t.lexeme t.pos, ⟨rest, tail_cons t rest⟩)
      | none => .error ⟨.eval t.pos (.tooLarge t.lexeme), rest⟩
    else if t.kind = .leftParen then do
      let (e, ⟨rest₁, h₁⟩) ← binary stop operatorLevels rest
      let (_, ⟨rest₂, h₂⟩) ← expect stop .rightParen rest₁
      .ok (e, ⟨rest₂, tail_trans (tail_cons t rest) (h₂.1.trans h₁.1)⟩)
    else if t.kind = .string then .error ⟨.parse t.pos .stringLiteral, t :: rest⟩
    else if t.kind = .identifier then .error ⟨.parse t.pos (.notConstant t.lexeme), t :: rest⟩
    else .error ⟨.parse t.pos (.expectedExpression t), t :: rest⟩
termination_by (ts.length, 0)

/-- Reads an operand with the unary operators before it. -/
def unary (stop : Token) (ts : List Token) : Except Halt (Expr × Tail ts) :=
  match ts with
  | t :: rest =>
    if isUnary t.kind then do
      let (e, ⟨rest₁, h₁⟩) ← unary stop rest
      .ok (.unary t.kind e t.pos, ⟨rest₁, tail_trans (tail_cons t rest) h₁.1⟩)
    else primary stop (t :: rest)
  | [] => primary stop []
termination_by (ts.length, 1)

/-- Reads an expression of the given levels. -/
def binary (stop : Token) (levels : List (List Token.Kind)) (ts : List Token) :
    Except Halt (Expr × Tail ts) :=
  match levels with
  | [] => unary stop ts
  | ops :: tighter => do
    let (left, ⟨rest₁, h₁⟩) ← binary stop tighter ts
    let (e, ⟨rest₂, h₂⟩) ← chain stop ops tighter left rest₁
    .ok (e, ⟨rest₂, tail_trans h₁ h₂⟩)
termination_by (ts.length, levels.length + 2)

/-- Reads the further operands of one level and joins them from the left. -/
def chain (stop : Token) (ops : List Token.Kind) (tighter : List (List Token.Kind)) (left : Expr)
    (ts : List Token) : Except Halt (Expr × Rest ts) :=
  match ts with
  | [] => .ok (left, ⟨[], List.suffix_refl []⟩)
  | t :: rest =>
    if ops.contains t.kind then do
      let (right, ⟨rest₁, h₁⟩) ← binary stop tighter rest
      let (e, ⟨rest₂, h₂⟩) ← chain stop ops tighter (.binary t.kind left right t.pos) rest₁
      .ok (e, ⟨rest₂, (h₂.trans h₁.1).trans (List.suffix_cons t rest)⟩)
    else .ok (left, ⟨t :: rest, List.suffix_refl (t :: rest)⟩)
termination_by (ts.length, 0)

end

/-- Reads an expression and folds it at once. -/
def folded (stop : Token) (ts : List Token) : Except Halt ((Expr × Word) × Tail ts) := do
  let (e, rest) ← binary stop operatorLevels ts
  let value ← leaving rest.val e.fold
  .ok ((e, value), rest)

/-! ### Statements -/

/-- Reads the argument of a call, the parenthesis that closes it and the semicolon. -/
def callRest (stop name : Token) (ts : List Token) : Except Halt (Call × Tail ts) := do
  if (peek stop ts).kind = .rightParen then
    let (_, ⟨rest₁, h₁⟩) ← expect stop .rightParen ts
    let (_, ⟨rest₂, h₂⟩) ← expect stop .semicolon rest₁
    .ok (⟨name.lexeme, none, 0, .unresolved, name.pos⟩, ⟨rest₂, tail_trans h₁ h₂.1⟩)
  else
    let ((e, value), ⟨rest₁, h₁⟩) ← folded stop ts
    let t := peek stop rest₁
    if t.kind = .comma then .error ⟨.parse t.pos (.extraArgument name.lexeme), rest₁⟩
    else
      let (_, ⟨rest₂, h₂⟩) ← expect stop .rightParen rest₁
      let (_, ⟨rest₃, h₃⟩) ← expect stop .semicolon rest₂
      .ok (⟨name.lexeme, some e, value, .unresolved, name.pos⟩, ⟨rest₃, tail_trans h₁ (h₃.1.trans h₂.1)⟩)

/-- Reads a statement. -/
def statement (stop : Token) (ts : List Token) : Except Halt (Stmt × Tail ts) :=
  match ts with
  | [] => .error ⟨.parse stop.pos (.unknownStatement stop), []⟩
  | t :: rest =>
    if t.kind = .identifier then
      match rest with
      | paren :: args =>
        if paren.kind = .leftParen then do
          let (c, ⟨rest₁, h₁⟩) ← callRest stop t args
          .ok (.call c, ⟨rest₁, tail_trans (tail_cons t (paren :: args))
            (h₁.1.trans (List.suffix_cons paren args))⟩)
        else .error ⟨.parse t.pos (.unknownStatement t), t :: paren :: args⟩
      | [] => .error ⟨.parse t.pos (.unknownStatement t), [t]⟩
    else if startsExpression t.kind then do
      let ((e, value), ⟨rest₁, h₁⟩) ← folded stop (t :: rest)
      let (_, ⟨rest₂, h₂⟩) ← expect stop .semicolon rest₁
      .ok (.expr e value t.pos, ⟨rest₂, tail_trans h₁ h₂.1⟩)
    else .error ⟨.parse t.pos (.unknownStatement t), t :: rest⟩

/-- Reads statements up to the closing brace of the function with the given name. -/
def statements (stop : Token) (name : Text) (ts : List Token) : Except Halt (List Stmt × Rest ts) :=
  let t := peek stop ts
  if t.kind = .rightBrace then .ok ([], ⟨ts, List.suffix_refl ts⟩)
  else if t.kind = .eof then .error ⟨.parse t.pos (.unclosedFunction name), ts⟩
  else if t.kind = .asm then .error ⟨.parse t.pos .asmNotWholeBody, ts⟩
  else do
    let (s, ⟨rest₁, h₁⟩) ← statement stop ts
    let (ss, ⟨rest₂, h₂⟩) ← statements stop name rest₁
    .ok (s :: ss, ⟨rest₂, h₂.trans h₁.1⟩)
termination_by ts.length

/-! ### Declarations -/

theorem dropSemicolon_suffix (ts : List Token) : dropSemicolon ts <:+ ts := by
  cases ts with
  | nil => exact List.suffix_refl []
  | cons t more =>
    rw [dropSemicolon]
    split
    · exact List.suffix_cons t more
    · exact List.suffix_refl (t :: more)

theorem emptyParameters_suffix (ts : List Token) : (emptyParameters ts).val <:+ ts := by
  unfold emptyParameters
  split
  · split
    · exact List.suffix_cons _ _
    · exact List.suffix_refl _
  · exact List.suffix_refl _

/-- Reads a raw body behind the keyword `asm`; nothing else may stand in the function. -/
def asmBody (stop : Token) (ts : List Token) : Except Halt (Body × Tail ts) := do
  let (_, ⟨rest₁, h₁⟩) ← expect stop .asmLeftBrace ts
  let (text, ⟨rest₂, h₂⟩) ← expect stop .asmText rest₁
  let (_, ⟨rest₃, h₃⟩) ← expect stop .asmRightBrace rest₂
  let t := peek stop (dropSemicolon rest₃)
  if t.kind = .rightBrace ∨ t.kind = .eof then
    .ok (.asm text.lexeme text.pos,
      ⟨dropSemicolon rest₃, tail_trans h₁ ((dropSemicolon_suffix rest₃).trans (h₃.1.trans h₂.1))⟩)
  else .error ⟨.parse t.pos .asmNotWholeBody, dropSemicolon rest₃⟩

/-- Reads the body of a function. -/
def body (stop : Token) (name : Text) (ts : List Token) : Except Halt (Body × Rest ts) :=
  match ts with
  | t :: rest =>
    if t.kind = .asm then do
      let (b, ⟨rest₁, h₁⟩) ← asmBody stop rest
      .ok (b, ⟨rest₁, h₁.1.trans (List.suffix_cons t rest)⟩)
    else do
      let (ss, rest₁) ← statements stop name (t :: rest)
      .ok (.stmts ss, rest₁)
  | [] => do
    let (ss, rest₁) ← statements stop name []
    .ok (.stmts ss, rest₁)

/-- Reads a declaration. -/
def declaration (stop : Token) (ts : List Token) : Except Halt (Decl × Tail ts) :=
  match ts with
  | [] => .error ⟨.parse stop.pos (.expectedDeclaration stop), []⟩
  | type :: rest =>
    if type.kind.isType then do
      let (name, ⟨rest₁, h₁⟩) ← expect stop .functionName rest
      let (_, ⟨rest₂, h₂⟩) ← expect stop .leftParen rest₁
      let ⟨rest₃, h₃⟩ : Rest rest₂ := ⟨(emptyParameters rest₂).val, emptyParameters_suffix rest₂⟩
      let t := peek stop rest₃
      if t.kind = .rightParen then
        let (_, ⟨rest₄, h₄⟩) ← expect stop .rightParen rest₃
        let (_, ⟨rest₅, h₅⟩) ← expect stop .leftBrace rest₄
        let (b, ⟨rest₆, h₆⟩) ← body stop name.lexeme rest₅
        let (_, ⟨rest₇, h₇⟩) ← expect stop .rightBrace rest₆
        .ok (⟨name.lexeme, type.lexeme, b, name.pos⟩, ⟨rest₇, tail_trans (tail_cons type rest)
          (h₇.1.trans (h₆.trans (h₅.1.trans (h₄.1.trans (h₃.trans (h₂.1.trans h₁.1))))))⟩)
      else .error ⟨.parse t.pos .hasParameters, rest₃⟩
    else .error ⟨.parse type.pos (.expectedDeclaration type), type :: rest⟩

/-- Reads declarations up to the end and enters them into the table. -/
def declarations (stop : Token) (table : DeclTable) (ts : List Token) :
    Except Halt ((DeclTable × Token) × Rest ts) :=
  let t := peek stop ts
  if t.kind = .eof then .ok ((table, t), ⟨ts, List.suffix_refl ts⟩)
  else do
    let (d, ⟨rest₁, h₁⟩) ← declaration stop ts
    let table ← leaving rest₁ (table.declare d)
    let (x, ⟨rest₂, h₂⟩) ← declarations stop table rest₁
    .ok (x, ⟨rest₂, h₂.trans h₁.1⟩)
termination_by ts.length

/-- Resolves the calls in the declarations that were read up to the given end. -/
def resolved (p : Profile) (table : DeclTable) (last : Token) : Except Fault Program := do
  let (decls, table) ← resolveDecls table table.decls
  if (table.lookup? p.entry).isNone then .error (.parse last.pos (.noEntry p.entry))
  else .ok ⟨decls, { table with decls }⟩

/-- Reads and resolves a program: the outcome, and the tokens that the parser leaves. -/
def run (p : Profile) (ts : List Token) : Except Fault Program × List Token :=
  match declarations (stopOf ts) (.empty p) ts with
  | .error halt => (.error halt.fault, halt.left)
  | .ok ((table, last), left) => (resolved p table last, left.val)

/-! ### The readers of the parser -/

variable {P Q P' Q' : List Token → Prop}

/-- What a reader yields, without the tokens that are left at a fault. -/
def forget (x : Except Halt (α × { rest : List Token // P rest })) : Except Fault (α × List Token) :=
  match x with
  | .ok (a, rest) => .ok (a, rest.val)
  | .error halt => .error halt.fault

theorem forget_bind {x : Except Halt (α × { rest : List Token // P rest })}
    {y : Except Fault (α × { rest : List Token // P' rest })}
    {f : α × { rest : List Token // P rest } → Except Halt (β × { rest : List Token // Q rest })}
    {g : α × { rest : List Token // P' rest } → Except Fault (β × { rest : List Token // Q' rest })}
    (hx : forget x = bare y)
    (hf : ∀ a rest h h', forget (f (a, ⟨rest, h⟩)) = bare (g (a, ⟨rest, h'⟩))) :
    forget (x >>= f) = bare (y >>= g) := by
  cases x with
  | error halt =>
    cases y with
    | error fault => exact congrArg Except.error (Except.error.inj hx)
    | ok b => cases hx
  | ok a =>
    cases y with
    | error fault => cases hx
    | ok b =>
      obtain ⟨a, rest, h⟩ := a
      obtain ⟨b, rest', h'⟩ := b
      cases hx
      exact hf _ _ h h'

theorem forget_expect (stop : Token) (what : Wanted) (ts : List Token) :
    forget (expect stop what ts) = bare (Parser.expect stop what ts) := by
  cases ts with
  | nil => rfl
  | cons t rest =>
    rw [expect, bare_expect_cons]
    split <;> rfl

mutual

theorem forget_primary (stop : Token) (ts : List Token) :
    forget (primary stop ts) = bare (Parser.primary stop ts) := by
  cases ts with
  | nil =>
    rw [primary, bare_primary_nil]
    rfl
  | cons t rest =>
    rw [primary]
    split
    · next hi =>
      rw [bare_primary_integer stop hi]
      cases Word.ofLiteral? t.lexeme <;> rfl
    · next hi =>
      split
      · next hp =>
        rw [Parser.primary, hp]
        refine forget_bind (forget_binary stop operatorLevels rest) fun e rest' _ _ => ?_
        exact forget_bind (forget_expect stop _ rest') fun _ _ _ _ => rfl
      · next hp =>
        split
        · next hs =>
          rw [bare_primary_string stop hs]
          rfl
        · next hs =>
          split
          · next hn =>
            rw [bare_primary_identifier stop hn]
            rfl
          · next hn =>
            rw [bare_primary_other stop hi hp hs hn]
            rfl
termination_by (ts.length, 0)

theorem forget_unary (stop : Token) (ts : List Token) :
    forget (unary stop ts) = bare (Parser.unary stop ts) := by
  cases ts with
  | nil =>
    rw [unary, Parser.unary]
    exact forget_primary stop []
  | cons t rest =>
    rw [unary, Parser.unary]
    split
    · exact forget_bind (forget_unary stop rest) fun _ _ _ _ => rfl
    · exact forget_primary stop (t :: rest)
termination_by (ts.length, 1)

theorem forget_binary (stop : Token) (levels : List (List Token.Kind)) (ts : List Token) :
    forget (binary stop levels ts) = bare (Parser.binary stop levels ts) := by
  cases levels with
  | nil =>
    rw [binary, Parser.binary]
    exact forget_unary stop ts
  | cons ops tighter =>
    rw [binary, Parser.binary]
    refine forget_bind (forget_binary stop tighter ts) fun left rest h _ => ?_
    exact forget_bind (forget_chain stop ops tighter left rest) fun _ _ _ _ => rfl
termination_by (ts.length, levels.length + 2)

theorem forget_chain (stop : Token) (ops : List Token.Kind) (tighter : List (List Token.Kind)) (left : Expr)
    (ts : List Token) :
    forget (chain stop ops tighter left ts) = bare (Parser.chain stop ops tighter left ts) := by
  cases ts with
  | nil =>
    rw [chain, Parser.chain]
    rfl
  | cons t rest =>
    rw [chain, Parser.chain]
    split
    · refine forget_bind (forget_binary stop tighter rest) fun right rest' h _ => ?_
      exact forget_bind (forget_chain stop ops tighter _ rest') fun _ _ _ _ => rfl
    · rfl
termination_by (ts.length, 0)

end

variable (stop : Token)

theorem forget_folded (ts : List Token) : forget (folded stop ts) = bare (Parser.folded stop ts) := by
  refine forget_bind (forget_binary stop operatorLevels ts) fun e rest _ _ => ?_
  dsimp only
  cases e.fold <;> rfl

theorem forget_callRest (name : Token) (ts : List Token) :
    forget (callRest stop name ts) = bare (Parser.callRest stop name ts) := by
  rw [callRest, Parser.callRest]
  split
  · refine forget_bind (forget_expect stop _ ts) fun _ rest _ _ => ?_
    exact forget_bind (forget_expect stop _ rest) fun _ _ _ _ => rfl
  · refine forget_bind (forget_folded stop ts) fun x rest _ _ => ?_
    dsimp only
    split
    · rfl
    · refine forget_bind (forget_expect stop _ rest) fun _ rest _ _ => ?_
      exact forget_bind (forget_expect stop _ rest) fun _ _ _ _ => rfl

theorem forget_statement (ts : List Token) :
    forget (statement stop ts) = bare (Parser.statement stop ts) := by
  cases ts with
  | nil => rfl
  | cons t rest =>
    simp only [statement, Parser.statement]
    split
    · cases rest with
      | nil => rfl
      | cons paren args =>
        dsimp only
        split
        · exact forget_bind (forget_callRest stop t args) fun _ _ _ _ => rfl
        · rfl
    · split
      · refine forget_bind (forget_folded stop (t :: rest)) fun x rest' _ _ => ?_
        exact forget_bind (forget_expect stop _ rest') fun _ _ _ _ => rfl
      · rfl

theorem forget_statements (name : Text) (ts : List Token) :
    forget (statements stop name ts) = bare (Parser.statements stop name ts) := by
  rw [statements, Parser.statements]
  split
  · rfl
  · split
    · rfl
    · split
      · rfl
      · refine forget_bind (forget_statement stop ts) fun s rest h _ => ?_
        exact forget_bind (forget_statements name rest) fun _ _ _ _ => rfl
termination_by ts.length

theorem forget_asmBody (ts : List Token) : forget (asmBody stop ts) = bare (Parser.asmBody stop ts) := by
  rw [asmBody, Parser.asmBody]
  refine forget_bind (forget_expect stop _ ts) fun _ rest _ _ => ?_
  refine forget_bind (forget_expect stop _ rest) fun text rest _ _ => ?_
  refine forget_bind (forget_expect stop _ rest) fun _ rest _ _ => ?_
  cases rest with
  | nil =>
    dsimp only [dropSemicolon]
    split <;> rfl
  | cons t more =>
    by_cases ht : t.kind = .semicolon
    · simp only [dropSemicolon, if_pos ht]
      split <;> rfl
    · simp only [dropSemicolon, if_neg ht]
      split <;> rfl

theorem forget_body (name : Text) (ts : List Token) :
    forget (body stop name ts) = bare (Parser.body stop name ts) := by
  cases ts with
  | nil => exact forget_bind (forget_statements stop name []) fun _ _ _ _ => rfl
  | cons t rest =>
    rw [body, Parser.body]
    split
    · exact forget_bind (forget_asmBody stop rest) fun _ _ _ _ => rfl
    · exact forget_bind (forget_statements stop name (t :: rest)) fun _ _ _ _ => rfl

theorem forget_declaration (ts : List Token) :
    forget (declaration stop ts) = bare (Parser.declaration stop ts) := by
  cases ts with
  | nil => rfl
  | cons type rest =>
    rw [declaration, Parser.declaration]
    split
    · refine forget_bind (forget_expect stop _ rest) fun name rest _ _ => ?_
      refine forget_bind (forget_expect stop _ rest) fun _ rest _ _ => ?_
      dsimp only
      split
      · refine forget_bind (forget_expect stop _ _) fun _ rest _ _ => ?_
        refine forget_bind (forget_expect stop _ rest) fun _ rest _ _ => ?_
        refine forget_bind (forget_body stop name.lexeme rest) fun b rest _ _ => ?_
        exact forget_bind (forget_expect stop _ rest) fun _ _ _ _ => rfl
      · rfl
    · rfl

theorem forget_declarations (table : DeclTable) (ts : List Token) :
    (forget (declarations stop table ts)).map Prod.fst = Parser.declarations stop table ts := by
  rw [declarations]
  split
  · next he => rw [declarations_end stop he]; rfl
  · next he =>
    rw [declarations_more stop he, ← forget_declaration]
    cases declaration stop ts with
    | error halt => rfl
    | ok x =>
      obtain ⟨d, rest, h⟩ := x
      dsimp only [bind, Except.bind, forget]
      cases table.declare d with
      | error fault => rfl
      | ok table =>
        dsimp only [leaving, Except.mapError]
        rw [← forget_declarations table rest]
        cases declarations stop table rest <;> rfl
termination_by ts.length

/-- Saying what is left changes nothing in the outcome. -/
theorem fst_run (p : Profile) (ts : List Token) : (run p ts).1 = Program.ofTokens p ts := by
  rw [run, Program.ofTokens, ← forget_declarations]
  cases declarations (stopOf ts) (.empty p) ts with
  | error halt => rfl
  | ok x => rfl

end Tracked

end Parser

end Pocket
