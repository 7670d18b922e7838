import Pocket.Program.Parser

/-!
# Readers without their measures

The readers of the parser return the tokens they leave over together with a proof that there are
fewer of them. Here each reader is seen without that proof, and gets the equations that say what it
does on a list of tokens. The rest of the theory of parsing uses only these equations.
-/

namespace Pocket

/-- A computation in two steps succeeds if both steps do. -/
theorem bind_eq_ok_iff {ε α β : Type} {x : Except ε α} {f : α → Except ε β} {b : β} :
    (x >>= f) = .ok b ↔ ∃ a, x = .ok a ∧ f a = .ok b := by
  cases x with
  | error e => simp [bind, Except.bind]
  | ok a => simp [bind, Except.bind]

theorem mapM_cons_eq_ok_iff {ε α β : Type} {f : α → Except ε β} {x : α} {xs : List α} {zs : List β} :
    (x :: xs).mapM f = .ok zs ↔ ∃ y ys, f x = .ok y ∧ xs.mapM f = .ok ys ∧ y :: ys = zs := by
  rw [List.mapM_cons, bind_eq_ok_iff]
  simp only [bind_eq_ok_iff]
  simp [pure, Except.pure]

/-- Where the keys are distinct, a member is found by its key. -/
theorem find?_of_nodup {α β : Type} [DecidableEq β] {f : α → β} {xs : List α} {x : α}
    (hnodup : (xs.map f).Nodup) (hx : x ∈ xs) : xs.find? (f · = f x) = some x := by
  induction xs with
  | nil => cases hx
  | cons y ys ih =>
    obtain ⟨hy, hys⟩ := List.nodup_cons.mp hnodup
    rcases List.mem_cons.mp hx with rfl | hx
    · simp
    · have hne : f y ≠ f x := fun h => hy (h ▸ List.mem_map_of_mem hx)
      rw [List.find?_cons_of_neg (by simpa using hne), ih hys hx]

theorem eq_ok_of_toOption {ε α : Type} {x : Except ε α} {a : α} (h : x.toOption = some a) :
    x = .ok a := by
  cases x with
  | error e => cases h
  | ok b => exact congrArg Except.ok (Option.some.inj h)

namespace Parser

variable {α β : Type} {P Q : List Token → Prop}

/-- What a reader yields, without the proof about the tokens it leaves over. -/
def bare (r : Except Fault (α × { rest : List Token // P rest })) : Except Fault (α × List Token) :=
  r.map fun x => (x.1, x.2.val)

@[simp] theorem bare_ok (a : α) (rest : { rest : List Token // P rest }) :
    bare (.ok (a, rest)) = .ok (a, rest.val) :=
  rfl

@[simp] theorem bare_error (e : Fault) :
    bare (.error e : Except Fault (α × { rest : List Token // P rest })) = .error e :=
  rfl

theorem prop_of_bare {r : Except Fault (α × { rest : List Token // P rest })} {a : α}
    {rest : List Token} (h : bare r = .ok (a, rest)) : P rest := by
  cases r with
  | error e => simp at h
  | ok x =>
    obtain ⟨b, rest', hrest'⟩ := x
    simp only [bare_ok, Except.ok.injEq, Prod.mk.injEq] at h
    exact h.2 ▸ hrest'

theorem bare_eq_error_iff {r : Except Fault (α × { rest : List Token // P rest })} {e : Fault} :
    bare r = .error e ↔ r = .error e := by
  cases r <;> simp [bare, Except.map]

/-- A reader that goes on behind another one. -/
theorem bare_bind {r : Except Fault (α × { rest : List Token // P rest })}
    {f : α × { rest : List Token // P rest } → Except Fault (β × { rest : List Token // Q rest })}
    {g : α × List Token → Except Fault (β × List Token)}
    (h : ∀ a rest hrest, bare (f (a, ⟨rest, hrest⟩)) = g (a, rest)) :
    bare (r >>= f) = (bare r >>= g) := by
  cases r with
  | error e => rfl
  | ok x =>
    obtain ⟨a, rest, hrest⟩ := x
    exact h a rest hrest

/-- A reader whose result is only handed on. -/
theorem bare_pass {r : Except Fault (α × { rest : List Token // P rest })}
    {f : α × { rest : List Token // P rest } → Except Fault (α × { rest : List Token // Q rest })}
    (h : ∀ a rest hrest, bare (f (a, ⟨rest, hrest⟩)) = .ok (a, rest)) : bare (r >>= f) = bare r := by
  cases r with
  | error e => rfl
  | ok x =>
    obtain ⟨a, rest, hrest⟩ := x
    exact h a rest hrest

theorem bare_ite {c : Prop} [Decidable c]
    {x y : Except Fault (α × { rest : List Token // P rest })} :
    bare (if c then x else y) = if c then bare x else bare y := by
  split <;> rfl

variable (stop : Token)

theorem bare_expect_cons (what : Wanted) (t : Token) (rest : List Token) :
    bare (expect stop what (t :: rest))
      = if t.kind = what.kind then .ok (t, rest)
        else .error (.parse t.pos (.expected what t)) := by
  rw [expect]
  split <;> rfl

theorem bare_expect_nil (what : Wanted) :
    bare (expect stop what []) = .error (.parse stop.pos (.expected what stop)) :=
  rfl

theorem bare_expect_of_kind (what : Wanted) {t : Token} (ht : t.kind = what.kind)
    (rest : List Token) : bare (expect stop what (t :: rest)) = .ok (t, rest) := by
  rw [bare_expect_cons, if_pos ht]

/-! ### Expressions -/

theorem bare_primary_nil :
    bare (primary stop []) = .error (.parse stop.pos (.expectedExpression stop)) := by
  rw [primary]
  rfl

theorem bare_primary_integer {t : Token} (ht : t.kind = .integer) (rest : List Token) :
    bare (primary stop (t :: rest))
      = match Word.ofLiteral? t.lexeme with
        | some value => .ok (.literal value t.lexeme t.pos, rest)
        | none => .error (.eval t.pos (.tooLarge t.lexeme)) := by
  rw [primary, ht]
  cases Word.ofLiteral? t.lexeme <;> rfl

theorem bare_primary_leftParen {t : Token} (ht : t.kind = .leftParen) (rest : List Token) :
    bare (primary stop (t :: rest)) = (do
      let (e, rest) ← bare (binary stop operatorLevels rest)
      let (_, rest) ← bare (expect stop .rightParen rest)
      .ok (e, rest)) := by
  rw [primary, ht]
  refine bare_bind fun e rest _ => ?_
  exact bare_bind fun _ _ _ => rfl

/-- Only a literal and a parenthesis begin an operand. -/
theorem primary_error {t : Token} (hi : t.kind ≠ .integer) (hp : t.kind ≠ .leftParen)
    (rest : List Token) : ∃ fault, bare (primary stop (t :: rest)) = .error fault := by
  rw [primary]
  split
  · next h => exact absurd h hi
  · next h => exact absurd h hp
  · exact ⟨_, rfl⟩
  · exact ⟨_, rfl⟩
  · exact ⟨_, rfl⟩

theorem bare_primary_string {t : Token} (ht : t.kind = .string) (rest : List Token) :
    bare (primary stop (t :: rest)) = .error (.parse t.pos .stringLiteral) := by
  rw [primary, ht]
  rfl

theorem bare_primary_identifier {t : Token} (ht : t.kind = .identifier) (rest : List Token) :
    bare (primary stop (t :: rest)) = .error (.parse t.pos (.notConstant t.lexeme)) := by
  rw [primary, ht]
  rfl

theorem bare_primary_other {t : Token} (hi : t.kind ≠ .integer) (hp : t.kind ≠ .leftParen)
    (hs : t.kind ≠ .string) (hn : t.kind ≠ .identifier) (rest : List Token) :
    bare (primary stop (t :: rest)) = .error (.parse t.pos (.expectedExpression t)) := by
  rw [primary]
  split
  · next h => exact absurd h hi
  · next h => exact absurd h hp
  · next h => exact absurd h hs
  · next h => exact absurd h hn
  · rfl

theorem bare_unary_sign {t : Token} (ht : isUnary t.kind = true) (rest : List Token) :
    bare (unary stop (t :: rest)) = (do
      let (e, rest) ← bare (unary stop rest)
      .ok (.unary t.kind e t.pos, rest)) := by
  rw [unary, if_pos ht]
  exact bare_bind fun _ _ _ => rfl

theorem bare_unary_operand {ts : List Token} (h : ∀ t ∈ ts.head?, isUnary t.kind = false) :
    bare (unary stop ts) = bare (primary stop ts) := by
  cases ts with
  | nil => rw [unary]
  | cons t rest =>
    have ht : ¬isUnary t.kind = true := by simp [h t (by simp)]
    rw [unary, if_neg ht]

theorem bare_binary_nil (ts : List Token) :
    bare (binary stop [] ts) = bare (unary stop ts) := by
  rw [binary]

theorem bare_binary_cons (ops : List Token.Kind) (tighter : List (List Token.Kind))
    (ts : List Token) :
    bare (binary stop (ops :: tighter) ts) = (do
      let (left, rest) ← bare (binary stop tighter ts)
      bare (chain stop ops tighter left rest)) := by
  rw [binary]
  exact bare_bind fun left rest h => bare_pass fun _ _ _ => rfl

theorem bare_chain_stop {ops : List Token.Kind} {ts : List Token}
    (h : ∀ t ∈ ts.head?, t.kind ∉ ops) (tighter : List (List Token.Kind)) (left : Expr) :
    bare (chain stop ops tighter left ts) = .ok (left, ts) := by
  cases ts with
  | nil => rw [chain]; rfl
  | cons t rest =>
    have ht : ¬ops.contains t.kind = true := by simpa using h t (by simp)
    rw [chain, if_neg ht]
    rfl

theorem bare_chain_operator {ops : List Token.Kind} {t : Token} (ht : t.kind ∈ ops)
    (tighter : List (List Token.Kind)) (left : Expr) (rest : List Token) :
    bare (chain stop ops tighter left (t :: rest)) = (do
      let (right, rest) ← bare (binary stop tighter rest)
      bare (chain stop ops tighter (.binary t.kind left right t.pos) rest)) := by
  have hc : ops.contains t.kind = true := by simpa using ht
  rw [chain, if_pos hc]
  exact bare_bind fun right rest h => bare_pass fun _ _ _ => rfl

theorem bare_folded (ts : List Token) :
    bare (folded stop ts) = (do
      let (e, rest) ← bare (binary stop operatorLevels ts)
      let value ← e.fold
      .ok ((e, value), rest)) := by
  rw [folded, expression]
  refine bare_bind fun e rest h => ?_
  dsimp only
  cases e.fold <;> rfl

/-! ### Statements -/

theorem bare_callRest_empty (name : Token) {ts : List Token}
    (h : (peek stop ts).kind = .rightParen) :
    bare (callRest stop name ts) = (do
      let (_, rest) ← bare (expect stop .rightParen ts)
      let (_, rest) ← bare (expect stop .semicolon rest)
      .ok (⟨name.lexeme, none, 0, .unresolved, name.pos⟩, rest)) := by
  rw [callRest, if_pos h]
  exact bare_bind fun _ _ _ => bare_bind fun _ _ _ => rfl

theorem bare_callRest_argument (name : Token) {ts : List Token}
    (h : (peek stop ts).kind ≠ .rightParen) :
    bare (callRest stop name ts) = (do
      let ((e, value), rest) ← bare (folded stop ts)
      if (peek stop rest).kind = .comma then
        .error (.parse (peek stop rest).pos (.extraArgument name.lexeme))
      else
        let (_, rest) ← bare (expect stop .rightParen rest)
        let (_, rest) ← bare (expect stop .semicolon rest)
        .ok (⟨name.lexeme, some e, value, .unresolved, name.pos⟩, rest)) := by
  rw [callRest, if_neg h]
  refine bare_bind fun x rest _ => ?_
  dsimp only
  split
  · rfl
  · exact bare_bind fun _ _ _ => bare_bind fun _ _ _ => rfl

theorem bare_statement_call {t paren : Token} (ht : t.kind = .identifier)
    (hp : paren.kind = .leftParen) (args : List Token) :
    bare (statement stop (t :: paren :: args)) = (do
      let (c, rest) ← bare (callRest stop t args)
      .ok (.call c, rest)) := by
  simp only [statement, if_pos ht, if_pos hp]
  exact bare_bind fun _ _ _ => rfl

theorem bare_statement_expr {t : Token} (ht : startsExpression t.kind = true) (rest : List Token) :
    bare (statement stop (t :: rest)) = (do
      let ((e, value), rest) ← bare (folded stop (t :: rest))
      let (_, rest) ← bare (expect stop .semicolon rest)
      .ok (.expr e value t.pos, rest)) := by
  have hi : t.kind ≠ .identifier := by
    intro h
    rw [h] at ht
    cases ht
  simp only [statement, if_neg hi, if_pos ht]
  exact bare_bind fun _ _ _ => bare_bind fun _ _ _ => rfl

theorem bare_statement_nil :
    bare (statement stop []) = .error (.parse stop.pos (.unknownStatement stop)) :=
  rfl

/-- A statement that is no call and does not begin like an expression is unknown. -/
theorem bare_statement_unknown {t : Token} {rest : List Token}
    (hcall : t.kind = .identifier → ∀ paren ∈ rest.head?, paren.kind ≠ .leftParen)
    (hexpr : startsExpression t.kind = false) :
    bare (statement stop (t :: rest)) = .error (.parse t.pos (.unknownStatement t)) := by
  by_cases ht : t.kind = .identifier
  · cases rest with
    | nil => simp [statement, ht]
    | cons paren args => simp [statement, ht, hcall ht paren rfl]
  · simp [statement, ht, hexpr]

/-- A statement is a call or begins like an expression. -/
theorem statement_ok_cases {ts rest : List Token} {s : Stmt}
    (h : bare (statement stop ts) = .ok (s, rest)) :
    ∃ t more, ts = t :: more ∧
      ((t.kind = .identifier ∧ ∃ paren args, more = paren :: args ∧ paren.kind = .leftParen) ∨
        startsExpression t.kind = true) := by
  cases ts with
  | nil => simp [statement] at h
  | cons t more =>
    refine ⟨t, more, rfl, ?_⟩
    by_cases ht : t.kind = .identifier
    · cases more with
      | nil => simp [statement, ht] at h
      | cons paren args =>
        by_cases hp : paren.kind = .leftParen
        · exact Or.inl ⟨ht, paren, args, rfl, hp⟩
        · simp [statement, ht, hp] at h
    · by_cases hs : startsExpression t.kind = true
      · exact Or.inr hs
      · simp [statement, ht, hs] at h

theorem bare_statements_end (name : Text) {ts : List Token}
    (h : (peek stop ts).kind = .rightBrace) :
    bare (statements stop name ts) = .ok ([], ts) := by
  rw [statements, if_pos h]
  rfl

theorem bare_statements_more (name : Text) {ts : List Token}
    (hb : (peek stop ts).kind ≠ .rightBrace) (he : (peek stop ts).kind ≠ .eof)
    (ha : (peek stop ts).kind ≠ .asm) :
    bare (statements stop name ts) = (do
      let (s, rest) ← bare (statement stop ts)
      let (ss, rest) ← bare (statements stop name rest)
      .ok (s :: ss, rest)) := by
  rw [statements, if_neg hb, if_neg he, if_neg ha]
  exact bare_bind fun _ _ _ => bare_bind fun _ _ _ => rfl

theorem bare_statements_eof (name : Text) {ts : List Token} (h : (peek stop ts).kind = .eof) :
    bare (statements stop name ts) =
      .error (.parse (peek stop ts).pos (.unclosedFunction name)) := by
  rw [statements, if_neg (by simp [h]), if_pos h]
  rfl

theorem bare_statements_asm (name : Text) {ts : List Token} (h : (peek stop ts).kind = .asm) :
    bare (statements stop name ts) = .error (.parse (peek stop ts).pos .asmNotWholeBody) := by
  rw [statements, if_neg (by simp [h]), if_neg (by simp [h]), if_pos h]
  rfl

/-- Statements end at a closing brace. -/
theorem statements_ok_cases {name : Text} {ts rest : List Token} {ss : List Stmt}
    (h : bare (statements stop name ts) = .ok (ss, rest)) :
    (peek stop ts).kind = .rightBrace ∨ ((peek stop ts).kind ≠ .rightBrace ∧
      (peek stop ts).kind ≠ .eof ∧ (peek stop ts).kind ≠ .asm) := by
  by_cases hb : (peek stop ts).kind = .rightBrace
  · exact Or.inl hb
  · refine Or.inr ⟨hb, ?_, ?_⟩
    · intro he
      rw [statements, if_neg hb, if_pos he] at h
      cases h
    · intro ha
      rw [statements, if_neg hb, if_neg (by simp [ha]), if_pos ha] at h
      cases h

/-! ### Declarations -/

/-- The tokens behind a semicolon that may stand in front. -/
def dropSemicolon : List Token → List Token
  | t :: more => if t.kind = .semicolon then more else t :: more
  | [] => []

theorem bare_asmBody (ts : List Token) :
    bare (asmBody stop ts) = (do
      let (_, rest) ← bare (expect stop .asmLeftBrace ts)
      let (text, rest) ← bare (expect stop .asmText rest)
      let (_, rest) ← bare (expect stop .asmRightBrace rest)
      let t := peek stop (dropSemicolon rest)
      if t.kind = .rightBrace ∨ t.kind = .eof then
        .ok (.asm text.lexeme text.pos, dropSemicolon rest)
      else .error (.parse t.pos .asmNotWholeBody)) := by
  rw [asmBody]
  refine bare_bind fun _ _ _ => bare_bind fun text _ _ => bare_bind fun _ rest _ => ?_
  cases rest with
  | nil => exact bare_ite
  | cons t more =>
    by_cases ht : t.kind = .semicolon
    · simp only [dropSemicolon, if_pos ht]
      exact bare_ite
    · simp only [dropSemicolon, if_neg ht]
      exact bare_ite

theorem bare_body_asm (name : Text) {t : Token} (ht : t.kind = .asm) (rest : List Token) :
    bare (body stop name (t :: rest)) = bare (asmBody stop rest) := by
  rw [body, if_pos ht]
  exact bare_pass fun _ _ _ => rfl

theorem bare_body_stmts (name : Text) {ts : List Token} (h : ∀ t ∈ ts.head?, t.kind ≠ .asm) :
    bare (body stop name ts) = (do
      let (ss, rest) ← bare (statements stop name ts)
      .ok (.stmts ss, rest)) := by
  cases ts with
  | nil =>
    rw [body]
    exact bare_bind fun _ _ _ => rfl
  | cons t rest =>
    rw [body, if_neg (h t (by simp))]
    exact bare_bind fun _ _ _ => rfl

theorem bare_declaration {type : Token} (ht : type.kind.isType = true) (rest : List Token) :
    bare (declaration stop (type :: rest)) = (do
      let (name, rest) ← bare (expect stop .functionName rest)
      let (_, rest) ← bare (expect stop .leftParen rest)
      let rest := (emptyParameters rest).val
      if (peek stop rest).kind = .rightParen then
        let (_, rest) ← bare (expect stop .rightParen rest)
        let (_, rest) ← bare (expect stop .leftBrace rest)
        let (b, rest) ← bare (body stop name.lexeme rest)
        let (_, rest) ← bare (expect stop .rightBrace rest)
        .ok (⟨name.lexeme, type.lexeme, b, name.pos⟩, rest)
      else .error (.parse (peek stop rest).pos .hasParameters)) := by
  rw [declaration, if_pos ht]
  refine bare_bind fun name _ _ => bare_bind fun _ rest _ => ?_
  dsimp only
  split
  · exact bare_bind fun _ _ _ => bare_bind fun _ _ _ => bare_bind fun _ _ _ =>
      bare_bind fun _ _ _ => rfl
  · rfl

theorem bare_declaration_nil :
    bare (declaration stop []) = .error (.parse stop.pos (.expectedDeclaration stop)) :=
  rfl

theorem bare_declaration_other {t : Token} (ht : t.kind.isType = false) (rest : List Token) :
    bare (declaration stop (t :: rest)) = .error (.parse t.pos (.expectedDeclaration t)) := by
  rw [declaration, if_neg (by simp [ht])]
  rfl

theorem declarations_end {table : DeclTable} {ts : List Token} (h : (peek stop ts).kind = .eof) :
    declarations stop table ts = .ok (table, peek stop ts) := by
  rw [declarations, if_pos h]

theorem declarations_more {table : DeclTable} {ts : List Token} (h : (peek stop ts).kind ≠ .eof) :
    declarations stop table ts = (do
      let (d, rest) ← bare (declaration stop ts)
      let table ← table.declare d
      declarations stop table rest) := by
  rw [declarations, if_neg h]
  cases hd : declaration stop ts with
  | error e => rfl
  | ok x => rfl

end Parser

end Pocket
