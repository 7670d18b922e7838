import Pocket.Position
import Pocket.Text.Quoted

/-!
# Tokens

The lexical units of the source language, each with the text it was read from and its position.
-/

namespace Pocket

namespace Token

/-- What a token is. Kinds are numbered from zero in the order given here; `other` stands for a
number beyond the list. -/
inductive Kind where
  | eof
  | identifier
  | integer
  | string
  | rawText
  | void
  | int
  | char
  | asm
  | leftBrace
  | rightBrace
  | leftParen
  | rightParen
  | semicolon
  | comma
  | assign
  | plus
  | minus
  | star
  | slash
  | percent
  | amp
  | pipe
  | caret
  | tilde
  | shiftLeft
  | shiftRight
  | other (code : Int)
  deriving DecidableEq, Repr

namespace Kind

/-- The named kinds in the order of their numbers. -/
def named : List Kind :=
  [.eof, .identifier, .integer, .string, .rawText, .void, .int, .char, .asm, .leftBrace,
   .rightBrace, .leftParen, .rightParen, .semicolon, .comma, .assign, .plus, .minus, .star, .slash,
   .percent, .amp, .pipe, .caret, .tilde, .shiftLeft, .shiftRight]

/-- The kind with a given number. -/
def ofCode (code : Int) : Kind :=
  match code with
  | .ofNat n => named.getD n (.other code)
  | .negSucc _ => .other code

/-- The name of a kind. -/
def name : Kind → Text
  | .eof => "EOF"
  | .identifier => "IDENTIFIER"
  | .integer => "INTEGER"
  | .string => "STRING"
  | .rawText => "RAWTEXT"
  | .void => "VOID"
  | .int => "INT"
  | .char => "CHAR"
  | .asm => "ASM"
  | .leftBrace => "LBRACE"
  | .rightBrace => "RBRACE"
  | .leftParen => "LPAREN"
  | .rightParen => "RPAREN"
  | .semicolon => "SEMICOLON"
  | .comma => "COMMA"
  | .assign => "ASSIGN"
  | .plus => "PLUS"
  | .minus => "MINUS"
  | .star => "STAR"
  | .slash => "SLASH"
  | .percent => "PERCENT"
  | .amp => "AMP"
  | .pipe => "PIPE"
  | .caret => "CARET"
  | .tilde => "TILDE"
  | .shiftLeft => "SHL"
  | .shiftRight => "SHR"
  | .other code => "TokenType(" ++ .ofInt code ++ ")"

/-- The kind with a given name. -/
def ofName? (t : Text) : Option Kind :=
  named.find? (·.name = t)

/-- How an operator is written; the empty text for every other kind. -/
def symbol : Kind → Text
  | .plus => "+"
  | .minus => "-"
  | .star => "*"
  | .slash => "/"
  | .percent => "%"
  | .amp => "&"
  | .pipe => "|"
  | .caret => "^"
  | .tilde => "~"
  | .shiftLeft => "<<"
  | .shiftRight => ">>"
  | _ => []

/-- Whether the kind begins a declaration. -/
def isType : Kind → Bool
  | .void | .int | .char => true
  | _ => false

end Kind

end Token

/-- A lexical unit: its kind, the text it was read from, and where that text begins. -/
structure Token where
  kind : Token.Kind
  lexeme : Text
  pos : Position
  deriving DecidableEq, Repr

namespace Token

/-- A token as error messages name it. -/
def describe (t : Token) : Text :=
  match t.kind with
  | .eof => "end of input"
  | .rawText => "asm text"
  | _ => t.lexeme.quote

/-- A token as a line of a token table. Raw text shows its size only. -/
def render (t : Token) : Text :=
  let shown : Text :=
    match t.kind with
    | .rawText => "<" ++ .ofNat t.lexeme.length ++ " bytes>"
    | _ => t.lexeme.quote
  t.kind.name.padRight 10 ++ " " ++ shown.padRight 14 ++ "  " ++ t.pos.render

end Token

end Pocket
