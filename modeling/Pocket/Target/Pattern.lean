import Pocket.Text.Glyph
import Pocket.Text.Ranges

/-!
# Name patterns

A pattern describes names: `*` stands for any bytes and `?` for any character, neither of them a
slash, `[a-z]` and `[^a-z]` for a character in or outside a class, and a backslash takes the next
character as it is. A pattern is read once, without looking at a name, so whether it is well formed
does not depend on the names it is used for. Behind a star the leftmost place where the following
piece fits is taken, and no later one is tried.
-/

namespace Pocket

namespace Pattern

/-- A part of a pattern that stands for one byte or one character. -/
inductive Piece where
  | byte (b : UInt8)
  | anyChar
  | oneOf (negated : Bool) (ranges : Ranges)
  deriving DecidableEq, Repr

/-- A piece or a star. -/
inductive Symbol where
  | star
  | piece (p : Piece)
  deriving DecidableEq, Repr

/-! ### Reading -/

/-- Glyphs left over, fewer than there were. -/
abbrev Fewer (gs : List Glyph) := { rest : List Glyph // rest.length < gs.length }

/-- An end of a class range. More has to follow it, since the class is not closed yet. -/
def rangeEnd? (gs : List Glyph) : Option (Nat × Fewer gs) :=
  match gs with
  | [] => none
  | g :: rest =>
    if g.char = '-' ∨ g.char = ']' then none
    else if g.char = '\\' then
      match rest with
      | e :: more :: rest =>
        if e.isIllFormed then none else some (e.char.toNat, ⟨more :: rest, by simp⟩)
      | _ => none
    else if g.isIllFormed ∨ rest = [] then none
    else some (g.char.toNat, ⟨rest, by simp⟩)

/-- A range of a class: one character, or two with a dash between them. -/
def range? (gs : List Glyph) : Option ((Nat × Nat) × Fewer gs) :=
  match rangeEnd? gs with
  | none => none
  | some (low, ⟨rest, h⟩) =>
    match rest with
    | [] => some ((low, low), ⟨[], h⟩)
    | dash :: rest =>
      if dash.char = '-' then
        match rangeEnd? rest with
        | none => none
        | some (high, ⟨rest, h'⟩) => some ((low, high), ⟨rest, by simp at h; omega⟩)
      else some ((low, low), ⟨dash :: rest, h⟩)

/-- The further ranges of a class and what follows its closing bracket. -/
def ranges? (gs : List Glyph) : Option (Ranges × Fewer gs) :=
  match gs with
  | [] => none
  | g :: rest =>
    if g.char = ']' then some ([], ⟨rest, by simp⟩)
    else
      match range? (g :: rest) with
      | none => none
      | some (r, ⟨rest', h⟩) =>
        match ranges? rest' with
        | none => none
        | some (rs, ⟨rest'', h'⟩) => some (r :: rs, ⟨rest'', by omega⟩)
termination_by gs.length
decreasing_by exact h

/-- The class behind an opening bracket, which has at least one range. -/
def class? (gs : List Glyph) : Option (Piece × Fewer gs) :=
  let negated := gs.head?.map Glyph.char = some '^'
  match h : range? (if negated then gs.tail else gs) with
  | none => none
  | some (r, ⟨rest, hr⟩) =>
    match ranges? rest with
    | none => none
    | some (rs, ⟨rest', hr'⟩) =>
      some (.oneOf negated (r :: rs), ⟨rest', by
        have : (if negated then gs.tail else gs).length ≤ gs.length := by
          split <;> simp
        omega⟩)

/-- The symbols of a pattern, if it is well formed. -/
def symbols? (gs : List Glyph) : Option (List Symbol) :=
  match gs with
  | [] => some []
  | g :: rest =>
    if g.char = '*' then (symbols? rest).map (.star :: ·)
    else if g.char = '?' then (symbols? rest).map (.piece .anyChar :: ·)
    else if g.char = '[' then
      match class? rest with
      | none => none
      | some (p, ⟨rest', _⟩) => (symbols? rest').map (.piece p :: ·)
    else if g.char = '\\' then
      match rest with
      | [] => none
      | e :: rest => (symbols? rest).map (e.bytes.map (.piece ∘ .byte) ++ ·)
    else (symbols? rest).map (g.bytes.map (.piece ∘ .byte) ++ ·)
termination_by gs.length

end Pattern

/-- A pattern: the pieces before the first star, and those after each star. Only the last star may
be followed by nothing. -/
structure Pattern where
  head : List Pattern.Piece
  starred : List (List Pattern.Piece)
  deriving DecidableEq, Repr

namespace Pattern

/-- Symbols grouped at their stars; stars in a row count as one. -/
def ofSymbols : List Symbol → Pattern
  | [] => ⟨[], []⟩
  | .star :: rest =>
    let p := ofSymbols rest
    if p.head.isEmpty && !p.starred.isEmpty then ⟨[], p.starred⟩ else ⟨[], p.head :: p.starred⟩
  | .piece x :: rest =>
    let p := ofSymbols rest
    ⟨x :: p.head, p.starred⟩

/-- Reads a pattern, if it is well formed. -/
def ofText? (t : Text) : Option Pattern :=
  (symbols? t.glyphs).map ofSymbols

/-! ### Matching -/

/-- What is left of a name after one piece, if the piece fits. -/
def Piece.take? (p : Piece) (name : Text) : Option Text :=
  match name with
  | [] => none
  | b :: rest =>
    let g := Glyph.first b rest
    match p with
    | .byte c => if b = c then some rest else none
    | .anyChar => if g.char = '/' then none else some (name.drop g.bytes.length)
    | .oneOf negated ranges =>
      if ranges.any (fun (low, high) => low ≤ g.char.toNat && g.char.toNat ≤ high) = negated
      then none
      else some (name.drop g.bytes.length)

/-- What is left of a name after some pieces, if they all fit. -/
def takeAll? : List Piece → Text → Option Text
  | [], name => some name
  | p :: ps, name => (p.take? name).bind (takeAll? ps)

/-- The endings of a name that a star may leave over: it passes no slash. -/
def skips : Text → List Text
  | [] => [[]]
  | b :: name => (b :: name) :: if b = '/'.toUInt8 then [] else skips name

/-- Whether a name fits what follows the first star. -/
def fitsStarred : List (List Piece) → Text → Bool
  | [], name => name.isEmpty
  | [[]], name => !name.contains '/'.toUInt8
  | ps :: more, name =>
    let fits (tail : Text) : Option Text :=
      (takeAll? ps tail).filter fun rest => rest.isEmpty || !more.isEmpty
    match (skips name).findSome? fits with
    | some rest => fitsStarred more rest
    | none => false

/-- Whether a name fits the pattern. -/
def fits (p : Pattern) (name : Text) : Bool :=
  match takeAll? p.head name with
  | some rest => fitsStarred p.starred rest
  | none => false

end Pattern

end Pocket
