import Pocket.Text.Blank

/-!
# Macros

A macro gives a name a body, and perhaps parameters. Expanding a code text replaces the words that
name macros; string literals are left alone. The body of a macro without parameters is put in as it
is. A macro with parameters is replaced only where it is called: its arguments are put into its body
and the result is expanded again, which need not end, so that the depth of such nesting is bounded
and going beyond the bound is an outcome of its own.
-/

namespace Pocket

/-- Whether a byte may begin a word: an ASCII letter or an underscore. -/
def isWordStart (b : UInt8) : Bool :=
  ('a'.toUInt8 ≤ b && b ≤ 'z'.toUInt8) || ('A'.toUInt8 ≤ b && b ≤ 'Z'.toUInt8) ||
    b == '_'.toUInt8

/-- Whether a byte may continue a word. -/
def isWordByte (b : UInt8) : Bool :=
  isWordStart b || ('0'.toUInt8 ≤ b && b ≤ '9'.toUInt8)

/-- Cuts after the quote that closes a string literal, given what follows the opening quote. A
backslash takes the next byte along. Without a closing quote everything belongs to the literal. -/
def Text.cutLiteral : Text → Text × Text
  | [] => ([], [])
  | b :: rest =>
    if b = '"'.toUInt8 then ([b], rest)
    else if b = '\\'.toUInt8 then
      match rest with
      | [] => ([b], [])
      | c :: rest =>
        let (literal, after) := cutLiteral rest
        (b :: c :: literal, after)
    else
      let (literal, after) := cutLiteral rest
      (b :: literal, after)

/-- What a code text begins with. -/
inductive Front where
  /-- A string literal, or a single byte that begins no word. -/
  | plain (t : Text)
  | word (w : Text)
  deriving DecidableEq, Repr

/-- Cuts off what a code text begins with. A word reaches as far as it can; digits before it do not
belong to it. -/
def Front.cut (b : UInt8) (rest : Text) : Front × Text :=
  if b = '"'.toUInt8 then
    let (literal, after) := rest.cutLiteral
    (.plain (b :: literal), after)
  else if isWordStart b then
    (.word (b :: rest.takeWhile isWordByte), rest.dropWhile isWordByte)
  else (.plain [b], rest)

theorem Text.cutLiteral_length (t : Text) : t.cutLiteral.2.length ≤ t.length := by
  fun_induction cutLiteral t <;> simp_all <;> omega

theorem Front.cut_length (b : UInt8) (rest : Text) :
    (Front.cut b rest).2.length ≤ rest.length := by
  unfold Front.cut
  split
  · exact rest.cutLiteral_length
  · split
    · exact List.IsSuffix.length_le (List.dropWhile_suffix _)
    · exact Nat.le_refl _

/-! ### Replacing words -/

/-- Every word that has a value replaced by it, once, outside string literals. -/
def Text.replaceWords (value : Text → Option Text) : Text → Text
  | [] => []
  | b :: rest =>
    match _h : Front.cut b rest with
    | (.plain t, after) => t ++ replaceWords value after
    | (.word w, after) => (value w).getD w ++ replaceWords value after
termination_by t => t.length
decreasing_by
  all_goals
    have := Front.cut_length b rest
    simp_all only [List.length_cons]
    omega

/-! ### Calls -/

/-- Reads the arguments of a call up to the parenthesis that closes it: `nested` parentheses have been
opened and not closed, and `current` is the argument read so far, last byte first. Arguments are
separated by commas outside nested parentheses, and trimmed. -/
def Macro.takeArguments : Nat → Text → Text → Option (List Text × Text)
  | _, _, [] => none
  | nested, current, b :: rest =>
    if b = '('.toUInt8 then takeArguments (nested + 1) (b :: current) rest
    else if b = ')'.toUInt8 then
      match nested with
      | 0 => some ([Text.trim current.reverse], rest)
      | n + 1 => takeArguments n (b :: current) rest
    else if b = ','.toUInt8 && nested = 0 then
      (takeArguments 0 [] rest).map fun (args, after) => (Text.trim current.reverse :: args, after)
    else takeArguments nested (b :: current) rest

/-- The arguments of a call and what follows it, if a parenthesised list follows the name. -/
def Macro.arguments? (t : Text) : Option (List Text × Text) :=
  match t.dropWhile fun b => b == ' '.toUInt8 || b == '\t'.toUInt8 with
  | [] => none
  | b :: rest => if b = '('.toUInt8 then takeArguments 0 [] rest else none

theorem Macro.takeArguments_length {nested : Nat} {current t after : Text} {args : List Text}
    (h : takeArguments nested current t = some (args, after)) : after.length < t.length := by
  fun_induction takeArguments nested current t generalizing args with
  | case1 => cases h
  | case2 _ _ _ ih => exact Nat.lt_succ_of_lt (ih h)
  | case3 => cases h; simp
  | case4 _ _ _ _ ih => exact Nat.lt_succ_of_lt (ih h)
  | case5 _ _ _ _ _ _ _ ih =>
    obtain ⟨⟨args', after'⟩, hr, he⟩ := Option.map_eq_some_iff.mp h
    cases he
    exact Nat.lt_succ_of_lt (ih hr)
  | case6 _ _ _ _ _ _ _ ih => exact Nat.lt_succ_of_lt (ih h)

theorem Macro.arguments?_length {t after : Text} {args : List Text}
    (h : arguments? t = some (args, after)) : after.length < t.length := by
  unfold arguments? at h
  split at h
  · cases h
  · next b rest hd =>
    split at h
    · have h₁ := takeArguments_length h
      have h₂ := List.IsSuffix.length_le
        (List.dropWhile_suffix (l := t) fun b => b == ' '.toUInt8 || b == '\t'.toUInt8)
      rw [hd] at h₂
      simp only [List.length_cons] at h₂
      omega
    · cases h

/-! ### Expansion -/

/-- A macro: its parameters and its body. -/
structure Macro where
  params : List Text
  body : Text
  deriving DecidableEq, Repr

namespace Macro

/-- The body with arguments for the parameters, all put in at once. Of two parameters of one name the
later one counts. -/
def instantiate (m : Macro) (args : List Text) : Text :=
  let bound := (m.params.zip args).reverse
  m.body.replaceWords fun name => bound.lookup name

/-- The arguments and what follows them, if the text after the name makes a call of the macro. -/
def call? (m : Macro) (t : Text) : Option (List Text × Text) :=
  (arguments? t).filter fun (args, _) => args.length = m.params.length

theorem call?_length {m : Macro} {t after : Text} {args : List Text}
    (h : m.call? t = some (args, after)) : after.length < t.length :=
  arguments?_length (Option.filter_eq_some_iff.mp h).1

end Macro

/-- The macros in force by name; the first one of a name counts. -/
abbrev Macros := List (Text × Macro)

namespace Macros

/-- Adds a macro, which replaces an earlier one of the name. -/
def define (ms : Macros) (name : Text) (m : Macro) : Macros :=
  (name, m) :: ms

/-- A code text with its macros expanded, or nothing if calls nest deeper than `depth`. -/
def expand (ms : Macros) (depth : Nat) (t : Text) : Option Text :=
  match t with
  | [] => some []
  | b :: rest =>
    match _h : Front.cut b rest with
    | (.plain t, after) => (ms.expand depth after).map (t ++ ·)
    | (.word w, after) =>
      match ms.lookup w with
      | none => (ms.expand depth after).map (w ++ ·)
      | some m =>
        if m.params.isEmpty then (ms.expand depth after).map (m.body ++ ·)
        else match _hc : m.call? after with
          | none => (ms.expand depth after).map (w ++ ·)
          | some (args, beyond) =>
            match depth with
            | 0 => none
            | d + 1 => do
              let inner ← ms.expand d (m.instantiate args)
              let tail ← ms.expand (d + 1) beyond
              some (inner ++ tail)
termination_by (depth, t.length)
decreasing_by
  all_goals
    first
    | exact Prod.Lex.left _ _ (Nat.lt_succ_self _)
    | (apply Prod.Lex.right
       have := Front.cut_length b rest
       try have := Macro.call?_length _hc
       simp_all only [List.length_cons]
       omega)

end Macros

end Pocket
