import Pocket.Preprocess.Macro

/-!
# Regions of a source

Macros are expanded in code, and neither in comments nor in raw assembler bodies. A line is cut into
segments of code and segments that are kept as they are; what a line leaves open goes on in the next
one.
-/

namespace Pocket

/-- What a line may begin in the middle of. -/
inductive Region where
  | code
  | comment
  /-- After the word `asm`, where the brace of a raw body may follow. -/
  | asmWord
  | asmBody
  deriving DecidableEq, Repr

/-- A stretch of a line. -/
inductive Segment where
  | code (t : Text)
  | kept (t : Text)
  deriving DecidableEq, Repr

/-- Cuts after the first occurrence of a mark. -/
def Text.cutAfter? (mark : Text) : Text → Option (Text × Text)
  | [] => none
  | b :: rest =>
    match Text.after? mark (b :: rest) with
    | some after => some (mark, after)
    | none => (cutAfter? mark rest).map fun (before, after) => (b :: before, after)

theorem Text.after?_length {start t after : Text} (h : after? start t = some after) :
    after.length + start.length = t.length := by
  fun_induction after? start t with
  | case1 => cases h; simp
  | case2 => cases h
  | case3 _ _ _ ih =>
    have := ih h
    simp only [List.length_cons]
    omega
  | case4 => cases h

theorem Text.cutAfter?_length {mark t before after : Text} (hm : mark ≠ [])
    (h : cutAfter? mark t = some (before, after)) : after.length < t.length := by
  fun_induction cutAfter? mark t generalizing before with
  | case1 => cases h
  | case2 b rest after' ha =>
    cases h
    have := after?_length ha
    have := List.length_pos_iff.mpr hm
    omega
  | case3 b rest ha ih =>
    obtain ⟨⟨before', after'⟩, hr, he⟩ := Option.map_eq_some_iff.mp h
    cases he
    exact Nat.lt_succ_of_lt (ih hr)

namespace Region

/-- A segment put before others. -/
def lead (s : Segment) (others : List Segment × Region) : List Segment × Region :=
  (s :: others.1, others.2)

/-- Whether a byte may stand between the word `asm` and its brace. -/
def isAsmGap (b : UInt8) : Bool :=
  b == ' '.toUInt8 || b == '\t'.toUInt8 || b == '\r'.toUInt8

/-- Cuts the rest of a line into segments and tells what it leaves open. `held` is what has been read
since the last segment. -/
def segments (region : Region) (held rest : Text) : List Segment × Region :=
  match rest with
  | [] => ([if region = .code then .code held else .kept held], region)
  | b :: tail =>
    match region with
    | .asmBody =>
      match _h : Text.cutAfter? "\x7d" (b :: tail) with
      | none => ([.kept (held ++ b :: tail)], .asmBody)
      | some (inside, after) => lead (.kept (held ++ inside)) (segments .code [] after)
    | .comment =>
      match _h : Text.cutAfter? "*/" (b :: tail) with
      | none => ([.kept (held ++ b :: tail)], .comment)
      | some (inside, after) => lead (.kept (held ++ inside)) (segments .code [] after)
    | .asmWord =>
      if isAsmGap b then segments .asmWord (held ++ [b]) tail
      else if b = '\x7b'.toUInt8 then lead (.kept (held ++ [b])) (segments .asmBody [] tail)
      else segments .code held (b :: tail)
    | .code =>
      if Text.startsWith (b :: tail) "//" then ([.code held, .kept (b :: tail)], .code)
      else if Text.startsWith (b :: tail) "/*" then
        lead (.code held) (segments .comment "/*" (tail.drop 1))
      else match _h : Front.cut b tail with
        | (.plain t, after) => segments .code (held ++ t) after
        | (.word w, after) =>
          if w = "asm" then lead (.code (held ++ w)) (segments .asmWord [] after)
          else segments .code (held ++ w) after
termination_by (rest.length, if region = .asmWord then 1 else 0)
decreasing_by
  all_goals
    first
    | exact Prod.Lex.left _ _ (Text.cutAfter?_length (by decide) _h)
    | exact Prod.Lex.left _ _ (Nat.lt_succ_self _)
    | exact Prod.Lex.right _ (by decide)
    | (apply Prod.Lex.left
       simp only [List.length_cons, List.length_drop]
       omega)
    | (apply Prod.Lex.left
       have := Front.cut_length b tail
       simp_all only [List.length_cons]
       omega)

/-- A whole line cut into segments. -/
def cutLine (region : Region) (line : Text) : List Segment × Region :=
  segments region [] line

end Region

/-- A segment with the macros of its code expanded. -/
def Segment.expand (ms : Macros) (depth : Nat) : Segment → Option Text
  | .code t => ms.expand depth t
  | .kept t => some t

/-- Segments with the macros of their code expanded, put together again. -/
def Segment.expandAll (ms : Macros) (depth : Nat) (segments : List Segment) : Option Text :=
  (segments.mapM (Segment.expand ms depth)).map List.flatten

end Pocket
