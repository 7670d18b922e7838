import Mathlib.Logic.Function.Iterate
import Pocket.Program.Code
import Pocket.Proofs.Execution

/-!
# Running a listing

What the calculator does with a listing: it goes from item to item, keeps return addresses on a
stack, and ends when it returns with nothing on the stack. A raw block counts as one event; it leaves
the function if its last instruction does, and else control falls off its end into the next item.
Whatever the generated code never contains leaves the machine stuck.
-/

namespace Pocket

open Asm

/-! ### Numerals -/

/-- The sixteen bits that a decimal numeral with or without a minus sign stands for. -/
def Word.ofNumeral? (t : Text) : Option Word :=
  match t with
  | [] => none
  | b :: digits =>
    if b = '-'.toUInt8 then (Text.numeral? 10 digits).map fun n => .ofInt 16 (-n)
    else (Text.numeral? 10 t).map fun n => .ofInt 16 n

theorem digitValue?_toUInt8 {c : Char} (h : c.isDigit = true) :
    Text.digitValue? c.toUInt8 = some (c.toNat - '0'.toNat) ∧ c.toNat - '0'.toNat < 10 ∧
      c.toUInt8 ≠ '-'.toUInt8 := by
  have hrange : 48 ≤ c.toNat ∧ c.toNat ≤ 57 := Char.isDigit_iff_toNat.mp h
  have hbyte : c.toUInt8.toNat = c.toNat := by
    simp only [Char.toUInt8, UInt32.toNat_toUInt8, Char.toNat] at hrange ⊢
    omega
  refine ⟨?_, by simp only [Char.reduceToNat]; omega, ?_⟩
  · rw [Text.digitValue?, if_pos, hbyte]
    simp only [UInt8.le_iff_toNat_le, hbyte]
    exact hrange
  · intro he
    have hminus : c.toNat = 45 := hbyte ▸ congrArg UInt8.toNat he
    omega

theorem numeralFrom?_digits {cs : List Char} (h : ∀ c ∈ cs, c.isDigit = true) (n : Nat) :
    Text.numeralFrom? 10 n (cs.map Char.toUInt8) = some (Nat.ofDigitChars 10 cs n) := by
  induction cs generalizing n with
  | nil => rfl
  | cons c cs ih =>
    obtain ⟨hc, hcs⟩ := List.forall_mem_cons.mp h
    obtain ⟨hvalue, hlt, -⟩ := digitValue?_toUInt8 hc
    rw [List.map_cons, Text.numeralFrom?, hvalue]
    dsimp only
    rw [if_pos hlt, ih hcs, Nat.ofDigitChars_cons, Nat.mul_comm]

theorem numeral?_ofNat (n : Nat) : Text.numeral? 10 (Text.ofNat n) = some n := by
  have hne : (Text.ofNat n).isEmpty = false := by
    simp [Text.ofNat, Nat.toDigits_ne_nil]
  have hdigits : ∀ c ∈ Nat.toDigits 10 n, c.isDigit = true := fun c hc =>
    Nat.isDigit_of_mem_toDigits (by decide) (by decide) hc
  rw [Text.numeral?, hne]
  simp [Text.ofNat, numeralFrom?_digits hdigits]

/-- A machine reads the value that was written. -/
theorem Word.ofNumeral?_render (v : Word) : Word.ofNumeral? v.render = some v := by
  have hv : BitVec.ofInt 16 v.toInt = v := BitVec.ofInt_toInt
  rw [Word.render]
  cases hi : v.toInt with
  | ofNat n =>
    rw [hi] at hv
    cases hd : Text.ofNat n with
    | nil => simp [Text.ofNat, Nat.toDigits_ne_nil] at hd
    | cons b digits =>
      have hb : b ≠ '-'.toUInt8 := by
        have hmem : b ∈ Text.ofNat n := by simp [hd]
        obtain ⟨c, hc, rfl⟩ := List.mem_map.mp hmem
        exact (digitValue?_toUInt8 (Nat.isDigit_of_mem_toDigits (by decide) (by decide) hc)).2.2
      have hn := numeral?_ofNat n
      rw [hd] at hn
      simpa [Text.ofInt, hd, Word.ofNumeral?, hb, hn] using hv
  | negSucc n =>
    rw [hi] at hv
    rw [Text.ofInt, Word.ofNumeral?, if_pos rfl, numeral?_ofNat]
    exact congrArg some hv

/-! ### The machine -/

namespace Execution

/-- What an item of a listing makes the machine do. -/
inductive Action where
  | skip
  | load (value : Word)
  | call (label : Text)
  | routine (name : Text)
  | block (owner text : Text)
  | ret
  | fault
  deriving DecidableEq, Repr

/-- The meaning of an item: `ld hl, n`, `call label`, `b_call(name)`, `ret` and raw blocks. -/
def action (it : Item) : Action :=
  match it.kind, it.parens, it.args with
  | .label, _, _ | .comment, _, _ | .blank, _, _ => .skip
  | .raw, _, _ => .block it.owner it.text
  | .instr, false, [register, numeral] =>
    if it.op = "ld" ∧ register = "hl" then
      match Word.ofNumeral? numeral with
      | some value => .load value
      | none => .fault
    else .fault
  | .instr, false, [label] => if it.op = "call" then .call label else .fault
  | .instr, true, [name] => if it.op = "b_call" then .routine name else .fault
  | .instr, false, [] => if it.op = "ret" then .ret else .fault
  | _, _, _ => .fault

/-- The machine: at an item with return addresses, at the end, or unable to go on. -/
inductive Config where
  | running (pc : Nat) (stack : List Nat) (s : State)
  | halted (s : State)
  | stuck (s : State)
  deriving DecidableEq, Repr

namespace Config

/-- How far the run came. -/
def state : Config → State
  | .running _ _ s | .halted s | .stuck s => s

/-- The machine after a return. -/
def returning (stack : List Nat) (s : State) : Config :=
  match stack with
  | [] => .halted s
  | pc :: stack => .running pc stack s

end Config

/-- Where the label with a given name stands in a listing. -/
def labelIndex? (l : Listing) (name : Text) : Option Nat :=
  l.findIdx? (· == .label name)

/-- What the machine does at an item. -/
def perform (w : World) (l : Listing) (pc : Nat) (stack : List Nat) (s : State) : Action → Config
  | .skip => .running (pc + 1) stack s
  | .load value => .running (pc + 1) stack (s.load value)
  | .call label =>
    match labelIndex? l label with
    | some target => .running target ((pc + 1) :: stack) s
    | none => .stuck s
  | .routine name => .running (pc + 1) stack (s.visit w name)
  | .block owner text =>
    if Profile.standard.leaves text then .returning stack (s.visit w owner)
    else .running (pc + 1) stack (s.visit w owner)
  | .ret => .returning stack s
  | .fault => .stuck s

/-- One step of the machine. -/
def step (w : World) (l : Listing) : Config → Config
  | .running pc stack s =>
    match l[pc]? with
    | some it => perform w l pc stack s (action it)
    | none => .stuck s
  | .halted s => .halted s
  | .stuck s => .stuck s

/-! ### Facts about the machine -/

variable {w : World} {l : Listing} {pc : Nat} {stack : List Nat} {s : State}

theorem step_running (w : World) (stack : List Nat) (s : State) {it : Item}
    (h : l[pc]? = some it) : step w l (.running pc stack s) = perform w l pc stack s (action it) := by
  simp [step, h]

theorem iterate_halted (k : Nat) : (step w l)^[k] (.halted s) = .halted s :=
  Function.iterate_fixed rfl k

theorem iterate_stuck (k : Nat) : (step w l)^[k] (.stuck s) = .stuck s :=
  Function.iterate_fixed rfl k

theorem state_returning : (Config.returning stack s).state = s := by
  cases stack <;> rfl

theorem events_perform (act : Action) : s.events <+: (perform w l pc stack s act).state.events := by
  cases act with
  | skip | load | fault => exact List.prefix_refl _
  | call label =>
    rw [perform]
    split <;> exact List.prefix_refl _
  | routine name => exact s.events_visit w name
  | block owner text =>
    rw [perform]
    split
    · rw [state_returning]
      exact s.events_visit w owner
    · exact s.events_visit w owner
  | ret => exact ⟨[], by simp [perform, state_returning]⟩

/-- A step forgets no event. -/
theorem events_step (c : Config) : c.state.events <+: (step w l c).state.events := by
  cases c with
  | halted s => exact List.prefix_refl _
  | stuck s => exact List.prefix_refl _
  | running pc stack s =>
    cases hit : l[pc]? with
    | some it =>
      rw [step_running w stack s hit]
      exact events_perform (action it)
    | none =>
      rw [step, hit]
      exact List.prefix_refl _

theorem events_iterate (c : Config) {j k : Nat} (h : j ≤ k) :
    ((step w l)^[j] c).state.events <+: ((step w l)^[k] c).state.events := by
  induction h with
  | refl => exact List.prefix_refl _
  | @step k _ ih =>
    rw [Function.iterate_succ_apply']
    exact ih.trans (events_step _)

end Execution

end Pocket
