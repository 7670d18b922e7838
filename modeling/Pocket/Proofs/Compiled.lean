import Mathlib
import Pocket.Output
import Pocket.Proofs.Emitted

/-!
# Compilation in one step

A compilation succeeds exactly if the profile has no flaw, the source can be read to its end and its
tokens form a program; the listing and its text then exist, too.
-/

namespace Pocket

open Asm

variable {p : Profile} {source : Text}

theorem mapError_eq_ok_iff {ε ε' α : Type} {f : ε → ε'} {x : Except ε α} {a : α} :
    x.mapError f = .ok a ↔ x = .ok a := by
  cases x <;> simp [Except.mapError]

theorem compile_eq_ok_iff {o : Output} : compile p source = .ok o ↔
    p.flaw? = none ∧ ∃ ts, source.lex = .ok ts ∧ Program.ofTokens p ts = .ok o.program ∧
      o.program.listing p = .ok o.listing ∧ o.emission = o.listing.emit .unlimited := by
  unfold compile
  cases hflaw : p.flaw? with
  | some flaw => simp
  | none =>
    dsimp only
    rw [bind_eq_ok_iff]
    constructor
    · rintro ⟨ts, hlex, h⟩
      obtain ⟨prog, hprog, h⟩ := bind_eq_ok_iff.mp h
      obtain ⟨l, hl, h⟩ := bind_eq_ok_iff.mp h
      cases h
      exact ⟨rfl, ts, mapError_eq_ok_iff.mp hlex, mapError_eq_ok_iff.mp hprog,
        mapError_eq_ok_iff.mp hl, rfl⟩
    · rintro ⟨-, ts, hlex, hprog, hl, hemission⟩
      refine ⟨ts, mapError_eq_ok_iff.mpr hlex, bind_eq_ok_iff.mpr ⟨_, mapError_eq_ok_iff.mpr hprog,
        bind_eq_ok_iff.mpr ⟨_, mapError_eq_ok_iff.mpr hl, ?_⟩⟩⟩
      rw [← hemission]

/-- A source that forms a program under a profile without flaw compiles. -/
theorem exists_compile_eq_ok (hflaw : p.flaw? = none) {ts : List Token} (hlex : source.lex = .ok ts)
    {prog : Program} (hprog : Program.ofTokens p ts = .ok prog) :
    ∃ o, compile p source = .ok o ∧ o.program = prog := by
  have hl := (Program.checked_of_ofTokens hprog).listing_eq
  exact ⟨⟨prog, _, Listing.emit _ .unlimited⟩,
    compile_eq_ok_iff.mpr ⟨hflaw, ts, hlex, hprog, hl, rfl⟩, rfl⟩

/-! ### A program with a raw block, a routine and a function that is never called -/

/-- `void main(){f(7);_B();}void f(){asm{ inc hl}}void g(){}` -/
def sampleSource : Text :=
  "void main()\x7bf(7);_B();\x7dvoid f()\x7basm\x7b inc hl\x7d\x7dvoid g()\x7b\x7d"

/-- The profile of the sample: functions that are never called are left out. -/
def sampleProfile : Profile :=
  { Profile.standard with labelPrefix := "fn_", stripUnused := true }

theorem sample_read : ∃ ts prog, sampleSource.lex = .ok ts ∧
    Program.ofTokens sampleProfile ts = .ok prog := by
  have h : (sampleSource.lex.toOption.any fun ts =>
      (Program.ofTokens sampleProfile ts).isOk) = true := by cbv
  cases hlex : sampleSource.lex with
  | error fault => simp [hlex, Except.toOption] at h
  | ok ts =>
    cases hprog : Program.ofTokens sampleProfile ts with
    | error fault => simp [hlex, hprog, Except.toOption, Except.isOk, Except.toBool] at h
    | ok prog => exact ⟨ts, prog, rfl, hprog⟩

theorem sampleProfile_flaw : sampleProfile.flaw? = none := by cbv

end Pocket
