import Pocket.Program.Code
import Pocket.Program.Parser
import Pocket.Program.Reachable

/-!
# Listing of a program

The header, the entry function under the start label, the other functions in source order, and the
footer. Functions that cannot be reached are left out if the profile says so.
-/

namespace Pocket

open Asm

namespace Program

/-- The functions that are emitted besides the entry. -/
def others (prog : Program) (p : Profile) : List Decl :=
  let decls := if p.stripUnused then reachableDecls prog.decls p.entry else prog.decls
  decls.filter (·.name ≠ p.entry)

/-- The listing of a program. The profile may be another than the one the program was read under,
so the entry may be missing. -/
def listing (prog : Program) (p : Profile) : Except Fault Listing :=
  match prog.table.lookup? p.entry with
  | none => .error (.parse .start (.noEntry p.entry))
  | some entry =>
    .ok (p.header.map .directive ++ [.blank] ++ entry.code p ++
      (prog.others p).flatMap (fun d => .blank :: d.code p) ++
      (if p.footer.isEmpty then [] else [.blank]) ++ p.footer.map .directive)

end Program

end Pocket
