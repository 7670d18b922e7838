import Mathlib
import Pocket.Proofs.Disks
import Pocket.Proofs.Documents
import Pocket.Target.Schema

/-!
# Stored profiles are loaded as they were

Every field of a profile is written under its own key, but for two that may be left out if they are empty, and
these are empty in the standard profile that a file is laid over. So a file that was written for a profile is read
as that profile, whatever values it shares with the standard profile and wherever they differ.
-/

namespace Pocket.Profile

open Yaml

variable {p q : Profile} {k : Key} {t : Text}

/-! ### Fields -/

/-- A profile whose texts are printable and stand on one line. -/
def Printed (p : Profile) : Prop :=
  ∀ k ∈ keys, ∀ t ∈ (k.field.datum p).texts, t.Printed

/-- The second profile with the field of the first. -/
def Field.copy (f : Field) (p q : Profile) : Profile :=
  match f with
  | .text get set => set (get p) q
  | .list get set => set (get p) q
  | .flag get set => set (get p) q

/-- A text never means nothing when it is read back. -/
theorem scalarText_of (ht : t.Printed) : scalarText (.of t) = t := by
  refine if_neg fun hnull => ?_
  obtain ⟨hplain, hword⟩ := Bool.and_eq_true_iff.mp hnull
  have hstyle : style t = .plain := eq_of_beq hplain
  rcases style_cases ht with h | ⟨-, h | ⟨-, hmeans, -⟩⟩
  · rw [hstyle] at h
    cases h
  · rw [hstyle] at h
    cases h
  · unfold meansText at hmeans
    rw [show nullWords.contains t = true from hword] at hmeans
    cases hmeans

theorem mapM_scalarText {ts : List Text} (hts : ∀ t ∈ ts, t.Printed) :
    (ts.map fun t => some (Scalar.of t)).mapM (Option.map scalarText) = some ts := by
  induction ts with
  | nil => rfl
  | cons t ts ih =>
    obtain ⟨ht, hts⟩ := List.forall_mem_cons.mp hts
    rw [List.map_cons, List.mapM_cons, ih hts]
    simp [scalarText_of ht]

/-- A field takes the value that was written for it. -/
theorem Field.read?_value (f : Field) (hf : ∀ t ∈ (f.datum p).texts, t.Printed) (q : Profile) :
    f.read? (f.datum p).value q = some (f.copy p q) := by
  cases f with
  | text get set => exact congrArg (fun t => some (set t q)) (scalarText_of (hf _ List.mem_cons_self))
  | list get set =>
    have hitems : ((get p).map fun t => some (Scalar.of t)).mapM (Option.map scalarText) = some (get p) :=
      mapM_scalarText hf
    exact congrArg (Option.map (set · q)) hitems
  | flag get set =>
    change (Field.flag get set).read? (Datum.flag (get p)).value q = some (set (get p) q)
    cases get p <;> rfl

/-! ### Keys -/

theorem isKey_name (hk : k ∈ keys) : isKey k.name = true := by
  have hall : keys.all (fun k => isKey k.name) = true := rfl
  exact List.all_eq_true.mp hall k hk

theorem overlayEntry?_value (hk : k ∈ keys) (hprinted : p.Printed) (q : Profile) :
    q.overlayEntry? (k.name, (k.field.datum p).value) = some (k.field.copy p q) := by
  have hnodup : (keys.map (·.name)).Nodup := by decide
  rw [ overlayEntry?, find?_of_nodup hnodup hk]
  exact k.field.read?_value (hprinted k hk) q

theorem foldlM_overlayEntry? {ks : List Key} (hks : ∀ k ∈ ks, k ∈ keys) (hprinted : p.Printed) (q : Profile) :
    (ks.map fun k => (k.name, (k.field.datum p).value)).foldlM overlayEntry? q =
      some (ks.foldl (fun q k => k.field.copy p q) q) := by
  induction ks generalizing q with
  | nil => rfl
  | cons k ks ih =>
    obtain ⟨hk, hks⟩ := List.forall_mem_cons.mp hks
    rw [List.map_cons, List.foldlM_cons, overlayEntry?_value hk hprinted q]
    exact ih hks _

/-- The keys that are written for a profile. -/
def writtenKeys (p : Profile) : List Key :=
  keys.filter (·.isWritten p)

/-- The keys that are written make up the profile, because the others are empty in the standard profile, too. -/
theorem foldl_copy_written (p : Profile) : p.writtenKeys.foldl (fun q k => k.field.copy p q) standard = p := by
  obtain ⟨name, header, footer, entry, startLabel, exit, accumulator, load, call, osCall, ret, transfers, external,
    symbols, strict, labelPrefix, comments, stripUnused⟩ := p
  cases symbols <;> cases labelPrefix <;> rfl

theorem ofYaml_toYaml (hflaw : p.flaw? = none) (hprinted : p.Printed) : ofYaml p.toYaml = .ok p := by
  have hkeys : ∀ k ∈ p.writtenKeys, k ∈ keys := fun k hk => (List.mem_filter.mp hk).1
  have hne : (p.writtenKeys.map fun k => (k.name, k.field.datum p)) ≠ [] := List.cons_ne_nil _ _
  have hdocument := ofText?_writeMapping hne (List.forall_mem_map.mpr fun k hk => isKey_name (hkeys k hk))
    (List.forall_mem_map.mpr fun k hk => hprinted k (hkeys k hk))
  rw [List.map_map] at hdocument
  have hoverlay := foldlM_overlayEntry? hkeys hprinted standard
  rw [foldl_copy_written] at hoverlay
  have hread : (Document.ofText? p.toYaml).bind standard.overlay? = some p := by
    rw [toYaml, ← writtenKeys, hdocument]
    exact hoverlay
  rw [ofYaml, hread]
  dsimp only
  rw [hflaw]

/-- A profile that is stored in a file is loaded from it unchanged. -/
theorem saved_profile_loads (hflaw : p.flaw? = none) (hprinted : p.Printed) : ofYaml p.toYaml = .ok p ∧
    ∀ (disk : Disk) (path : Text) (place : Place), disk.target path = .ok place →
      ∃ after, p.save disk path = .ok after ∧ load? after path = .ok p := by
  have hyaml := ofYaml_toYaml hflaw hprinted
  refine ⟨hyaml, fun disk path place htarget => ?_⟩
  have hsave : p.save disk path = .ok (disk.put place p.toYaml) := Disk.write_eq_ok_iff.mpr ⟨place, htarget, rfl⟩
  refine ⟨_, hsave, ?_⟩
  rw [load?, Disk.read_of_write hsave]
  exact hyaml

/-! ### A profile with awkward texts -/

/-- A profile whose texts look like other things than texts. -/
def awkwardProfile : Profile :=
  { standard with
    name := "null"
    header := ["", " ", "yes", "0x10", "- a: b", "it's # not", "\"\\", List.replicate 90 'x'.toUInt8 ++ " y"]
    footer := []
    labelPrefix := "_"
    strict := !standard.strict
    comments := !standard.comments }

theorem awkwardProfile_printed : awkwardProfile.Printed := by
  have hall : (keys.all fun k => (k.field.datum awkwardProfile).texts.all fun t =>
      t.all fun b => decide (32 ≤ b.toNat) && decide (b.toNat < 128)) = true := by decide +kernel
  intro k hk t ht b hb
  have hb := List.all_eq_true.mp (List.all_eq_true.mp (List.all_eq_true.mp hall k hk) t ht) b hb
  simpa using hb

theorem saved_profile_loads_awkward : awkwardProfile.flaw? = none ∧ awkwardProfile.Printed ∧
    ∃ after, awkwardProfile.save ⟨[], []⟩ "p.yaml" = .ok after ∧ load? after "p.yaml" = .ok awkwardProfile := by
  have hflaw : awkwardProfile.flaw? = none := by cbv
  exact ⟨hflaw, awkwardProfile_printed,
    (saved_profile_loads hflaw awkwardProfile_printed).2 ⟨[], []⟩ "p.yaml" ["p.yaml"] (by rfl)⟩

end Pocket.Profile
