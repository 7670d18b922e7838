import Mathlib
import Pocket.Disk
import Pocket.Proofs.Paths
import Pocket.Proofs.Readers

/-!
# Files that are written

A file is put where its path leads, and all else stays as it was. Folders are never made or replaced by
writing, so whether a path can be written to does not depend on what has been written before. What was written
to a path is what can be read from it.
-/

namespace Pocket

namespace Disk

variable {d e : Disk} {p q m : Place} {ps qs : List Text} {path piece content : Text}

/-! ### Entries -/

theorem lookup_filter_ne (entries : List (Place × Entry)) (hq : q ≠ p) :
    (entries.filter (·.1 ≠ p)).lookup q = entries.lookup q := by
  induction entries with
  | nil => rfl
  | cons entry entries ih =>
    obtain ⟨place, held⟩ := entry
    by_cases hplace : place = p
    · have hne : (q == place) = false := by simpa [hplace] using hq
      rw [List.filter_cons_of_neg (by simpa using hplace), List.lookup_cons, hne, ih]
    · rw [List.filter_cons_of_pos (by simpa using hplace), List.lookup_cons, List.lookup_cons, ih]

theorem entry?_put (hp : p ≠ []) (q : Place) :
    entry? (d.put p content) q = if q = p then some (.file content) else d.entry? q := by
  unfold entry? put
  by_cases hq : q = p
  · rw [if_pos hq, hq, if_neg hp, List.lookup_cons_self]
  · have hne : (q == p) = false := by simpa using hq
    rw [if_neg hq, List.lookup_cons, hne, lookup_filter_ne _ hq]

/-- Two disks with the same folders. -/
structure SameFolders (d e : Disk) : Prop where
  here : e.here = d.here
  folders : ∀ p, e.entry? p = some .folder ↔ d.entry? p = some .folder

theorem SameFolders.refl (d : Disk) : SameFolders d d :=
  ⟨rfl, fun _ => Iff.rfl⟩

theorem SameFolders.symm (h : SameFolders d e) : SameFolders e d :=
  ⟨h.here.symm, fun p => (h.folders p).symm⟩

theorem SameFolders.put (h : SameFolders d e) (hp : p ≠ []) (hfolder : d.entry? p ≠ some .folder) (content : Text) :
    SameFolders d (e.put p content) := by
  refine ⟨h.here, fun q => ?_⟩
  rw [entry?_put hp]
  split
  · next hq =>
    rw [hq]
    exact ⟨fun hfile => (by cases hfile), fun h => absurd h hfolder⟩
  · exact h.folders q

/-! ### Walks -/

/-- A step of a walk needs a folder to start from and something to lead to. -/
theorem walk_cons_eq_ok_iff : d.walk p (piece :: ps) = .ok q ↔ d.entry? p = some .folder ∧
    piece.length ≤ longestName ∧ (d.entry? (Path.step true p piece)).isSome ∧
      d.walk (Path.step true p piece) ps = .ok q := by
  rw [walk, ← Nat.not_lt]
  cases d.entry? p with
  | none => simp
  | some entry =>
    cases entry with
    | file content => simp
    | folder =>
      by_cases hlong : longestName < piece.length
      · simp [hlong]
      · by_cases hnext : (d.entry? (Path.step true p piece)).isSome <;> simp [hlong, hnext]

theorem walk_append_eq_ok_iff : d.walk p (ps ++ qs) = .ok q ↔ ∃ m, d.walk p ps = .ok m ∧ d.walk m qs = .ok q := by
  induction ps generalizing p with
  | nil => simp [walk]
  | cons piece ps ih =>
    rw [List.cons_append, walk_cons_eq_ok_iff, ih]
    simp only [walk_cons_eq_ok_iff]
    constructor
    · rintro ⟨hfolder, hshort, hnext, m, hm, hq⟩
      exact ⟨m, ⟨hfolder, hshort, hnext, hm⟩, hq⟩
    · rintro ⟨m, ⟨hfolder, hshort, hnext, hm⟩, hq⟩
      exact ⟨hfolder, hshort, hnext, m, hm, hq⟩

/-- A walk to a folder goes through folders only, so it is the same on a disk with the same folders. -/
theorem SameFolders.walk (h : SameFolders d e) (hq : d.entry? q = some .folder) (hwalk : d.walk p ps = .ok q) :
    d.entry? p = some .folder ∧ e.walk p ps = .ok q := by
  induction ps generalizing p with
  | nil =>
    obtain rfl : p = q := by simpa [Disk.walk] using hwalk
    exact ⟨hq, rfl⟩
  | cons piece ps ih =>
    obtain ⟨hfolder, hshort, -, hrest⟩ := walk_cons_eq_ok_iff.mp hwalk
    obtain ⟨hnext, hrest⟩ := ih hrest
    refine ⟨hfolder, walk_cons_eq_ok_iff.mpr ⟨(h.folders p).mpr hfolder, hshort, ?_, hrest⟩⟩
    rw [(h.folders _).mpr hnext]
    rfl

/-- Where a name stands among those that a walk has left, the walk has gone through the folder below it. -/
theorem walk_names {rooted : Bool} (hwalk : d.walk p ps = .ok m) {u v : List Text} {n : Text}
    (hnames : ps.foldl (Path.step rooted) [] = u ++ n :: v) (hu : ∀ x ∈ u, x ≠ "..") (hn : n ≠ "..") :
    ∃ w, m = u ++ n :: w ∧ d.entry? w = some .folder := by
  induction ps using List.reverseRecOn generalizing m u v n with
  | nil => cases u <;> cases hnames
  | append_singleton ps piece ih =>
    obtain ⟨m', hm', hlast⟩ := walk_append_eq_ok_iff.mp hwalk
    obtain ⟨hfolder, -, -, hstop⟩ := walk_cons_eq_ok_iff.mp hlast
    obtain rfl : Path.step true m' piece = m := by simpa [Disk.walk] using hstop
    rw [List.foldl_append, List.foldl_cons, List.foldl_nil] at hnames
    by_cases hhere : piece = [] ∨ piece = "."
    · rw [Path.step_here hhere] at hnames ⊢
      exact ih hm' hnames hu hn
    · by_cases habove : piece = ".."
      · -- The name that is taken away lies above all that are left.
        rw [habove] at hnames ⊢
        obtain ⟨last, hname, hbefore⟩ := Path.names_before_above hnames hu hn
        obtain ⟨w, rfl, hw⟩ := ih (u := last :: u) hm' hbefore (List.forall_mem_cons.mpr ⟨hname, hu⟩) hn
        exact ⟨w, if_neg hname, hw⟩
      · rw [Path.step_push hhere habove] at hnames ⊢
        -- The name that is pushed is the one that is asked for, or it lies below that one.
        cases u with
        | nil =>
          obtain ⟨rfl, -⟩ := List.cons.inj hnames
          exact ⟨m', rfl, hfolder⟩
        | cons x u =>
          obtain ⟨rfl, hrest⟩ := List.cons.inj hnames
          obtain ⟨w, rfl, hw⟩ := ih hm' hrest (List.forall_mem_cons.mp hu).2 hn
          exact ⟨w, rfl, hw⟩

/-- A file that can be read lies at the end of a walk. -/
theorem exists_walk_of_read (h : d.read path = .ok content) :
    ∃ q, d.walk (d.start path) (Path.pieces path) = .ok q ∧ d.entry? q = some (.file content) := by
  unfold read at h
  split at h
  · cases h
  · next q hlocate =>
    refine ⟨q, ?_, ?_⟩
    · unfold locate at hlocate
      split at hlocate
      · cases hlocate
      · split at hlocate
        · cases hlocate
        · exact hlocate
    · split at h
      · next hentry =>
        cases h
        exact hentry
      · cases h
      · cases h

/-! ### Writing -/

theorem target_of_slash (h : Path.lastPiece path = []) (p : Place) : d.target path ≠ .ok p := by
  unfold target
  intro htarget
  split at htarget
  · cases htarget
  · split at htarget
    · cases htarget
    · split at htarget
      · cases htarget
      · obtain ⟨folder, -, htarget⟩ := bind_eq_ok_iff.mp htarget
        split at htarget
        · simp [h] at htarget
        · cases htarget

/-- A file can be written if its path ends in a name, what stands before the name leads to a folder, and no
folder has the name. -/
theorem target_eq_ok_iff : d.target path = .ok p ↔ 0 ∉ path ∧ Path.IsName (Path.lastPiece path) ∧
    (Path.lastPiece path).length ≤ longestName ∧ ∃ folder,
      d.walk (d.start path) (Path.pieces path).dropLast = .ok folder ∧ d.entry? folder = some .folder ∧
      Path.lastPiece path :: folder = p ∧ d.entry? p ≠ some .folder := by
  obtain ⟨before, hpieces⟩ := Path.exists_pieces path
  have hslash := Path.lastPiece_no_slash path
  -- Behind a slash at the end there is no name to write to.
  by_cases hlast : Path.lastPiece path = []
  · exact ⟨fun h => absurd h (target_of_slash hlast p), fun h => absurd hlast h.2.1.ne_nil⟩
  · have hpath : path ≠ [] := by
      rintro rfl
      exact hlast rfl
    -- The last piece is the first of the reversed ones that is not empty, so the rest is what leads to it.
    have hreverse : (Path.pieces path).reverse.dropWhile (·.isEmpty) = Path.lastPiece path :: before.reverse := by
      rw [hpieces, List.reverse_append]
      exact List.dropWhile_cons_of_neg (by simpa using hlast)
    unfold target
    rw [if_neg hpath, hreverse, hpieces, List.dropLast_concat]
    by_cases hnul : 0 ∈ path
    · simp [hnul]
    · rw [if_neg (by simpa using hnul)]
      dsimp only
      rw [List.reverse_reverse, bind_eq_ok_iff]
      -- Both directions go through the tests in the order in which they are made.
      constructor
      · rintro ⟨folder, hwalk, h⟩
        split at h
        · next hfolder =>
          split at h
          · cases h
          · next hspecial =>
            obtain ⟨hhere, habove⟩ : Path.lastPiece path ≠ "." ∧ Path.lastPiece path ≠ ".." := by
              simpa [hlast] using hspecial
            have hname : Path.IsName (Path.lastPiece path) := ⟨hlast, hhere, habove, hslash⟩
            rw [Path.step_name hname] at h
            split at h
            · cases h
            · next hshort =>
              split at h
              · cases h
              · next hfree =>
                cases h
                exact ⟨hnul, hname, Nat.not_lt.mp hshort, folder, hwalk, hfolder, rfl, hfree⟩
        · cases h
      · rintro ⟨-, hname, hshort, folder, hwalk, hfolder, rfl, hfree⟩
        refine ⟨folder, hwalk, ?_⟩
        rw [hfolder]
        dsimp only
        rw [Path.step_name hname, if_neg (by simp [hname.ne_nil, hname.ne_here, hname.ne_above]),
          if_neg (Nat.not_lt.mpr hshort), if_neg hfree]

theorem target_ne_nil (h : d.target path = .ok p) : p ≠ [] := by
  obtain ⟨-, -, -, folder, -, -, rfl, -⟩ := target_eq_ok_iff.mp h
  exact List.cons_ne_nil _ folder

theorem target_not_folder (h : d.target path = .ok p) : d.entry? p ≠ some .folder := by
  obtain ⟨-, -, -, folder, -, -, -, hfree⟩ := target_eq_ok_iff.mp h
  exact hfree

/-- A file is written at the place of its path. -/
theorem target_eq_place (h : d.target path = .ok p) : p = d.place path := by
  obtain ⟨-, hname, -, folder, hwalk, -, rfl, -⟩ := target_eq_ok_iff.mp h
  obtain ⟨before, hpieces⟩ := Path.exists_pieces path
  rw [hpieces, List.dropLast_concat] at hwalk
  rw [place, hpieces, List.foldl_append, ← walk_eq hwalk]
  exact (Path.step_name hname).symm

/-- Whether a path can be written to depends on the folders alone. -/
theorem SameFolders.target (h : SameFolders d e) (htarget : d.target path = .ok p) : e.target path = .ok p := by
  obtain ⟨hnul, hname, hshort, folder, hwalk, hfolder, hp, hfree⟩ := target_eq_ok_iff.mp htarget
  have hstart : e.start path = d.start path := by rw [start, start, h.here]
  refine target_eq_ok_iff.mpr ⟨hnul, hname, hshort, folder, ?_, (h.folders _).mpr hfolder, hp, ?_⟩
  · rw [hstart]
    exact (h.walk hfolder hwalk).2
  · exact fun hp => hfree ((h.folders _).mp hp)

/-- What lies where a path can be written to can be read from that path. -/
theorem read_of_target (htarget : d.target path = .ok p) (hfile : d.entry? p = some (.file content)) :
    d.read path = .ok content := by
  obtain ⟨hnul, hname, hshort, folder, hwalk, hfolder, rfl, -⟩ := target_eq_ok_iff.mp htarget
  obtain ⟨before, hpieces⟩ := Path.exists_pieces path
  rw [hpieces, List.dropLast_concat] at hwalk
  have hlast : d.walk folder [Path.lastPiece path] = .ok (Path.lastPiece path :: folder) := by
    rw [walk_cons_eq_ok_iff, Path.step_name hname, hfile]
    exact ⟨hfolder, hshort, rfl, rfl⟩
  have hlocate : d.locate path = .ok (Path.lastPiece path :: folder) := by
    have hpath : path ≠ [] := by
      rintro rfl
      exact hname.ne_nil rfl
    rw [locate, if_neg hpath, if_neg (by simpa using hnul), hpieces, walk_append_eq_ok_iff]
    exact ⟨folder, hwalk, hlast⟩
  rw [read, hlocate]
  dsimp only
  rw [hfile]

theorem write_eq_ok_iff : d.write path content = .ok e ↔ ∃ p, d.target path = .ok p ∧ d.put p content = e := by
  unfold write
  cases d.target path <;> simp

/-- What was written to a path is read from it. -/
theorem read_of_write (h : d.write path content = .ok e) : e.read path = .ok content := by
  obtain ⟨p, htarget, rfl⟩ := write_eq_ok_iff.mp h
  have hp := target_ne_nil htarget
  have hsame := (SameFolders.refl d).put hp (target_not_folder htarget) content
  exact read_of_target (hsame.target htarget) (by rw [entry?_put hp, if_pos rfl])

end Disk

end Pocket
