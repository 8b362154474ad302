import JsfxSugar.Command.Directory
import JsfxSugar.Proofs.Substitution

/-! Writing a file: what is written is read back, and every other file stays as it was. -/

namespace JsfxSugar.Command

variable {dir after : Directory} {here next location other : Location} {node : Node}
  {path text name : Text} {names : List Text} {bytes : ByteArray}

theorem fromUTF8?_toUTF8 (s : String) : String.fromUTF8? s.toUTF8 = some s := by
  unfold String.fromUTF8?
  rw [String.toUTF8_eq_toByteArray, dif_pos s.isValidUTF8]
  rfl

namespace Directory

/-- Where a path leads, whether or not there is something. What has a slash after it leads to a
folder. -/
def locate (dir : Directory) (path : Text) : Except FileError Location := do
  let path ← Path.parse path
  let names := if path.slash then path.names ++ [['.']] else path.names
  dir.follow { around := path.absolute } names

theorem lookup_filter_ne {nodes : List (Location × Node)} (h : other ≠ location) :
    (nodes.filter (·.1 ≠ location)).lookup other = nodes.lookup other := by
  induction nodes with
  | nil => rfl
  | cons entry nodes ih =>
    obtain ⟨first, node⟩ := entry
    by_cases hfirst : first = location
    · subst hfirst
      rw [List.filter_cons_of_neg (by simp), ih, List.lookup_cons, beq_eq_false_iff_ne.mpr h]
    · rw [List.filter_cons_of_pos (by simpa using hfirst), List.lookup_cons, List.lookup_cons, ih]

theorem node?_put_of_ne (h : other ≠ location) :
    (dir.put location node).node? other = dir.node? other := by
  unfold node? put
  by_cases hnames : other.names = []
  · rw [if_pos hnames, if_pos hnames]
  · rw [if_neg hnames, if_neg hnames, List.lookup_cons, beq_eq_false_iff_ne.mpr h,
      lookup_filter_ne h]

theorem node?_put_self (h : dir.node? location ≠ some .folder) :
    (dir.put location node).node? location = some node := by
  by_cases hnames : location.names = []
  · exact absurd (by simp [node?, hnames]) h
  · simp [node?, put, hnames]

/-- A folder is entered only where there is one. -/
theorem enter_eq_ok_iff : dir.enter here name = .ok next ↔
    here.step name = .ok next ∧ dir.node? next = some .folder := by
  unfold enter
  rw [bind_eq_ok_iff]
  constructor
  · rintro ⟨there, hstep, hfolder⟩
    split at hfolder
    · rename_i hnode
      obtain rfl := Except.ok.inj hfolder
      exact ⟨hstep, hnode⟩
    · cases hfolder
    · cases hfolder
  · rintro ⟨hstep, hnode⟩
    refine ⟨next, hstep, ?_⟩
    rw [hnode]
    rfl

/-- Names that a dot comes after lead to a folder. -/
theorem node?_of_follow_concat_dot (hhere : dir.node? here = some .folder)
    (h : dir.follow here (names ++ [['.']]) = .ok location) :
    dir.node? location = some .folder := by
  induction names generalizing here with
  | nil =>
    obtain rfl : here = location := Except.ok.inj h
    exact hhere
  | cons name names ih =>
    cases names with
    | nil =>
      obtain ⟨next, henter, hdot⟩ := bind_eq_ok_iff.mp h
      obtain rfl : next = location := Except.ok.inj hdot
      exact (enter_eq_ok_iff.mp henter).2
    | cons other names =>
      obtain ⟨next, henter, hrest⟩ := bind_eq_ok_iff.mp h
      exact ih (enter_eq_ok_iff.mp henter).2 hrest

/-- A file that is put where there is no folder is in nobody's way. -/
theorem follow_put (hplace : dir.node? location ≠ some .folder)
    (h : dir.follow here names = .ok other) :
    (dir.put location node).follow here names = .ok other := by
  induction names generalizing here with
  | nil => exact h
  | cons name names ih =>
    cases names with
    | nil => exact h
    | cons second names =>
      obtain ⟨next, henter, hrest⟩ := bind_eq_ok_iff.mp h
      obtain ⟨hstep, hnext⟩ := enter_eq_ok_iff.mp henter
      -- A folder on the way is not the place where the file is put.
      have hne : next ≠ location := by
        rintro rfl
        exact hplace hnext
      have henter' : (dir.put location node).enter here name = .ok next :=
        enter_eq_ok_iff.mpr ⟨hstep, (node?_put_of_ne hne).trans hnext⟩
      exact bind_eq_ok_iff.mpr ⟨next, henter', ih hrest⟩

theorem locate_put (hplace : dir.node? location ≠ some .folder) (h : dir.locate path = .ok other) :
    (dir.put location node).locate path = .ok other := by
  obtain ⟨parsed, hparse, hfollow⟩ := bind_eq_ok_iff.mp h
  exact bind_eq_ok_iff.mpr ⟨parsed, hparse, follow_put hplace hfollow⟩

/-- Reading a path gives the text of the file that it leads to. -/
theorem read_eq_ok_iff : dir.read path = .ok text ↔ ∃ location bytes,
    dir.locate path = .ok location ∧ dir.node? location = some (.file bytes) ∧
      String.fromUTF8? bytes = some (String.ofList text) := by
  unfold read locate
  simp only [bind_eq_ok_iff]
  constructor
  · rintro ⟨parsed, hparse, location, hfollow, hread⟩
    split at hread
    · cases hread
    · cases hread
    · rename_i bytes hnode
      split at hread
      · rename_i s hs
        obtain rfl := Except.ok.inj hread
        exact ⟨location, bytes, ⟨parsed, hparse, hfollow⟩, hnode, by rw [hs, String.ofList_toList]⟩
      · cases hread
  · rintro ⟨location, bytes, ⟨parsed, hparse, hfollow⟩, hnode, htext⟩
    refine ⟨parsed, hparse, location, hfollow, ?_⟩
    simp only [hnode, htext, String.toList_ofList]
    rfl

/-- A text is written where a path leads, unless there is a folder. -/
theorem write_eq_ok_iff : dir.write path text = .ok after ↔ ∃ location,
    dir.locate path = .ok location ∧ dir.node? location ≠ some .folder ∧
      after = dir.put location (.file (String.ofList text).toUTF8) := by
  unfold write locate
  simp only [bind_eq_ok_iff]
  constructor
  · rintro ⟨parsed, hparse, location, hfollow, hwrite⟩
    split at hfollow
    · rw [node?_of_follow_concat_dot rfl hfollow] at hwrite
      cases hwrite
    · rename_i hslash
      split at hwrite
      · cases hwrite
      · rename_i hplace
        obtain rfl := Except.ok.inj hwrite
        exact ⟨location, ⟨parsed, hparse, by rwa [if_neg hslash]⟩, hplace, rfl⟩
  · rintro ⟨location, ⟨parsed, hparse, hfollow⟩, hplace, rfl⟩
    split at hfollow
    · exact absurd (node?_of_follow_concat_dot rfl hfollow) hplace
    · rename_i hslash
      refine ⟨parsed, hparse, location, by rwa [if_neg hslash], ?_⟩
      split
      · rename_i hfolder
        exact absurd hfolder hplace
      · rfl

/-- A text that was written is read back, and every other node is as it was. -/
theorem read_of_write (h : dir.write path text = .ok after) : after.read path = .ok text ∧
    ∃ location, dir.locate path = .ok location ∧
      ∀ other, other ≠ location → after.node? other = dir.node? other := by
  obtain ⟨location, hlocate, hplace, rfl⟩ := write_eq_ok_iff.mp h
  refine ⟨?_, location, hlocate, fun other hne => node?_put_of_ne hne⟩
  exact read_eq_ok_iff.mpr ⟨location, _, locate_put hplace hlocate, node?_put_self hplace,
    fromUTF8?_toUTF8 _⟩

end Directory

end JsfxSugar.Command
