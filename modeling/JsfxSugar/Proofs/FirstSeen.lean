import Mathlib.Data.List.Basic
import Mathlib.Data.List.Induction

/-! Names in the order in which they are first seen. -/

namespace JsfxSugar

variable {α : Type} [BEq α] [LawfulBEq α] {before names : List α} {name : α}

/-- A name that stands in the list already is not entered again. -/
theorem eraseDups_concat (names : List α) (name : α) :
    (names ++ [name]).eraseDups =
      names.eraseDups ++ if name ∈ names.eraseDups then [] else [name] := by
  rw [List.eraseDups_append, List.removeAll]
  by_cases h : name ∈ names <;> simp [h, List.mem_eraseDups, List.eraseDups_cons]

theorem eraseDups_isPrefix (h : before <+: names) : before.eraseDups <+: names.eraseDups := by
  obtain ⟨rest, rfl⟩ := h
  rw [List.eraseDups_append]
  exact List.prefix_append _ _

theorem nodup_eraseDups (names : List α) : names.eraseDups.Nodup := by
  induction names using List.reverseRecOn with
  | nil => simp
  | append_singleton names name ih =>
    rw [eraseDups_concat]
    by_cases h : name ∈ names.eraseDups
    · simpa [h] using ih
    · rw [if_neg h, List.nodup_append]
      refine ⟨ih, by simp, ?_⟩
      intro other hother single hsingle hsame
      obtain rfl := List.mem_singleton.mp hsingle
      exact h (hsame ▸ hother)

/-- The order in which names are seen does not change which are seen. -/
theorem eraseDups_perm (h : before.Perm names) : before.eraseDups.Perm names.eraseDups := by
  rw [List.perm_ext_iff_of_nodup (nodup_eraseDups before) (nodup_eraseDups names)]
  intro name
  rw [List.mem_eraseDups, List.mem_eraseDups, h.mem_iff]

/-- Names that are seen later do not change the place of a name. -/
theorem idxOf_eraseDups_of_isPrefix (h : before <+: names) (hname : name ∈ before) :
    before.eraseDups.idxOf name = names.eraseDups.idxOf name := by
  obtain ⟨rest, hrest⟩ := eraseDups_isPrefix h
  have hmem : name ∈ before.eraseDups := List.mem_eraseDups.mpr hname
  rw [← hrest, List.idxOf_append_of_mem hmem]

end JsfxSugar
