import JsfxSugar.Pattern

/-! A fixed text as a marker, and replacing all its occurrences. -/

namespace JsfxSugar

/-- The marker that is always written as `lead`. -/
def Pattern.literal (lead : Text) (h : lead ≠ []) : Pattern Unit where
  read? t := (lead.skip? t).map ((), ·)
  source _ := lead
  source_ne_nil _ := h
  eq_append_of_read? := by
    simp only [Option.map_eq_some_iff, Prod.mk.injEq]
    rintro t ⟨⟩ r ⟨s, hs, -, rfl⟩
    exact Text.skip?_eq_some_iff.mp hs

namespace Text

/-- The text with `new` before its first character, between neighbours and at its end. -/
def interleave (t new : Text) : Text :=
  new ++ t.flatMap fun c => c :: new

/-- Puts `new` in place of every occurrence of `old`, from left to right without overlap. The empty
text occurs before and after every character. -/
def replaceAll (t old new : Text) : Text :=
  if h : old ≠ [] then (Pattern.literal old h).substitute (fun _ => new) t
  else t.interleave new

end Text

end JsfxSugar
