import JsfxSugar.Range.Header

/-! The marks that range blocks are made of. -/

namespace JsfxSugar.Range

/-- What a `{#` turns out to be: a close `{#}`, an opening, or neither. -/
inductive Mark where
  | close
  | opening (opening : Opening)
  | stray
  deriving DecidableEq, Repr

namespace Mark

def source : Mark → Text
  | close => ['{', '#', '}']
  | opening o => o.source
  | stray => ['{', '#']

def read? (t : Text) : Option (Mark × Text) :=
  match Text.skip? ['{', '#', '}'] t with
  | some r => some (close, r)
  | none =>
    match Opening.read? t with
    | some (o, r) => some (opening o, r)
    | none => (Text.skip? ['{', '#'] t).map (stray, ·)

/-- Every `{#` is a mark. -/
def pattern : Pattern Mark where
  read? := read?
  source := source
  source_ne_nil mark := by cases mark <;> simp [source, Opening.source]
  eq_append_of_read? {t mark r} h := by
    unfold read? at h
    split at h
    · rename_i s hs
      simp only [Option.some.injEq, Prod.mk.injEq] at h
      obtain ⟨rfl, rfl⟩ := h
      exact Text.skip?_eq_some_iff.mp hs
    · split at h
      · rename_i o s hs
        simp only [Option.some.injEq, Prod.mk.injEq] at h
        obtain ⟨rfl, rfl⟩ := h
        exact Opening.eq_append_of_read? hs
      · simp only [Option.map_eq_some_iff, Prod.mk.injEq] at h
        obtain ⟨s, hs, rfl, rfl⟩ := h
        exact Text.skip?_eq_some_iff.mp hs

end Mark

/-- Whether the text holds a mark. -/
def marked : Text → Bool
  | '{' :: '#' :: _ => true
  | _ :: t => marked t
  | [] => false

end JsfxSugar.Range
