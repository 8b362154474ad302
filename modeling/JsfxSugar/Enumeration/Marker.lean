import JsfxSugar.Enumeration.Group
import JsfxSugar.Pattern

/-! The markers by which a source forces, references and counts the values of an enumeration. -/

namespace JsfxSugar.Enumeration

def isNameChar (c : Char) : Bool :=
  c.isAlphanum || c = '_' || c = '.' || c = '-'

/-- How many name characters follow the first one. Where a run of them begins no marker, no marker
begins further on in the run. -/
def quiet : Text → Nat
  | [] => 0
  | c :: t => if isNameChar c then (t.takeWhile isNameChar).length else 0

theorem map_snd_runBefore?_drop {c : Char} {t : Text} {k : Nat} (hk : k < quiet (c :: t)) :
    (Text.runBefore? isNameChar ['#'] (t.drop k)).map (·.2) =
      (Text.runBefore? isNameChar ['#'] (c :: t)).map (·.2) := by
  simp only [quiet] at hk
  split at hk
  · rename_i hc
    exact Text.map_snd_runBefore?_drop ['#'] hc hk
  · simp at hk

/-- The reference `GROUP#SUFFIX`. -/
structure Reference where
  group : Text
  suffix : Text
  deriving DecidableEq, Repr

namespace Reference

def source (m : Reference) : Text :=
  m.group ++ (['#'] ++ m.suffix)

def read? (t : Text) : Option (Reference × Text) := do
  let (group, t) ← Text.runBefore? isNameChar ['#'] t
  let (suffix, t) ← Text.run? isNameChar t
  return (⟨group, suffix⟩, t)

theorem eq_append_of_read? {t r : Text} {m : Reference} (h : read? t = some (m, r)) :
    t = m.source ++ r := by
  simp only [read?, Option.bind_eq_bind, Option.bind_eq_some_iff, Prod.exists, Option.pure_def,
    Option.some.injEq, Prod.mk.injEq] at h
  obtain ⟨group, t₁, h₁, suffix, t₂, h₂, rfl, rfl⟩ := h
  rw [Text.eq_append_of_runBefore? h₁, Text.eq_append_of_run? h₂]
  simp [source]

theorem map_snd_read?_drop {c : Char} {t : Text} {k : Nat} (hk : k < quiet (c :: t)) :
    (read? (t.drop k)).map (·.2) = (read? (c :: t)).map (·.2) :=
  Text.map_snd_bind_congr (map_snd_runBefore?_drop hk) fun _ _ _ => by
    simp only [Option.pure_def, Option.bind_eq_bind, Option.map_bind, Function.comp_def,
      Option.map_some]

def pattern : Pattern Reference where
  read? := read?
  source := source
  quiet := quiet
  source_ne_nil m := by simp [source]
  eq_append_of_read? := eq_append_of_read?
  read?_drop_eq_none h hk := by simpa [h] using map_snd_read?_drop hk

end Reference

/-- The forcing `GROUP#SUFFIX(LITERAL)`, its value in decimal digits. -/
structure Forcing where
  group : Text
  suffix : Text
  literal : Text
  deriving DecidableEq, Repr

namespace Forcing

/-- The reference within the forcing. -/
def reference (m : Forcing) : Reference :=
  ⟨m.group, m.suffix⟩

def source (m : Forcing) : Text :=
  m.reference.source ++ (['('] ++ (m.literal ++ [')']))

def read? (t : Text) : Option (Forcing × Text) := do
  let (m, t) ← Reference.read? t
  let t ← Text.skip? ['('] t
  let (literal, t) ← Text.run? Char.isDigit t
  let t ← Text.skip? [')'] t
  return (⟨m.group, m.suffix, literal⟩, t)

theorem eq_append_of_read? {t r : Text} {m : Forcing} (h : read? t = some (m, r)) :
    t = m.source ++ r := by
  simp only [read?, Option.bind_eq_bind, Option.bind_eq_some_iff, Prod.exists, Option.pure_def,
    Option.some.injEq, Prod.mk.injEq] at h
  obtain ⟨m, t₁, h₁, t₂, h₂, literal, t₃, h₃, t₄, h₄, rfl, rfl⟩ := h
  rw [Reference.eq_append_of_read? h₁, Text.skip?_eq_some_iff.mp h₂, Text.eq_append_of_run? h₃,
    Text.skip?_eq_some_iff.mp h₄]
  simp [source, reference]

theorem map_snd_read?_drop {c : Char} {t : Text} {k : Nat} (hk : k < quiet (c :: t)) :
    (read? (t.drop k)).map (·.2) = (read? (c :: t)).map (·.2) :=
  Text.map_snd_bind_congr (Reference.map_snd_read?_drop hk) fun _ _ _ => by
    simp only [Option.pure_def, Option.bind_eq_bind, Option.map_bind, Function.comp_def,
      Option.map_some]

def pattern : Pattern Forcing where
  read? := read?
  source := source
  quiet := quiet
  source_ne_nil m := by simp [source]
  eq_append_of_read? := eq_append_of_read?
  read?_drop_eq_none h hk := by simpa [h] using map_snd_read?_drop hk

end Forcing

/-- The count `GROUP#`, or `GROUP##` where it is to be the only one. -/
structure Counting where
  group : Text
  once : Bool
  deriving DecidableEq, Repr

namespace Counting

def source (m : Counting) : Text :=
  Group.countSource m.group m.once

def read? (t : Text) : Option (Counting × Text) := do
  let (group, t) ← Text.runBefore? isNameChar ['#'] t
  match Text.skip? ['#'] t with
  | some t => return (⟨group, true⟩, t)
  | none => return (⟨group, false⟩, t)

theorem eq_append_of_read? {t r : Text} {m : Counting} (h : read? t = some (m, r)) :
    t = m.source ++ r := by
  simp only [read?, Option.bind_eq_bind, Option.bind_eq_some_iff, Prod.exists, Option.pure_def] at h
  obtain ⟨group, t₁, h₁, h⟩ := h
  rw [Text.eq_append_of_runBefore? h₁]
  split at h
  · rename_i t₃ h₃
    simp only [Option.some.injEq, Prod.mk.injEq] at h
    obtain ⟨rfl, rfl⟩ := h
    simp [source, Group.countSource, Text.skip?_eq_some_iff.mp h₃]
  · simp only [Option.some.injEq, Prod.mk.injEq] at h
    obtain ⟨rfl, rfl⟩ := h
    simp [source, Group.countSource]

theorem map_snd_read?_drop {c : Char} {t : Text} {k : Nat} (hk : k < quiet (c :: t)) :
    (read? (t.drop k)).map (·.2) = (read? (c :: t)).map (·.2) :=
  Text.map_snd_bind_congr (map_snd_runBefore?_drop hk) fun _ _ r => by
    cases hr : Text.skip? ['#'] r <;> simp [hr]

def pattern : Pattern Counting where
  read? := read?
  source := source
  quiet := quiet
  source_ne_nil m := by cases h : m.once <;> simp [source, Group.countSource, h]
  eq_append_of_read? := eq_append_of_read?
  read?_drop_eq_none h hk := by simpa [h] using map_snd_read?_drop hk

end Counting

end JsfxSugar.Enumeration
