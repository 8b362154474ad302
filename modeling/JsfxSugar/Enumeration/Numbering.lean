import JsfxSugar.Enumeration.Marker
import JsfxSugar.Enumeration.Table

/-! Numbering the enumerations of a source. All forcings are bound first, so that a forced suffix has
its value wherever it is referenced; counts come last, so that they show the final totals. -/

namespace JsfxSugar.Enumeration

/-- Binds a forcing, of which the reference remains. -/
def bindForcing (m : Forcing) (table : Table) : Except Fault (Text × Table) := do
  let some value := Text.toNatUpTo? Counter.limit m.literal
    | throw (.forcedValue m.group m.suffix m.literal)
  let ((), table) ← table.attempt m.group (·.force m.suffix value)
  return (m.reference.source, table)

/-- Puts the id of a suffix in place of its reference. -/
def numberReference (m : Reference) (table : Table) : Except Fault (Text × Table) := do
  let (id, table) ← table.attempt m.group (·.refer m.suffix)
  return (Text.ofNat id ++ Text.comment (m.group ++ [':'] ++ m.suffix), table)

/-- Puts the total of a group in place of a count; the first count lists the suffixes. -/
def showCount (m : Counting) (table : Table) : Except Fault (Text × Table) := do
  let (count, table) ← table.attempt m.group (·.count m.once)
  let list :=
    if count.first then ": ".toList ++ Text.join ", ".toList (table.group m.group).suffixes else []
  return (Text.ofNat count.total ++ Text.comment (m.group ++ list), table)

/-- A text with its enumerations numbered, and the groups found in it. -/
structure Numbering where
  text : Text
  table : Table

/-- Numbers the enumerations of a text. -/
def number (t : Text) : Except Fault Numbering := do
  let (t, table) ← Forcing.pattern.resolve bindForcing t ∅
  let (t, table) ← Reference.pattern.resolve numberReference t table
  let (t, table) ← Counting.pattern.resolve showCount t table
  return ⟨t, table⟩

end JsfxSugar.Enumeration
