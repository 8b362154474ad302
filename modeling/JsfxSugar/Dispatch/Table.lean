import JsfxSugar.Dispatch.Group
import JsfxSugar.NameTable

/-! The dispatch groups of one source. -/

namespace JsfxSugar.Dispatch

/-- The groups by name. -/
abbrev Table := NameTable Group

namespace Table

/-- Adds a group without functions; a name is declared once only. -/
def addGroup (table : Table) (name : Text) (parameters : List Parameter) : Except Fault Table :=
  if name ∈ table then .error (.duplicateGroup name)
  else .ok (table.insert name { name, parameters })

/-- The group that a marker names; `reference` is the text of the marker. -/
def demand (table : Table) (name reference : Text) : Except Fault Group :=
  match table[name]? with
  | some group => .ok group
  | none => .error (.unknownGroup .dispatch name reference)

end Table

end JsfxSugar.Dispatch
