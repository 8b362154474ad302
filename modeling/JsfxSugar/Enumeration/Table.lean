import JsfxSugar.Enumeration.Group
import JsfxSugar.NameTable

/-! The enumerations of one source. -/

namespace JsfxSugar.Enumeration

/-- The groups by name. -/
abbrev Table := NameTable Group

namespace Table

variable {α : Type}

/-- The group of a name, new when the name was not used before. -/
def group (table : Table) (name : Text) : Group :=
  table.getD name { name }

/-- Makes sure that a name has a group. -/
def touch (table : Table) (name : Text) : Table :=
  table.insert name (table.group name)

/-- Uses the group of a name; the table keeps what a failed use leaves behind. -/
def step (table : Table) (name : Text) (call : Call) : Except Fault Reply × Table :=
  let (reply, group) := (table.group name).step call
  (reply, table.insert name group)

/-- Uses the group of a name where a failure ends the run. -/
def attempt (table : Table) (name : Text) (use : Group → Except Fault α × Group) :
    Except Fault (α × Table) :=
  let (result, group) := use (table.group name)
  result.map (·, table.insert name group)

/-- The warning that a group is never counted. -/
def uncounted (name : Text) : Diagnostic where
  severity := .warning
  message := "group `".toList ++ name ++ "` is not counted".toList
  code := some "W0101".toList
  hint := some ("reference `".toList ++ name ++ "#` where the number of values is needed".toList)

/-- A warning for each group without a count, in name order. -/
def warnings (table : Table) : List Diagnostic :=
  (table.values.filter (·.counts = 0)).map (uncounted ·.name)

end Table

end JsfxSugar.Enumeration
