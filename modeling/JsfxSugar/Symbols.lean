import JsfxSugar.Dispatch.Table
import JsfxSugar.Enumeration.Table
import JsfxSugar.Json

/-! The report on the groups of a source. -/

namespace JsfxSugar

/-- An enumeration: its number of values, how often it is counted, and its values. -/
structure EnumerationEntry where
  group : Text
  total : Nat
  counts : Nat
  values : List (Text × Nat)
  deriving DecidableEq, Repr

/-- A dispatch group: its signature, its functions, and the comparisons that a call takes. -/
structure DispatchEntry where
  group : Text
  parameters : List Text
  functions : List (Text × Nat)
  treeDepth : Nat
  deriving DecidableEq, Repr

/-- All groups, in name order. -/
structure Symbols where
  enumerations : List EnumerationEntry
  dispatch : List DispatchEntry
  deriving DecidableEq, Repr

def Enumeration.Group.entry (group : Enumeration.Group) : EnumerationEntry where
  group := group.name
  total := group.total
  counts := group.counts
  values := group.values.entries

def Dispatch.Group.entry (group : Dispatch.Group) : DispatchEntry where
  group := group.name
  parameters := group.parameters.map Dispatch.Parameter.formal
  functions := group.functions.entries
  treeDepth := group.tree.depth

namespace Symbols

def ofTables (enumerations : Enumeration.Table) (dispatch : Dispatch.Table) : Symbols where
  enumerations := enumerations.values.map Enumeration.Group.entry
  dispatch := dispatch.values.map Dispatch.Group.entry

/-- Names with their ids, each pair as an object. -/
def namedIds (key : Text) (ids : List (Text × Nat)) : Json :=
  .array (ids.map fun (name, id) => .object [(key, .string name), ("id".toList, .number id)])

def json (symbols : Symbols) : Json :=
  .object [
    ("enums".toList, .array (symbols.enumerations.map fun entry => .object [
      ("group".toList, .string entry.group),
      ("count".toList, .number entry.total),
      ("count_uses".toList, .number entry.counts),
      ("values".toList, namedIds "suffix".toList entry.values)])),
    ("dispatch".toList, .array (symbols.dispatch.map fun entry => .object [
      ("group".toList, .string entry.group),
      ("parameters".toList, .array (entry.parameters.map .string)),
      ("functions".toList, namedIds "name".toList entry.functions),
      ("tree_depth".toList, .number entry.treeDepth)]))]

end Symbols

end JsfxSugar
