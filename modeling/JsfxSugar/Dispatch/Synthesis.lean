import JsfxSugar.Dispatch.Marker
import JsfxSugar.Dispatch.Table

/-! Writing out the dispatchers of a source. The declarations are gathered first, so that a call site
may stand before the declaration of its group; a dispatcher is written when all call sites have been
numbered, so that it knows every function. -/

namespace JsfxSugar.Dispatch

/-- The groups that a text declares. -/
def declareGroups (t : Text) : Except Fault Table :=
  (Declaration.pattern.hits t).foldlM (fun table m => table.addGroup m.group.name m.parameters) ∅

/-- Puts the id of a function in place of its call site. -/
def numberCallSite (m : CallSite) (table : Table) : Except Fault (Text × Table) := do
  let group ← table.demand m.group.name m.source
  let (result, group) := group.enroll m.function
  let id ← result
  return (Text.ofNat id ++ m.function.comment, table.insert m.group.name group)

/-- Puts the dispatcher of a group in place of its declaration. -/
def writeDispatcher (m : Declaration) (table : Table) : Except Fault (Text × Table) := do
  let group ← table.demand m.group.name m.source
  return (group.dispatcher, table)

/-- Writes the call of a dispatcher out in full. -/
def writeCall (m : Shorthand) (table : Table) : Except Fault (Text × Table) := do
  let _ ← table.demand m.group.name m.source
  let arguments := m.arguments.trim
  let rest := if arguments.isEmpty then [] else [',', ' '] ++ arguments
  return (m.group.name ++ ['('] ++ m.selector.trim ++ rest ++ [')'], table)

/-- A text with its dispatchers written out, and its groups. -/
structure Synthesis where
  text : Text
  table : Table

/-- Writes out the dispatchers of a text and their calls. -/
def synthesize (t : Text) : Except Fault Synthesis := do
  let table ← declareGroups t
  let (t, table) ← CallSite.pattern.resolve numberCallSite t table
  let (t, table) ← Declaration.pattern.resolve writeDispatcher t table
  let (t, table) ← Shorthand.pattern.resolve writeCall t table
  return ⟨t, table⟩

end JsfxSugar.Dispatch
