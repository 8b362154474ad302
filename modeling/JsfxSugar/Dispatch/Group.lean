import JsfxSugar.Counter
import JsfxSugar.Dispatch.Parameter
import JsfxSugar.Dispatch.SelectorTree.Layout
import JsfxSugar.Fault
import JsfxSugar.Roster

/-! A dispatch group: functions with ids, and the dispatcher that calls the one that is selected. -/

namespace JsfxSugar.Dispatch

/-- Function ids are 32-bit words. -/
def idCount : Nat := UInt32.size

/-- A declared group. Its functions stand in the order in which they got their ids, from one on. -/
structure Group where
  name : Text
  parameters : List Parameter
  counter : Counter := .ofNext 1
  functions : Roster := ∅

namespace Group

variable (group : Group)

def id? (function : Text) : Option Nat :=
  group.functions.id? function

/-- The id that the next new function gets. -/
def nextId : Nat :=
  min group.counter.next (idCount - 1)

/-- The id of a function: the one it has, else the next. It never stands for no function. -/
def enroll (function : Text) : Except Fault Nat × Group :=
  match group.id? function with
  | some id => (.ok id, group)
  | none =>
    match group.counter.take? with
    | some (id, counter) =>
      if id < idCount then
        (.ok id, { group with counter, functions := group.functions.add function id })
      else (.error (.idsExhausted .dispatch group.name), { group with counter })
    | none => (.error (.idsExhausted .dispatch group.name), group)

/-- The tree over all functions and the id for none. -/
def tree : SelectorTree :=
  .ofIds (noFunction :: group.functions.entries.map (·.2))

/-- The functions by their ids. -/
def functionsById : Std.ExtTreeMap Nat Text :=
  .ofList (group.functions.entries.map Prod.swap)

/-- The call of the function with an id, with the group's parameters in their order. -/
def call (functions : Std.ExtTreeMap Nat Text) (id : Nat) : Text :=
  match functions[id]? with
  | some function =>
    function ++ ['('] ++ Text.join [',', ' '] (group.parameters.map (·.name)) ++ [')']
  | none => ['0']

/-- The definition of the dispatcher. -/
def dispatcher : Text :=
  let signature := selectorName :: group.parameters.map Parameter.formal
  let body := group.tree.layout selectorName (group.call group.functionsById)
  "function ".toList ++ group.name ++ ['('] ++ Text.join [',', ' '] signature ++
    [')', ' ', '('] ++ nest body ++ [';', '\n', ')', ';']

end Group

end JsfxSugar.Dispatch
