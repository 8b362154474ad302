import JsfxSugar.Diagnostic

/-! The causes for which a source is rejected, with their codes, wording and hints. -/

namespace JsfxSugar

/-- What a group numbers: the values of an enumeration or the functions of a dispatcher. -/
inductive Family where
  | enumeration
  | dispatch
  deriving DecidableEq, Repr

def Family.name : Family → Text
  | enumeration => "enum".toList
  | dispatch => "function".toList

/-- Why a source is rejected. The first fault ends the run. -/
inductive Fault where
  /-- A bound of a range block is no 64-bit integer, or the range is too long. -/
  | rangeBound (name literal : Text)
  /-- The copies of a body form the opening of a range block. -/
  | reopening (name : Text)
  /-- A forced value leaves no room for the total of its group. -/
  | forcedValue (group suffix literal : Text)
  /-- A value is forced on two suffixes, or two values on one suffix. -/
  | forcedConflict (group detail : Text)
  /-- A group is used that was never declared or never given a value. -/
  | unknownGroup (family : Family) (group reference : Text)
  /-- A group that is counted once only is counted again. -/
  | countedTwice (group : Text)
  /-- A group has no further id. -/
  | idsExhausted (family : Family) (group : Text)
  /-- A dispatch group is declared again. -/
  | duplicateGroup (group : Text)
  deriving DecidableEq, Repr

namespace Fault

/-- The stable code of a fault: E00 for ranges, E01 for enumerations, E02 for dispatch. -/
def code : Fault → Text
  | rangeBound .. => "E0001".toList
  | reopening .. => "E0002".toList
  | forcedValue .. => "E0101".toList
  | forcedConflict .. => "E0102".toList
  | unknownGroup .enumeration .. => "E0103".toList
  | unknownGroup .dispatch .. => "E0201".toList
  | countedTwice .. => "E0104".toList
  | idsExhausted .enumeration .. => "E0105".toList
  | idsExhausted .dispatch .. => "E0203".toList
  | duplicateGroup .. => "E0202".toList

def message : Fault → Text
  | rangeBound name literal =>
    "range bound `".toList ++ literal ++ "` of `\x7b#".toList ++ name ++
      "=...\x7d` is out of range".toList
  | reopening name =>
    "expansion of `\x7b#".toList ++ name ++ "=...\x7d` reopens a range block".toList
  | forcedValue group suffix literal =>
    "invalid enum forcing `".toList ++ group ++ "#".toList ++ suffix ++ "(".toList ++ literal ++
      ")`".toList
  | forcedConflict group detail =>
    "conflicting enum forcing in `".toList ++ group ++ "`: ".toList ++ detail
  | unknownGroup family group reference =>
    "reference to undefined ".toList ++ family.name ++ " group `".toList ++ group ++ "`: ".toList ++
      reference
  | countedTwice group => "group `".toList ++ group ++ "` counted more than once".toList
  | idsExhausted family group =>
    family.name ++ " group `".toList ++ group ++ "` has no ids left to allocate".toList
  | duplicateGroup group =>
    "function group `\x7b".toList ++ group ++ "\x7d` declared more than once".toList

/-- How to mend the source, where one way is usual. -/
def hint? : Fault → Option Text
  | reopening _ => some "a body must not produce `\x7b#` when repeated".toList
  | forcedConflict .. => some "each forced value may be bound to exactly one suffix".toList
  | unknownGroup .enumeration .. =>
    some "reference at least one value before counting the group".toList
  | unknownGroup .dispatch group _ =>
    some ("declare it with `function \x7b".toList ++ group ++ "\x7d(...)`".toList)
  | countedTwice _ => some "use `KEY#` for counts that are referenced repeatedly".toList
  | _ => none

def diagnostic (fault : Fault) : Diagnostic where
  severity := .error
  message := fault.message
  code := some fault.code
  hint := fault.hint?

end Fault

end JsfxSugar
