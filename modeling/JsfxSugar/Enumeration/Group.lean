import JsfxSugar.Counter
import JsfxSugar.Fault
import JsfxSugar.Roster
import JsfxSugar.Text.Decimal

/-! An enumeration: its suffixes with their ids, some of them forced, and how often it is counted. -/

namespace JsfxSugar.Enumeration

/-- One enumeration: its next id, the ids of its suffixes in the order in which they got them, the
suffixes of its forced values, how often it was counted, and whether the last count claimed to be
the only one. The number of counts has no limit here. A number of 32 bits is the same as long as a
group is counted fewer than 2^32 times. -/
structure Group where
  name : Text
  counter : Counter := {}
  values : Roster := ∅
  forced : Std.ExtTreeMap Nat Text := ∅
  counts : Nat := 0
  sole : Bool := false

/-- What a count shows: the number of values, and whether it is the first count of its group. -/
structure Count where
  total : Nat
  first : Bool
  deriving DecidableEq, Repr

namespace Group

variable (group : Group)

/-- The number of values that the group spans, which is also its next free id. -/
def total : Nat :=
  group.counter.next

def id? (suffix : Text) : Option Nat :=
  group.values.id? suffix

/-- The suffixes in the order in which they got their ids. -/
def suffixes : List Text :=
  group.values.names

/-- The suffix that a value is forced on already, if it is another one. -/
def otherSuffix? (suffix : Text) (value : Nat) : Option Text :=
  group.forced[value]?.filter (· ≠ suffix)

/-- The id that a suffix has already, if it is another one. -/
def otherId? (suffix : Text) (value : Nat) : Option Nat :=
  (group.id? suffix).filter (· ≠ value)

/-- Why a value cannot be forced on a suffix. -/
def conflict? (suffix : Text) (value : Nat) : Option Text :=
  match group.otherSuffix? suffix value, group.otherId? suffix value with
  | some other, _ =>
    some (Text.ofNat value ++ " bound to both `".toList ++ other ++ "` and `".toList ++ suffix ++
      "`".toList)
  | none, some other =>
    some ("`".toList ++ suffix ++ "` forced to both ".toList ++ Text.ofNat other ++
      " and ".toList ++ Text.ofNat value)
  | none, none => none

/-- Records a forced value. -/
def bind (suffix : Text) (value : Nat) : Group :=
  { group with
    values := group.values.add suffix value
    forced := group.forced.insert value suffix }

/-- Forces a value on a suffix. The counter moves above the value even when there is a conflict. -/
def force (suffix : Text) (value : Nat) : Except Fault Unit × Group :=
  if h : value < Counter.limit then
    let raised := { group with counter := group.counter.skipTo (value + 1) h }
    match raised.conflict? suffix value with
    | some detail => (.error (.forcedConflict group.name detail), raised)
    | none => (.ok (), raised.bind suffix value)
  else (.error (.forcedValue group.name suffix (Text.ofNat value)), group)

/-- The id of a suffix: the one it has, else the next. -/
def refer (suffix : Text) : Except Fault Nat × Group :=
  match group.id? suffix with
  | some id => (.ok id, group)
  | none =>
    match group.counter.take? with
    | some (id, counter) =>
      (.ok id, { group with counter, values := group.values.add suffix id })
    | none => (.error (.idsExhausted .enumeration group.name), group)

/-- How a count is written. -/
def countSource (name : Text) (once : Bool) : Text :=
  name ++ if once then ['#', '#'] else ['#']

/-- Counts the group. A count that is to be the only one excludes every other. -/
def count (once : Bool) : Except Fault Count × Group :=
  if group.values.isEmpty then
    (.error (.unknownGroup .enumeration group.name (countSource group.name once)), group)
  else if group.sole || (once && 0 < group.counts) then
    (.error (.countedTwice group.name), group)
  else
    let counted := { group with counts := group.counts + 1, sole := once }
    (.ok ⟨group.total, counted.counts = 1⟩, counted)

end Group

/-- A use of a group. -/
inductive Call where
  | force (suffix : Text) (value : Nat)
  | refer (suffix : Text)
  | count (once : Bool)
  deriving DecidableEq, Repr

/-- What a use of a group answers. -/
inductive Reply where
  | forced
  | id (id : Nat)
  | count (count : Count)
  deriving DecidableEq, Repr

namespace Group

/-- Takes one use. A failed use may still have moved the counter. -/
def step (group : Group) : Call → Except Fault Reply × Group
  | .force suffix value =>
    let (result, group) := group.force suffix value
    (result.map fun _ => .forced, group)
  | .refer suffix =>
    let (result, group) := group.refer suffix
    (result.map .id, group)
  | .count once =>
    let (result, group) := group.count once
    (result.map .count, group)

end Group

end JsfxSugar.Enumeration
