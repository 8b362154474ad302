import JsfxSugar.Dispatch.Synthesis
import JsfxSugar.Proofs.FirstSeen
import JsfxSugar.Proofs.Substitution

/-! The functions of a group get their ids in the order in which call sites first name them. -/

namespace JsfxSugar.Dispatch

/-- The functions that call sites name for a group, each once, in the order of their first
occurrence. -/
def functionsOf (name : Text) (calls : List CallSite) : List Text :=
  ((calls.filter (·.group.name = name)).map (·.function)).eraseDups

/-- The id of a function among the call sites of a source. -/
def functionId (calls : List CallSite) (m : CallSite) : Nat :=
  1 + (functionsOf m.group.name calls).idxOf m.function

variable {calls before : List CallSite} {m : CallSite} {name function : Text}

theorem functionsOf_concat_of_ne (h : m.group.name ≠ name) :
    functionsOf name (calls ++ [m]) = functionsOf name calls := by
  simp [functionsOf, h]

theorem functionsOf_concat (calls : List CallSite) (m : CallSite) :
    functionsOf m.group.name (calls ++ [m]) = functionsOf m.group.name calls ++
      if m.function ∈ functionsOf m.group.name calls then [] else [m.function] := by
  have hconcat : functionsOf m.group.name (calls ++ [m]) =
      ((calls.filter (·.group.name = m.group.name)).map (·.function) ++
        [m.function]).eraseDups := by
    simp [functionsOf]
  rw [hconcat, eraseDups_concat, ← functionsOf]

theorem exists_of_mem_functionsOf (h : function ∈ functionsOf name calls) :
    ∃ m ∈ calls, m.group.name = name ∧ m.function = function := by
  rw [functionsOf, List.mem_eraseDups, List.mem_map] at h
  obtain ⟨m, hm, rfl⟩ := h
  obtain ⟨hmem, hname⟩ := List.mem_filter.mp hm
  exact ⟨m, hmem, by simpa using hname, rfl⟩

/-- Later call sites do not change the id of a function. -/
theorem functionId_eq_of_append (h : before ++ [m] <+: calls) :
    functionId (before ++ [m]) m = functionId calls m := by
  have hnames := (h.filter (·.group.name = m.group.name)).map (·.function)
  unfold functionId
  rw [functionsOf, idxOf_eraseDups_of_isPrefix hnames, ← functionsOf]
  exact List.mem_map_of_mem (List.mem_filter.mpr ⟨by simp, by simp⟩)

namespace Group

/-- The functions that the group holds, in the order of their ids. -/
structure Numbers (group : Group) (functions : List Text) : Prop where
  entries_eq : group.functions.entries = functions.zipIdx 1
  next_eq : group.counter.next = functions.length + 1

namespace Numbers

variable {group group' : Group} {functions : List Text} {id : Nat}

theorem id?_eq_some_iff (h : group.Numbers functions) :
    group.id? function = some id ↔ 1 ≤ id ∧ functions[id - 1]? = some function := by
  have hentry : (function, id) ∈ group.functions.entries ↔ group.id? function = some id :=
    Roster.mem_entries_iff
  rw [← hentry, h.entries_eq, List.mk_mem_zipIdx_iff_le_and_getElem?_sub]

theorem id?_of_mem (h : group.Numbers functions) (hmem : function ∈ functions) :
    group.id? function = some (1 + functions.idxOf function) := by
  rw [h.id?_eq_some_iff, Nat.add_sub_cancel_left]
  exact ⟨by omega, List.getElem?_idxOf hmem⟩

theorem id?_of_not_mem (h : group.Numbers functions) (hmem : function ∉ functions) :
    group.id? function = none := by
  cases hid : group.id? function with
  | none => rfl
  | some id => exact absurd (List.mem_of_getElem? (h.id?_eq_some_iff.mp hid).2) hmem

/-- A function that is enrolled has the id that its place among the functions gives it. -/
theorem enroll_eq_ok (h : group.Numbers functions)
    (henroll : group.enroll function = (.ok id, group')) :
    let entered := functions ++ if function ∈ functions then [] else [function]
    id = 1 + entered.idxOf function ∧ group'.Numbers entered ∧ group'.name = group.name ∧
      group'.parameters = group.parameters := by
  intro entered
  by_cases hmem : function ∈ functions
  · simp only [enroll, h.id?_of_mem hmem, Prod.mk.injEq, Except.ok.injEq] at henroll
    obtain ⟨rfl, rfl⟩ := henroll
    have hentered : entered = functions := by simp [entered, hmem]
    rw [hentered]
    exact ⟨rfl, h, rfl, rfl⟩
  · simp only [enroll, h.id?_of_not_mem hmem, Counter.take?] at henroll
    split at henroll
    · rename_i taken counter htake
      split at htake
      · simp only [Option.some.injEq, Prod.mk.injEq] at htake
        obtain ⟨rfl, rfl⟩ := htake
        split at henroll
        · simp only [Prod.mk.injEq, Except.ok.injEq] at henroll
          obtain ⟨rfl, rfl⟩ := henroll
          have hentered : entered = functions ++ [function] := by simp [entered, hmem]
          rw [hentered]
          refine ⟨?_, ⟨?_, ?_⟩, rfl, rfl⟩
          · rw [List.idxOf_append_of_notMem hmem, h.next_eq, List.idxOf_cons_self]
            omega
          · rw [Roster.entries_add_of_id?_eq_none _ (h.id?_of_not_mem hmem), h.entries_eq,
              List.zipIdx_append, h.next_eq, Nat.add_comm 1]
            rfl
          · simp [Counter.ofNext, h.next_eq]
        · simp at henroll
      · simp at htake
    · simp at henroll

end Numbers

end Group

theorem Table.demand_eq_ok_iff {table : Table} {group : Group} {reference : Text} :
    table.demand name reference = .ok group ↔ table[name]? = some group := by
  unfold demand
  cases table[name]? <;> simp

theorem numberCallSite_eq_ok {table table' : Table} {text : Text}
    (h : numberCallSite m table = .ok (text, table')) :
    ∃ group id group', table[m.group.name]? = some group ∧
      group.enroll m.function = (.ok id, group') ∧ text = Text.ofNat id ++ m.function.comment ∧
      table' = table.insert m.group.name group' := by
  obtain ⟨group, hgroup, h⟩ := bind_eq_ok_iff.mp h
  obtain ⟨id, hid, h⟩ := bind_eq_ok_iff.mp h
  simp only [pure, Except.pure, Except.ok.injEq, Prod.mk.injEq] at h
  obtain ⟨rfl, rfl⟩ := h
  exact ⟨group, id, _, Table.demand_eq_ok_iff.mp hgroup, Prod.ext hid rfl, rfl, rfl⟩

/-- The table after some call sites: the groups as they were declared, each with the functions that
these call sites name for it. -/
structure Enrolled (declared : Table) (calls : List CallSite) (table : Table) : Prop where
  parameters_eq : ∀ name : Text,
    (table[name]?).map (·.parameters) = (declared[name]?).map (·.parameters)
  numbers : ∀ {name : Text} {group}, table[name]? = some group →
    group.name = name ∧ group.Numbers (functionsOf name calls)
  declared : ∀ m ∈ calls, ∃ group, table[m.group.name]? = some group

namespace Enrolled

variable {declared table table' : Table} {text : Text}

/-- Numbering a call site enrolls its function, under the id that its place gives it. -/
theorem step (h : Enrolled declared calls table)
    (hok : numberCallSite m table = .ok (text, table')) :
    text = Text.ofNat (functionId (calls ++ [m]) m) ++ m.function.comment ∧
      Enrolled declared (calls ++ [m]) table' := by
  obtain ⟨group, id, group', hgroup, henroll, rfl, rfl⟩ := numberCallSite_eq_ok hok
  obtain ⟨hname, hnumbers⟩ := h.numbers hgroup
  obtain ⟨hid, hnumbers', hname', hparameters⟩ := hnumbers.enroll_eq_ok henroll
  rw [← functionsOf_concat] at hid hnumbers'
  refine ⟨by rw [functionId, hid], ⟨?_, ?_, ?_⟩⟩
  · intro name
    rw [NameTable.getElem?_insert, ← h.parameters_eq]
    split
    · rename_i heq
      simp [heq, hgroup, hparameters]
    · rfl
  · intro name other hother
    rw [NameTable.getElem?_insert] at hother
    split at hother
    · rename_i heq
      obtain rfl := Option.some.inj hother
      subst heq
      exact ⟨hname'.trans hname, hnumbers'⟩
    · rename_i hne
      rw [functionsOf_concat_of_ne (Ne.symm hne)]
      exact h.numbers hother
  · intro other hother
    rw [NameTable.getElem?_insert]
    split
    · exact ⟨_, rfl⟩
    · rename_i hne
      rcases List.mem_append.mp hother with hother | hother
      · exact h.declared other hother
      · exact absurd (congrArg (·.group.name) (List.mem_singleton.mp hother)) hne

/-- A call site that has been numbered names a group that was declared. -/
theorem exists_declared (h : Enrolled declared calls table) (hm : m ∈ calls) :
    ∃ group, declared[m.group.name]? = some group := by
  obtain ⟨group, hgroup⟩ := h.declared m hm
  have hparameters := h.parameters_eq m.group.name
  rw [hgroup, Option.map_some, eq_comm, Option.map_eq_some_iff] at hparameters
  obtain ⟨start, hstart, -⟩ := hparameters
  exact ⟨start, hstart⟩

/-- Numbering the call sites of a text puts for each the id that its function gets among them all. -/
theorem resolve_eq_ok {t u : Text} (h : Enrolled declared [] declared)
    (hok : CallSite.pattern.resolve numberCallSite t declared = .ok (u, table)) :
    u = CallSite.pattern.substitute
        (fun m => Text.ofNat (functionId (CallSite.pattern.hits t) m) ++ m.function.comment) t ∧
      Enrolled declared (CallSite.pattern.hits t) table := by
  obtain ⟨rfl, hall⟩ := Pattern.resolve_eq_ok (Enrolled declared)
    (fun before m => Text.ofNat (functionId (before ++ [m]) m) ++ m.function.comment) step h hok
  refine ⟨Pattern.substituteAfter_eq_substitute ?_, hall⟩
  intro before m hbefore
  rw [functionId_eq_of_append hbefore]
  rfl

end Enrolled

end JsfxSugar.Dispatch
