import JsfxSugar.Proofs.Bytes
import JsfxSugar.Proofs.Enumeration.Histories
import JsfxSugar.Proofs.Enumeration.Passes
import JsfxSugar.Symbols

/-! Many enumerations in one table: a use of one group leaves the others alone, so that each group
fares as it would on its own, however the uses of the groups are mixed. -/

namespace JsfxSugar.Enumeration.Table

variable {table : Table} {name other : Text} {call : Call}

/-- Uses the group that is named with the call. -/
def use (table : Table) (use : Text × Call) : Except Fault Reply × Table :=
  table.step use.1 use.2

/-- The calls to one group, in their order. -/
def callsOf (name : Text) (uses : List (Text × Call)) : List Call :=
  (uses.filter (·.1 = name)).map (·.2)

/-- What is answered to the calls to one group. -/
def transcriptOf (name : Text) (entries : List ((Text × Call) × Except Fault Reply)) :
    List (Call × Except Fault Reply) :=
  (entries.filter (·.1.1 = name)).map fun entry => (entry.1.2, entry.2)

theorem callsOf_cons (name : Text) (use : Text × Call) (uses : List (Text × Call)) :
    callsOf name (use :: uses) =
      if use.1 = name then use.2 :: callsOf name uses else callsOf name uses := by
  unfold callsOf
  split <;> simp_all

theorem transcriptOf_cons (name : Text) (entry : (Text × Call) × Except Fault Reply)
    (entries : List ((Text × Call) × Except Fault Reply)) :
    transcriptOf name (entry :: entries) =
      if entry.1.1 = name then (entry.1.2, entry.2) :: transcriptOf name entries
      else transcriptOf name entries := by
  unfold transcriptOf
  split <;> simp_all

theorem group_step (table : Table) (name other : Text) (call : Call) :
    (table.step name call).2.group other =
      if other = name then ((table.group name).step call).2 else table.group other :=
  group_insert

theorem mem_step (table : Table) (name other : Text) (call : Call) :
    other ∈ (table.step name call).2 ↔ other = name ∨ other ∈ table := by
  rw [step, Std.ExtTreeMap.mem_insert, Std.compare_eq_iff_eq, @eq_comm _ name]

/-- A group comes to what its own calls make of it. -/
theorem group_stateAfter (table : Table) (uses : List (Text × Call)) (name : Text) :
    (stateAfter use table uses).group name =
      stateAfter Group.step (table.group name) (callsOf name uses) := by
  induction uses generalizing table with
  | nil => rfl
  | cons first uses ih =>
    rw [stateAfter_cons, ih, use, group_step, callsOf_cons]
    by_cases heq : first.1 = name
    · rw [if_pos heq.symm, if_pos heq, stateAfter_cons, heq]
    · rw [if_neg (Ne.symm heq), if_neg heq]

/-- A group answers what it would answer if there were no calls but its own. -/
theorem transcriptOf_transcript (table : Table) (uses : List (Text × Call)) (name : Text) :
    transcriptOf name (transcript use table uses) =
      transcript Group.step (table.group name) (callsOf name uses) := by
  induction uses generalizing table with
  | nil => rfl
  | cons first uses ih =>
    rw [transcript, transcriptOf_cons, ih, use, group_step, callsOf_cons]
    by_cases heq : first.1 = name
    · rw [if_pos heq, if_pos heq.symm, if_pos heq, transcript, ← heq]
      rfl
    · rw [if_neg heq, if_neg (Ne.symm heq), if_neg heq]

theorem mem_stateAfter (table : Table) (uses : List (Text × Call)) (name : Text) :
    name ∈ stateAfter use table uses ↔ name ∈ table ∨ name ∈ uses.map (·.1) := by
  induction uses generalizing table with
  | nil => simp
  | cons first uses ih =>
    rw [stateAfter_cons, ih, use, mem_step, List.map_cons, List.mem_cons]
    tauto

theorem getElem?_of_mem (h : name ∈ table) : table[name]? = some (table.group name) :=
  Std.ExtTreeMap.getElem?_eq_some_getD h

/-- What a table holds after some uses hangs on the calls to each group alone. -/
theorem getElem?_stateAfter (uses : List (Text × Call)) (name : Text) :
    (stateAfter use ∅ uses)[name]? =
      if callsOf name uses = [] then none
      else some (stateAfter Group.step { name } (callsOf name uses)) := by
  have hmem : name ∈ stateAfter use ∅ uses ↔ callsOf name uses ≠ [] := by
    rw [mem_stateAfter]
    simp [callsOf, List.filter_eq_nil_iff]
  by_cases hnone : callsOf name uses = []
  · rw [if_pos hnone]
    exact Std.ExtTreeMap.getElem?_eq_none fun h => hmem.mp h hnone
  · rw [if_neg hnone, getElem?_of_mem (hmem.mpr hnone), group_stateAfter]
    rfl

/-- After any uses of the groups of a new table, each group has answered and has become what its own
calls alone make of a new group of its name; the table holds the groups that were used, in the order
of the bytes of their names; and another order of the uses, in which the calls to each group come in
the same order, leads to the same table and the same report. -/
theorem stateAfter_use (uses : List (Text × Call)) :
    let table := stateAfter use ∅ uses
    (∀ name, transcriptOf name (transcript use ∅ uses) =
      transcript Group.step { name } (callsOf name uses)) ∧
    (∀ name ∈ uses.map (·.1),
      table[name]? = some (stateAfter Group.step { name } (callsOf name uses))) ∧
    (∀ name, name ∈ table.keys ↔ name ∈ uses.map (·.1)) ∧
    table.keys.Pairwise (·.bytes < ·.bytes) ∧
    ∀ others, (∀ name, callsOf name others = callsOf name uses) →
      stateAfter use ∅ others = table ∧
      ∀ dispatch, Symbols.ofTables (stateAfter use ∅ others) dispatch =
        Symbols.ofTables table dispatch := by
  intro table
  have hmem : ∀ name, name ∈ table ↔ name ∈ uses.map (·.1) := by
    intro name
    rw [mem_stateAfter]
    simp
  refine ⟨transcriptOf_transcript ∅ uses, ?_, ?_, ?_, ?_⟩
  · intro name hname
    rw [getElem?_of_mem ((hmem name).mpr hname), group_stateAfter]
    rfl
  · intro name
    rw [Std.ExtTreeMap.mem_keys, hmem]
  · exact (NameTable.pairwise_lt_keys table).imp Text.bytes_lt_bytes
  · intro others hcalls
    have hsame : stateAfter use ∅ others = table := by
      apply Std.ExtTreeMap.ext_getElem?
      intro name
      rw [getElem?_stateAfter, getElem?_stateAfter, hcalls]
    exact ⟨hsame, fun dispatch => by rw [hsame]⟩

/-- Two groups, one of which is counted once too often. -/
theorem stateAfter_use_two_groups :
    let uses : List (Text × Call) :=
      [(['x'], .refer ['a']), (['y'], .force ['b'] 3), (['x'], .count true), (['x'], .count false)]
    let others : List (Text × Call) :=
      [(['y'], .force ['b'] 3), (['x'], .refer ['a']), (['x'], .count true), (['x'], .count false)]
    ['y'] ∈ uses.map (·.1) ∧
      (stateAfter use ∅ uses)[['y']]? =
        some (stateAfter Group.step { name := ['y'] } [.force ['b'] 3]) ∧
      (∀ name, callsOf name others = callsOf name uses) ∧
      stateAfter use ∅ others = stateAfter use ∅ uses := by
  intro uses others
  obtain ⟨-, hheld, -, -, horder⟩ := stateAfter_use uses
  have hcalls : ∀ name, callsOf name others = callsOf name uses := by
    intro name
    by_cases hx : ['x'] = name
    · subst hx
      decide
    · by_cases hy : ['y'] = name <;> simp [others, uses, callsOf_cons, hx, hy]
  have hmem : ['y'] ∈ uses.map (·.1) := by decide
  exact ⟨hmem, hheld ['y'] hmem, hcalls, (horder others hcalls).1⟩

end JsfxSugar.Enumeration.Table
