import JsfxSugar.Proofs.Enumeration.Histories

/-! Uses of an enumeration that fail: they leave all bindings as they were, and a run comes to the same
without them. Only a forcing that conflicts with another moves the counter first. -/

namespace JsfxSugar.Enumeration.Group

variable {group group' : Group} {call : Call} {reply : Except Fault Reply} {fault : Fault}

/-- Whether a use with this answer may have changed its group: it succeeded, or the value that it
forced met with a conflict. -/
def isLasting : Except Fault Reply → Bool
  | .ok _ | .error (.forcedConflict ..) => true
  | .error _ => false

/-- The total that a group shows after a use which failed. -/
def failedTotal (group : Group) : Call → Fault → Nat
  | .force _ value, .forcedConflict .. => max group.total (value + 1)
  | _, _ => group.total

theorem Moves.of_error (h : Moves group call (.error fault) group') :
    group' = { group with counter := group'.counter } ∧
      group'.total = group.failedTotal call fault := by
  cases h with
  | overflow | clash | exhausted | unknown | repeated => exact ⟨rfl, rfl⟩

theorem Moves.eq_of_isLasting_eq_false (h : Moves group call reply group')
    (hreply : isLasting reply = false) : group' = group := by
  cases h with
  | overflow | exhausted | unknown | repeated => rfl
  | clash | bind | found | enroll | counted => cases hreply

/-- A use that fails leaves the name, the suffixes with their ids, the forced values and the counts of
its group as they were. The total is left as it was too, unless a forced value conflicts with another
one: then it is raised above that value. So uses that fail for other reasons can be left out of any
run, all of them or some: the others answer as they did, and lead to the same group. -/
theorem failures_leave_bindings (group : Group) (calls : List Call) :
    let run := transcript step group calls
    (∀ call fault, (group.step call).1 = .error fault →
      let later := (group.step call).2
      later = { group with counter := later.counter } ∧
        later.total = group.failedTotal call fault) ∧
    ∀ rest, rest.Sublist run → rest.filter (isLasting ·.2) = run.filter (isLasting ·.2) →
      transcript step group (rest.map (·.1)) = rest ∧
        stateAfter step group (rest.map (·.1)) = stateAfter step group calls := by
  intro run
  constructor
  · intro call fault hfault
    have hmove := group.moves_step call
    rw [hfault] at hmove
    exact hmove.of_error
  · intro rest hrest hlasting
    refine transcript_of_sublist (fun later call hidle => ?_) hrest hlasting
    exact (later.moves_step call).eq_of_isLasting_eq_false hidle

/-- A value that is forced on a suffix with another id, among uses that fail for other reasons. -/
theorem failures_leave_bindings_pear :
    let calls : List Call :=
      [.count false, .refer "pear".toList, .force "pear".toList 3, .refer "apple".toList,
        .count true, .force "plum".toList Counter.limit, .count true]
    let group : Group := { name := ['k'] }
    let reached := stateAfter step group (calls.take 2)
    let later := (reached.step (.force "pear".toList 3)).2
    let fault := Fault.forcedConflict ['k'] "`pear` forced to both 0 and 3".toList
    let run := transcript step group calls
    let rest := run.filter (isLasting ·.2)
    (reached.step (.force "pear".toList 3)).1 = .error fault ∧
      later = { reached with counter := later.counter } ∧ reached.total = 1 ∧ later.total = 4 ∧
      rest.map (·.1) = [.refer "pear".toList, .force "pear".toList 3, .refer "apple".toList,
        .count true] ∧
      transcript step group (rest.map (·.1)) = rest ∧
      stateAfter step group (rest.map (·.1)) = stateAfter step group calls := by
  intro calls group reached later fault run rest
  obtain ⟨hfailure, -⟩ := failures_leave_bindings reached []
  obtain ⟨-, hrun⟩ := failures_leave_bindings group calls
  have hfault : (reached.step (.force "pear".toList 3)).1 = .error fault := by decide +kernel
  have hrest : rest.Sublist run := List.filter_sublist
  have hlasting : rest.filter (isLasting ·.2) = run.filter (isLasting ·.2) := by simp [rest]
  obtain ⟨hbindings, htotal⟩ := hfailure _ fault hfault
  exact ⟨hfault, hbindings, by decide +kernel, htotal.trans (by decide +kernel),
    by decide +kernel, hrun rest hrest hlasting⟩

/-- The forcing that conflicts cannot be left out: without it the next suffix gets a smaller id. -/
example :
    let group : Group := { name := ['k'] }
    let later := stateAfter step group [.refer ['a'], .force ['a'] 3, .refer ['b']]
    let without := stateAfter step group [.refer ['a'], .refer ['b']]
    later.id? ['b'] = some 4 ∧ without.id? ['b'] = some 1 := by
  decide +kernel

end JsfxSugar.Enumeration.Group
