import JsfxSugar.Proofs.Enumeration.Histories

/-! The counts of one enumeration in a run of uses. A count that is to be the only one is the only one
that succeeds, whatever other uses stand around it. -/

namespace JsfxSugar.Enumeration.Group

variable {group group' : Group} {call : Call} {reply : Except Fault Reply} {once : Bool}

/-- What an answer shows when it is that of a count that succeeded. -/
def shown? : Except Fault Reply → Option Count
  | .ok (.count count) => some count
  | _ => none

/-- What the counts of a run show that succeeded, in their order. -/
def shown (run : List (Call × Except Fault Reply)) : List Count :=
  run.filterMap fun entry => shown? entry.2

theorem shown_cons (run : List (Call × Except Fault Reply)) :
    shown ((call, reply) :: run) = (shown? reply).toList ++ shown run := by
  rw [shown, List.filterMap_cons]
  cases shown? reply <;> rfl

/-- Where no count showed anything, none succeeded. -/
theorem shown?_of_shown_eq_nil {run : List (Call × Except Fault Reply)} (h : shown run = [])
    (hmem : (call, reply) ∈ run) : shown? reply = none :=
  List.filterMap_eq_nil_iff.mp h _ hmem

theorem Moves.counts_eq (h : Moves group call reply group') :
    group'.counts = group.counts + (shown? reply).toList.length := by
  cases h <;> rfl

/-- A group knows how many of its counts succeeded. -/
theorem counts_stateAfter (group : Group) (calls : List Call) :
    (stateAfter step group calls).counts =
      group.counts + (shown (transcript step group calls)).length := by
  induction calls generalizing group with
  | nil => rfl
  | cons call calls ih =>
    have hcounts := (group.moves_step call).counts_eq
    rw [stateAfter_cons, ih, hcounts, transcript, shown_cons, List.length_append, Nat.add_assoc]

/-- A count fails or shows something. -/
theorem Moves.reply_count (h : Moves group (.count once) reply group') :
    (∃ fault, reply = .error fault) ∨ (shown? reply).isSome := by
  cases h with
  | unknown | repeated => exact Or.inl ⟨_, rfl⟩
  | counted => exact Or.inr rfl

/-- A count that shows something is the first to do so when there was none before. -/
theorem Moves.first_iff {count : Count}
    (h : Moves group (.count once) (.ok (.count count)) group') :
    count.first = true ↔ group.counts = 0 := by
  cases h with
  | counted => simp

/-- A count finds a group unknown exactly while no suffix has an id. -/
theorem Moves.unknownGroup_iff (h : Moves group (.count once) reply group') :
    (∃ reference, reply = .error (.unknownGroup .enumeration group.name reference)) ↔
      ∀ suffix, group.id? suffix = none := by
  rw [← isEmpty_values_iff]
  cases h with
  | unknown _ hempty => exact iff_of_true ⟨_, rfl⟩ hempty
  | repeated _ hknown | counted _ hknown => simp [hknown]

/-- A count was made that was to be the only one. -/
structure CountedOnce (group : Group) : Prop where
  sole : group.sole = true
  known : group.values.isEmpty = false

theorem Extends.known (h : group.Extends group') (hknown : group.values.isEmpty = false) :
    group'.values.isEmpty = false := by
  rw [Bool.eq_false_iff] at hknown ⊢
  intro hempty
  apply hknown
  rw [isEmpty_values_iff] at hempty ⊢
  intro suffix
  cases hid : group.id? suffix with
  | none => rfl
  | some id =>
    have hlater := h.id?_eq suffix id hid
    rw [hempty suffix] at hlater
    cases hlater

/-- Such a count is the first one that succeeds. -/
theorem Moves.countedOnce_of_count {count : Count}
    (h : Moves group (.count true) (.ok (.count count)) group') :
    group.counts = 0 ∧ group'.CountedOnce := by
  cases h with
  | counted _ hknown hsole =>
    have hnone : group.counts = 0 := by simpa using (Bool.or_eq_false_iff.mp hsole).2
    exact ⟨hnone, rfl, hknown⟩

/-- No count succeeds after it, and no other use makes up for it. -/
theorem Moves.countedOnce (h : Moves group call reply group') (hc : group.CountedOnce) :
    group'.CountedOnce ∧
      ∀ once, call = .count once → reply = .error (.countedTwice group.name) := by
  obtain ⟨hsole, hknown⟩ := hc
  have hlater := h.extends.known hknown
  cases h with
  | overflow | clash | bind | found | enroll | exhausted => exact ⟨⟨hsole, hlater⟩, by simp⟩
  | unknown _ hempty => simp [hempty] at hknown
  | repeated => exact ⟨⟨hsole, hlater⟩, fun _ _ => rfl⟩
  | counted _ _ hfree => simp [hsole] at hfree

/-- While no count is to be the only one, none comes too late. -/
theorem Moves.sole_eq_false (h : Moves group call reply group') (hsole : group.sole = false)
    (hcall : call ≠ .count true) :
    group'.sole = false ∧ ∀ name, reply ≠ .error (.countedTwice name) := by
  cases h with
  | overflow | clash | bind | found | enroll | exhausted | unknown => exact ⟨hsole, by simp⟩
  | repeated once _ hrepeated =>
    cases once with
    | true => exact absurd rfl hcall
    | false => simp [hsole] at hrepeated
  | counted once =>
    cases once with
    | true => exact absurd rfl hcall
    | false => exact ⟨rfl, by simp⟩

/-- Where no count of a run shows anything, all of them failed. -/
theorem exists_error_of_shown_eq_nil {calls : List Call}
    (h : shown (transcript step group calls) = [])
    (hmem : (.count once, reply) ∈ transcript step group calls) : ∃ fault, reply = .error fault := by
  have hcounts : ∀ entry ∈ transcript step group calls, ∀ once, entry.1 = .count once →
      (∃ fault, entry.2 = .error fault) ∨ (shown? entry.2).isSome := by
    refine forall_mem_transcript (P := fun _ => True) trivial fun later call _ _ => ?_
    refine ⟨?_, trivial⟩
    rintro once rfl
    exact (later.moves_step (.count once)).reply_count
  rcases hcounts _ hmem once rfl with hfault | hshown
  · exact hfault
  · rw [shown?_of_shown_eq_nil h hmem] at hshown
    cases hshown

/-- All counts come too late after one that was to be the only one. -/
theorem CountedOnce.reply_of_mem (h : group.CountedOnce) {calls : List Call}
    (hmem : (.count once, reply) ∈ transcript step group calls) :
    reply = .error (.countedTwice group.name) := by
  have hcounts : ∀ entry ∈ transcript step group calls, ∀ once, entry.1 = .count once →
      entry.2 = .error (.countedTwice group.name) := by
    refine forall_mem_transcript
      (P := fun later => later.CountedOnce ∧ later.name = group.name) ⟨h, rfl⟩ ?_
    rintro later call - ⟨hlater, hname⟩
    have hmove := later.moves_step call
    obtain ⟨hnext, hreply⟩ := hmove.countedOnce hlater
    rw [hname] at hreply
    exact ⟨hreply, hnext, hmove.name_eq.trans hname⟩
  exact hcounts _ hmem once rfl

/-- No count comes too late where none is to be the only one. -/
theorem ne_countedTwice_of_mem (hsole : group.sole = false) {calls : List Call}
    (hcalls : .count true ∉ calls) (hmem : (call, reply) ∈ transcript step group calls)
    (name : Text) : reply ≠ .error (.countedTwice name) := by
  have hreplies : ∀ entry ∈ transcript step group calls,
      ∀ name, entry.2 ≠ .error (.countedTwice name) := by
    refine forall_mem_transcript (P := fun later => later.sole = false) hsole ?_
    intro later call hcall hlater
    have hne : call ≠ .count true := fun heq => hcalls (heq ▸ hcall)
    obtain ⟨hnext, hreply⟩ := (later.moves_step call).sole_eq_false hlater hne
    exact ⟨hreply, hnext⟩
  exact hreplies _ hmem name

/-- In a run of uses, whichever of them fail, a count that is to be the only one succeeds only when
all counts before it failed, and all counts after it fail for having come too late. No count comes
too late when none is to be the only one. A count finds the group unknown exactly while no suffix has
an id. The group knows how many counts succeeded, and just the first of these is marked as the
first. -/
theorem count_once_only (name : Text) (calls : List Call) :
    let run := transcript step { name } calls
    (∀ before count after, run = before ++ (.count true, .ok (.count count)) :: after →
      (∀ once reply, (.count once, reply) ∈ before → ∃ fault, reply = .error fault) ∧
      ∀ once reply, (.count once, reply) ∈ after → reply = .error (.countedTwice name)) ∧
    (.count true ∉ calls → ∀ once other, (.count once, .error (.countedTwice other)) ∉ run) ∧
    (∀ before once reply after, run = before ++ (.count once, reply) :: after →
      ((∃ reference, reply = .error (.unknownGroup .enumeration name reference)) ↔
        ∀ suffix, (stateAfter step { name } (before.map (·.1))).id? suffix = none)) ∧
    (stateAfter step { name } calls).counts = (shown run).length ∧
    ∀ before once count after, run = before ++ (.count once, .ok (.count count)) :: after →
      (count.first = true ↔ shown before = []) := by
  intro run
  -- A count of the run is a move of the group that the uses before it have made.
  have hmoves : ∀ before once reply after, run = before ++ (.count once, reply) :: after →
      let reached := stateAfter step { name } (before.map (·.1))
      Moves reached (.count once) reply (reached.step (.count once)).2 ∧
        reached.name = name ∧ reached.counts = (shown before).length ∧
        transcript step { name } (before.map (·.1)) = before ∧
        transcript step (reached.step (.count once)).2 (after.map (·.1)) = after := by
    intro before once reply after hrun reached
    obtain ⟨-, hbefore, hreply, hafter⟩ := transcript_eq_append_cons hrun
    have hmove := reached.moves_step (.count once)
    have hcounts : reached.counts = 0 + _ := counts_stateAfter { name } (before.map (·.1))
    rw [hreply] at hmove
    rw [hbefore, Nat.zero_add] at hcounts
    exact ⟨hmove, name_stateAfter _ _, hcounts, hbefore, hafter⟩
  refine ⟨?sole, ?plain, ?unknown, ?counts, ?first⟩
  case sole =>
    intro before count after hrun
    obtain ⟨hmove, hname, hcounts, hbefore, hafter⟩ := hmoves _ _ _ _ hrun
    obtain ⟨hnone, hclosed⟩ := hmove.countedOnce_of_count
    have hnil : shown before = [] := List.length_eq_zero_iff.mp (hcounts.symm.trans hnone)
    constructor
    · rw [← hbefore] at hnil ⊢
      exact fun once reply => exists_error_of_shown_eq_nil hnil
    · intro once reply hmem
      rw [← hafter] at hmem
      rw [hclosed.reply_of_mem hmem, hmove.name_eq, hname]
  case plain =>
    intro hplain once other hmem
    exact ne_countedTwice_of_mem rfl hplain hmem other rfl
  case unknown =>
    intro before once reply after hrun
    obtain ⟨hmove, hname, -⟩ := hmoves _ _ _ _ hrun
    rw [← hmove.unknownGroup_iff, hname]
  case counts => simpa using counts_stateAfter { name } calls
  case first =>
    intro before once count after hrun
    obtain ⟨hmove, -, hcounts, -⟩ := hmoves _ _ _ _ hrun
    rw [hmove.first_iff, hcounts, List.length_eq_zero_iff]

/-- A count that comes before any suffix, one that is to be the only one, and one that comes too late;
and counts none of which is to be the only one. -/
theorem count_once_only_three_counts :
    let calls : List Call := [.count false, .refer ['a'], .count true, .force ['b'] 4, .count false]
    let run := transcript step { name := ['k'] } calls
    let before := run.take 2
    let after := run.drop 3
    let unknown := Fault.unknownGroup .enumeration ['k'] ['k', '#']
    let plain : List Call := [.refer ['a'], .count false, .count false]
    run = before ++ (.count true, .ok (.count ⟨1, true⟩)) :: after ∧
      .count false ∈ before.map (·.1) ∧ .count false ∈ after.map (·.1) ∧
      (∀ once reply, (.count once, reply) ∈ before → ∃ fault, reply = .error fault) ∧
      (∀ once reply, (.count once, reply) ∈ after → reply = .error (.countedTwice ['k'])) ∧
      shown before = [] ∧ run = [] ++ (.count false, .error unknown) :: run.drop 1 ∧
      (∀ suffix, id? { name := ['k'] } suffix = none) ∧ .count true ∉ plain ∧
      ∀ once other,
        (.count once, .error (.countedTwice other)) ∉ transcript step { name := ['k'] } plain := by
  intro calls run before after unknown plain
  obtain ⟨hsole, -, hunknown, -, hfirst⟩ := count_once_only ['k'] calls
  obtain ⟨-, hplain, -⟩ := count_once_only ['k'] plain
  have hrun : run = before ++ (.count true, .ok (.count ⟨1, true⟩)) :: after := by decide +kernel
  have hstart : run = [] ++ (.count false, .error unknown) :: run.drop 1 := by decide +kernel
  have hnone : .count true ∉ plain := by decide
  obtain ⟨hearly, hlate⟩ := hsole before _ after hrun
  exact ⟨hrun, by decide +kernel, by decide +kernel, hearly, hlate,
    (hfirst before true _ after hrun).mp rfl, hstart,
    (hunknown [] false _ _ hstart).mp ⟨_, rfl⟩, hnone, hplain hnone⟩

end JsfxSugar.Enumeration.Group
