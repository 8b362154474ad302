import JsfxSugar.Proofs.Enumeration.Assignment
import JsfxSugar.Proofs.Transcript

/-! One enumeration under uses in any order, whichever of them fail: what a single use can do, and
what holds after every run of them. -/

namespace JsfxSugar.Enumeration.Group

variable {group group' later : Group} {suffix other : Text} {value id : Nat} {call : Call}
  {reply : Except Fault Reply}

/-- All that a use of a group can do: the call, the answer, and the group after it. -/
inductive Moves (group : Group) : Call → Except Fault Reply → Group → Prop
  | overflow (suffix : Text) (value : Nat) (hlarge : ¬ value < Counter.limit) :
    Moves group (.force suffix value)
      (.error (.forcedValue group.name suffix (Text.ofNat value))) group
  | clash (suffix : Text) (value : Nat) (detail : Text) (hvalue : value < Counter.limit)
      (hconflict : group.conflict? suffix value = some detail) :
    Moves group (.force suffix value) (.error (.forcedConflict group.name detail))
      { group with counter := group.counter.skipTo (value + 1) hvalue }
  | bind (suffix : Text) (value : Nat) (hvalue : value < Counter.limit)
      (hfree : group.conflict? suffix value = none) :
    Moves group (.force suffix value) (.ok .forced)
      { group with
        counter := group.counter.skipTo (value + 1) hvalue
        values := group.values.add suffix value
        forced := group.forced.insert value suffix }
  | found (suffix : Text) (id : Nat) (hid : group.id? suffix = some id) :
    Moves group (.refer suffix) (.ok (.id id)) group
  | enroll (suffix : Text) (hnew : group.id? suffix = none) (hroom : group.total < Counter.limit) :
    Moves group (.refer suffix) (.ok (.id group.total))
      { group with
        counter := .ofNext (group.total + 1) hroom
        values := group.values.add suffix group.total }
  | exhausted (suffix : Text) (hnew : group.id? suffix = none)
      (hfull : ¬ group.total < Counter.limit) :
    Moves group (.refer suffix) (.error (.idsExhausted .enumeration group.name)) group
  | unknown (once : Bool) (hempty : group.values.isEmpty = true) :
    Moves group (.count once)
      (.error (.unknownGroup .enumeration group.name (countSource group.name once))) group
  | repeated (once : Bool) (hknown : group.values.isEmpty = false)
      (hsole : (group.sole || (once && 0 < group.counts)) = true) :
    Moves group (.count once) (.error (.countedTwice group.name)) group
  | counted (once : Bool) (hknown : group.values.isEmpty = false)
      (hsole : (group.sole || (once && 0 < group.counts)) = false) :
    Moves group (.count once) (.ok (.count ⟨group.total, group.counts + 1 = 1⟩))
      { group with counts := group.counts + 1, sole := once }

theorem moves_step (group : Group) (call : Call) :
    Moves group call (group.step call).1 (group.step call).2 := by
  cases call with
  | force suffix value =>
    by_cases hvalue : value < Counter.limit
    · simp only [step, force, dif_pos hvalue]
      split
      · rename_i detail hconflict
        exact .clash suffix value detail hvalue hconflict
      · rename_i hfree
        exact .bind suffix value hvalue hfree
    · simp only [step, force, dif_neg hvalue]
      exact .overflow suffix value hvalue
  | refer suffix =>
    cases hid : group.id? suffix with
    | some id =>
      simp only [step, refer, hid]
      exact .found suffix id hid
    | none =>
      by_cases hroom : group.total < Counter.limit
      · have htake : group.counter.take? = some (group.total, .ofNext (group.total + 1) hroom) :=
          dif_pos hroom
        simp only [step, refer, hid, htake]
        exact .enroll suffix hid hroom
      · have htake : group.counter.take? = none := dif_neg hroom
        simp only [step, refer, hid, htake]
        exact .exhausted suffix hid hroom
  | count once =>
    simp only [step, count]
    split
    · rename_i hempty
      exact .unknown once hempty
    · rename_i hknown
      split
      · rename_i hsole
        exact .repeated once (Bool.not_eq_true _ ▸ hknown) hsole
      · rename_i hsole
        exact .counted once (Bool.not_eq_true _ ▸ hknown) (Bool.not_eq_true _ ▸ hsole)

section

variable (name : Text) (counter : Counter) (values : Roster) (forced : Std.ExtTreeMap Nat Text)
  (counts : Nat) (sole : Bool)

@[simp] theorem id?_mk : Group.id? ⟨name, counter, values, forced, counts, sole⟩ suffix =
    values.id? suffix := rfl

@[simp] theorem total_mk : Group.total ⟨name, counter, values, forced, counts, sole⟩ =
    counter.next := rfl

@[simp] theorem next_counter (group : Group) : group.counter.next = group.total := rfl

@[simp] theorem id?_values (group : Group) : group.values.id? suffix = group.id? suffix := rfl

end

theorem isEmpty_values_iff : group.values.isEmpty = true ↔ ∀ suffix, group.id? suffix = none := by
  have hentries : group.values.isEmpty = true ↔ group.values.entries = [] := by
    simp [Roster.isEmpty, Roster.entries]
  rw [hentries, List.eq_nil_iff_forall_not_mem]
  constructor
  · intro h suffix
    cases hid : group.id? suffix with
    | none => rfl
    | some id =>
      have hmem : (suffix, id) ∈ group.values.entries := Roster.mem_entries_iff.mpr hid
      exact absurd hmem (h _)
  · rintro h ⟨suffix, id⟩ hmem
    have hid : group.id? suffix = some id := Roster.mem_entries_iff.mp hmem
    rw [h suffix] at hid
    cases hid

/-- Every id lies below the total, and a forced value is the id of its suffix. -/
structure Sound (group : Group) : Prop where
  lt_total : ∀ suffix id, group.id? suffix = some id → id < group.total
  id?_of_forced : ∀ value suffix, group.forced[value]? = some suffix → group.id? suffix = some value

/-- Nothing was taken back: the total is no smaller, and all ids are as they were. -/
structure Extends (group later : Group) : Prop where
  total_le : group.total ≤ later.total
  id?_eq : ∀ suffix id, group.id? suffix = some id → later.id? suffix = some id

theorem Extends.refl (group : Group) : group.Extends group := ⟨Nat.le_refl _, fun _ _ hid => hid⟩

theorem Extends.trans (h : group.Extends group') (h' : group'.Extends later) :
    group.Extends later where
  total_le := Nat.le_trans h.total_le h'.total_le
  id?_eq suffix id hid := h'.id?_eq suffix id (h.id?_eq suffix id hid)

theorem sound_new (name : Text) : Sound { name } where
  lt_total suffix id hid := by simp at hid
  id?_of_forced value suffix hforced := by simp at hforced

/-- The ids once a suffix is entered that had no other id. -/
theorem id?_add_eq_some_iff (h : ∀ id, group.id? suffix = some id → id = value) :
    (group.values.add suffix value).id? other = some id ↔
      (other = suffix ∧ id = value) ∨ group.id? other = some id := by
  rw [Roster.id?_add]
  by_cases heq : other = suffix
  · subst heq
    cases hold : group.id? other with
    | none => simp [hold, eq_comm]
    | some old =>
      obtain rfl := h old hold
      simp [hold, eq_comm]
  · simp [heq]

theorem eq_of_id?_eq_none (hnew : group.id? suffix = none) :
    ∀ id, group.id? suffix = some id → id = value := by
  simp [hnew]

theorem Moves.sound (h : Moves group call reply group') (hs : group.Sound) : group'.Sound := by
  obtain ⟨hlt, hforced⟩ := hs
  cases h with
  | overflow | found | exhausted | unknown | repeated | counted => exact ⟨hlt, hforced⟩
  | clash suffix value detail hvalue hconflict =>
    refine ⟨fun other id hid => ?_, hforced⟩
    have hbelow := hlt other id hid
    simp only [total_mk, Counter.next_skipTo, next_counter]
    omega
  | bind suffix value hvalue hfree =>
    obtain ⟨hsuffix, hvalues⟩ := conflict?_eq_none_iff.mp hfree
    refine ⟨fun other id hid => ?_, fun old other hold => ?_⟩
    · simp only [id?_mk, id?_add_eq_some_iff hvalues] at hid
      simp only [total_mk, Counter.next_skipTo, next_counter]
      rcases hid with ⟨-, rfl⟩ | hid
      · omega
      · have hbelow := hlt other id hid
        omega
    · simp only [id?_mk, id?_add_eq_some_iff hvalues]
      simp only [Std.ExtTreeMap.getElem?_insert, Std.compare_eq_iff_eq] at hold
      split at hold
      · rename_i heq
        exact Or.inl ⟨(Option.some.inj hold).symm, heq.symm⟩
      · exact Or.inr (hforced old other hold)
  | enroll suffix hnew hroom =>
    have hvalues : ∀ id, group.id? suffix = some id → id = group.total := eq_of_id?_eq_none hnew
    refine ⟨fun other id hid => ?_, fun value other hold => ?_⟩
    · simp only [id?_mk, id?_add_eq_some_iff hvalues] at hid
      simp only [total_mk, Counter.next_ofNext]
      rcases hid with ⟨-, rfl⟩ | hid
      · omega
      · have hbelow := hlt other id hid
        omega
    · simp only [id?_mk, id?_add_eq_some_iff hvalues]
      exact Or.inr (hforced value other hold)

theorem Moves.extends (h : Moves group call reply group') : group.Extends group' := by
  cases h with
  | overflow | found | exhausted | unknown | repeated | counted =>
    exact ⟨Nat.le_refl _, fun _ _ hid => hid⟩
  | clash suffix value detail hvalue hconflict =>
    exact ⟨Nat.le_max_left _ _, fun _ _ hid => hid⟩
  | bind suffix value hvalue hfree =>
    obtain ⟨hsuffix, hvalues⟩ := conflict?_eq_none_iff.mp hfree
    refine ⟨Nat.le_max_left _ _, fun other id hid => ?_⟩
    simp only [id?_mk, id?_add_eq_some_iff hvalues]
    exact Or.inr hid
  | enroll suffix hnew hroom =>
    refine ⟨Nat.le_succ _, fun other id hid => ?_⟩
    simp only [id?_mk, id?_add_eq_some_iff (eq_of_id?_eq_none hnew)]
    exact Or.inr hid

theorem Moves.name_eq (h : Moves group call reply group') : group'.name = group.name := by
  cases h <;> rfl

theorem name_stateAfter (group : Group) (calls : List Call) :
    (stateAfter step group calls).name = group.name :=
  stateAfter_induction (P := fun later : Group => later.name = group.name) rfl
    fun later call _ h => (later.moves_step call).name_eq.trans h

theorem sound_stateAfter (calls : List Call) (hs : group.Sound) :
    (stateAfter step group calls).Sound :=
  stateAfter_induction hs fun group call _ hs => (group.moves_step call).sound hs

theorem extends_stateAfter (group : Group) (calls : List Call) :
    group.Extends (stateAfter step group calls) :=
  stateAfter_induction (Extends.refl group) fun later call _ h =>
    h.trans (later.moves_step call).extends

/-- A reference that enters a new suffix answers with an id that no suffix has. -/
theorem Sound.fresh (hs : group.Sound) (hnew : group.id? suffix = none)
    (hreply : (group.step (.refer suffix)).1 = .ok (.id id)) (other : Text) :
    group.id? other ≠ some id := by
  intro hother
  have hmoves := group.moves_step (.refer suffix)
  rw [hreply] at hmoves
  generalize (group.step (.refer suffix)).2 = group' at hmoves
  cases hmoves with
  | found _ _ hid => simp [hnew] at hid
  | enroll _ _ hroom => exact Nat.lt_irrefl _ (hs.lt_total other _ hother)

/-- Whatever uses a group has seen, and whichever of them failed: all ids lie below the total; the
suffixes stand in their order, each once, and are just those that have ids; and a forced value is the
id of its suffix. No later use lowers the total or takes an id back, and a suffix that is entered by
a later reference gets an id that none had before. -/
theorem representation_stateAfter (name : Text) (before after : List Call) :
    let group := stateAfter step { name } before
    let later := stateAfter step { name } (before ++ after)
    (∀ suffix id, group.id? suffix = some id → id < group.total) ∧
    group.suffixes.Nodup ∧
    (∀ suffix, suffix ∈ group.suffixes ↔ (group.id? suffix).isSome) ∧
    (∀ value suffix, group.forced[value]? = some suffix → group.id? suffix = some value) ∧
    group.total ≤ later.total ∧
    (∀ suffix id, group.id? suffix = some id → later.id? suffix = some id) ∧
    ∀ suffix id, later.id? suffix = none → (later.step (.refer suffix)).1 = .ok (.id id) →
      ∀ other, group.id? other ≠ some id := by
  intro group later
  have hsound : group.Sound := sound_stateAfter before (sound_new name)
  have hextends : group.Extends later := by
    have hlater : later = stateAfter step group after := stateAfter_append before after
    rw [hlater]
    exact extends_stateAfter group after
  have hlater : later.Sound := sound_stateAfter (before ++ after) (sound_new name)
  refine ⟨hsound.lt_total, Roster.nodup_names _, ?_, hsound.id?_of_forced, hextends.total_le,
    hextends.id?_eq, ?_⟩
  · intro suffix
    exact Roster.mem_names_iff
  · intro suffix id hnew hreply other hother
    exact hlater.fresh hnew hreply other (hextends.id?_eq other id hother)

/-- A reference, a forcing that fails and one that does not, and a new suffix after a count. -/
theorem representation_stateAfter_pear_apple :
    let before : List Call :=
      [.refer "pear".toList, .force "pear".toList 3, .force "apple".toList 1]
    let group := stateAfter step { name := ['k'] } before
    let later := stateAfter step { name := ['k'] } (before ++ [.count true])
    group.id? "pear".toList = some 0 ∧ 0 < group.total ∧ "pear".toList ∈ group.suffixes ∧
      group.forced[1]? = some "apple".toList ∧ group.id? "apple".toList = some 1 ∧
      later.id? "pear".toList = some 0 ∧ later.id? "plum".toList = none ∧
      (later.step (.refer "plum".toList)).1 = .ok (.id 4) ∧
      ∀ other, group.id? other ≠ some 4 := by
  intro before group later
  obtain ⟨hlt, -, hmem, hvalue, -, hkeep, hfresh⟩ :=
    representation_stateAfter ['k'] before [.count true]
  have hpear : group.id? "pear".toList = some 0 := by decide +kernel
  have hforced : group.forced[1]? = some "apple".toList := by decide +kernel
  have hnew : later.id? "plum".toList = none := by decide +kernel
  have hreply : (later.step (.refer "plum".toList)).1 = .ok (.id 4) := by decide +kernel
  exact ⟨hpear, hlt _ 0 hpear, (hmem _).mpr (by rw [hpear]; rfl), hforced, hvalue 1 _ hforced,
    hkeep _ 0 hpear, hnew, hreply, hfresh _ 4 hnew hreply⟩

end JsfxSugar.Enumeration.Group
