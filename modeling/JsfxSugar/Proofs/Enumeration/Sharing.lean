import JsfxSugar.Proofs.Enumeration.Histories

/-! When two suffixes of one enumeration come to share an id: a value is forced that another suffix
was given by a reference. Forced values are compared with forced values only, so this is accepted. -/

namespace JsfxSugar.Enumeration.Group

variable {group group' : Group} {suffix other : Text} {value id : Nat} {call : Call}
  {reply : Except Fault Reply}

/-- No two suffixes have the same id. -/
def Distinct (group : Group) : Prop :=
  ∀ suffix other id, group.id? suffix = some id → group.id? other = some id → suffix = other

/-- A value would be forced on a suffix without an id, while another suffix has that value already
and it is not forced there. -/
structure Doubles (group : Group) (suffix : Text) (value : Nat) : Prop where
  new : group.id? suffix = none
  unforced : group.forced[value]? = none
  taken : ∃ other, group.id? other = some value

/-- Every id was forced. -/
def AllForced (group : Group) : Prop :=
  ∀ suffix id, group.id? suffix = some id → group.forced[id]? = some suffix

theorem AllForced.distinct (h : group.AllForced) : group.Distinct := by
  intro suffix other id hid hother
  exact Option.some.inj ((h suffix id hid).symm.trans (h other id hother))

theorem Extends.distinct (h : group.Extends group') (hd : group'.Distinct) : group.Distinct :=
  fun suffix other id hid hother =>
    hd suffix other id (h.id?_eq suffix id hid) (h.id?_eq other id hother)

theorem Doubles.conflict?_eq_none (h : group.Doubles suffix value) :
    group.conflict? suffix value = none := by
  rw [conflict?_eq_none_iff, h.new, h.unforced]
  simp

theorem Doubles.lt_limit (h : group.Doubles suffix value) (hs : group.Sound) :
    value < Counter.limit := by
  obtain ⟨other, hother⟩ := h.taken
  have hbelow := hs.lt_total other value hother
  have hlimit : group.total ≤ Counter.limit := group.counter.next_le
  omega

/-- A suffix that is entered shares its id exactly when another suffix has that id already. -/
theorem Distinct.enter_iff (hd : group.Distinct) (h : ∀ id, group.id? suffix = some id → id = value)
    (hvalues : group'.values = group.values.add suffix value) :
    group'.Distinct ↔ ∀ other, group.id? other = some value → other = suffix := by
  have hids : ∀ other id, group'.id? other = some id ↔
      (other = suffix ∧ id = value) ∨ group.id? other = some id := by
    intro other id
    rw [← id?_values, hvalues]
    exact id?_add_eq_some_iff h
  simp only [Distinct, hids]
  constructor
  · intro hdistinct other hother
    exact hdistinct other suffix value (Or.inr hother) (Or.inl ⟨rfl, rfl⟩)
  · rintro halone first second id (⟨rfl, rfl⟩ | hfirst) (⟨rfl, hsame⟩ | hsecond)
    · rfl
    · exact (halone second hsecond).symm
    · exact halone first (hsame ▸ hfirst)
    · exact hd first second id hfirst hsecond

/-- A value that is another suffix's id can be forced only where it was not forced before. -/
theorem Doubles.of_conflict?_eq_none (hs : group.Sound) (hd : group.Distinct)
    (hfree : group.conflict? suffix value = none) (hne : other ≠ suffix)
    (hother : group.id? other = some value) : group.Doubles suffix value := by
  obtain ⟨hsuffix, hvalues⟩ := conflict?_eq_none_iff.mp hfree
  have hnew : group.id? suffix = none := by
    cases hid : group.id? suffix with
    | none => rfl
    | some id =>
      obtain rfl := hvalues id hid
      exact absurd (hd other suffix id hother hid) hne
  refine ⟨hnew, ?_, other, hother⟩
  cases hforced : group.forced[value]? with
  | none => rfl
  | some owner =>
    obtain rfl := hsuffix owner hforced
    have howner := hs.id?_of_forced value owner hforced
    rw [hnew] at howner
    cases howner

/-- Where all ids were distinct, two suffixes share an id after a use exactly when it was such a
forcing. -/
theorem Moves.distinct_iff (h : Moves group call reply group') (hs : group.Sound)
    (hd : group.Distinct) :
    group'.Distinct ↔ ∀ suffix value, call = .force suffix value → ¬ group.Doubles suffix value := by
  cases h with
  | found | exhausted | unknown | repeated | counted =>
    exact iff_of_true hd (by simp)
  | overflow suffix value hlarge =>
    refine iff_of_true hd ?_
    rintro _ _ ⟨rfl, rfl⟩ hdoubles
    exact hlarge (hdoubles.lt_limit hs)
  | clash suffix value detail hvalue hconflict =>
    refine iff_of_true hd ?_
    rintro _ _ ⟨rfl, rfl⟩ hdoubles
    rw [hdoubles.conflict?_eq_none] at hconflict
    cases hconflict
  | bind suffix value hvalue hfree =>
    obtain ⟨hsuffix, hvalues⟩ := conflict?_eq_none_iff.mp hfree
    rw [hd.enter_iff hvalues rfl]
    constructor
    · rintro halone _ _ ⟨rfl, rfl⟩ hdoubles
      obtain ⟨other, hother⟩ := hdoubles.taken
      have hnew := hdoubles.new
      rw [← halone other hother, hother] at hnew
      cases hnew
    · intro hnone other hother
      by_contra hne
      exact hnone suffix value rfl (.of_conflict?_eq_none hs hd hfree hne hother)
  | enroll suffix hnew hroom =>
    refine iff_of_true ((hd.enter_iff (eq_of_id?_eq_none hnew) rfl).mpr ?_) (by simp)
    intro other hother
    exact absurd (hs.lt_total other _ hother) (Nat.lt_irrefl _)

/-- Suffixes come to share an id exactly by such forcings, at whatever place of a run they stand. -/
theorem distinct_stateAfter_iff (calls : List Call) (hs : group.Sound) (hd : group.Distinct) :
    (stateAfter step group calls).Distinct ↔
      ∀ before suffix value after, calls = before ++ .force suffix value :: after →
        ¬ (stateAfter step group before).Doubles suffix value := by
  induction calls generalizing group with
  | nil => exact iff_of_true hd (by simp)
  | cons call calls ih =>
    have hmoves := group.moves_step call
    have hstep := hmoves.distinct_iff hs hd
    by_cases hnext : (group.step call).2.Distinct
    · rw [stateAfter_cons, ih (hmoves.sound hs) hnext]
      constructor
      · rintro hlater (_ | ⟨first, before⟩) suffix value after hcalls
        · obtain ⟨rfl, rfl⟩ := List.cons.inj hcalls
          exact hstep.mp hnext suffix value rfl
        · obtain ⟨rfl, rfl⟩ := List.cons.inj hcalls
          exact hlater before suffix value after rfl
      · rintro hall before suffix value after rfl
        exact hall (call :: before) suffix value after rfl
    · have hshared : ¬ (stateAfter step group (call :: calls)).Distinct := fun hdistinct =>
        hnext ((extends_stateAfter _ calls).distinct hdistinct)
      refine iff_of_false hshared fun hall => hnext (hstep.mpr ?_)
      rintro suffix value rfl
      exact hall [] suffix value calls rfl

theorem Moves.allForced (h : Moves group call reply group') (ha : group.AllForced)
    (hcall : ∀ suffix, call ≠ .refer suffix) : group'.AllForced := by
  cases h with
  | overflow | clash | unknown | repeated | counted => exact ha
  | found suffix | enroll suffix | exhausted suffix => exact absurd rfl (hcall suffix)
  | bind suffix value hvalue hfree =>
    obtain ⟨hsuffix, hvalues⟩ := conflict?_eq_none_iff.mp hfree
    intro other id hid
    simp only [id?_mk, id?_add_eq_some_iff hvalues] at hid
    simp only [Std.ExtTreeMap.getElem?_insert, Std.compare_eq_iff_eq]
    rcases hid with ⟨rfl, rfl⟩ | hid
    · rw [if_pos rfl]
    · split
      · rename_i heq
        subst heq
        rw [hsuffix other (ha other value hid)]
      · exact ha other id hid

/-- Where forcings come before references, all ids are distinct. -/
theorem distinct_of_forced_first (name : Text) {early late : List Call}
    (hearly : ∀ suffix, .refer suffix ∉ early) (hlate : ∀ suffix value, .force suffix value ∉ late) :
    (stateAfter step { name } (early ++ late)).Distinct := by
  have hnew : AllForced { name } := fun suffix id hid => by simp at hid
  have hforced : (stateAfter step { name } early).AllForced := by
    refine stateAfter_induction hnew fun group call hcall ha => ?_
    refine (group.moves_step call).allForced ha fun suffix heq => ?_
    exact hearly suffix (heq ▸ hcall)
  have hsound := sound_stateAfter early (sound_new name)
  rw [stateAfter_append, distinct_stateAfter_iff late hsound hforced.distinct]
  rintro before suffix value after rfl
  exact absurd (List.mem_append_right before List.mem_cons_self) (hlate suffix value)

/-- What a forcing answers that asks for the id of another suffix. -/
theorem Moves.reply_of_taken (h : Moves group (.force suffix value) reply group') (hs : group.Sound)
    (hd : group.Distinct) (hne : other ≠ suffix) (hother : group.id? other = some value) :
    (group.Doubles suffix value → reply = .ok .forced) ∧
      (¬ group.Doubles suffix value →
        ∃ detail, reply = .error (.forcedConflict group.name detail)) := by
  cases h with
  | overflow _ _ hlarge =>
    have hbelow := hs.lt_total other value hother
    exact absurd (Nat.lt_of_lt_of_le hbelow group.counter.next_le) hlarge
  | clash _ _ detail hvalue hconflict =>
    refine ⟨fun hdoubles => ?_, fun _ => ⟨detail, rfl⟩⟩
    rw [hdoubles.conflict?_eq_none] at hconflict
    cases hconflict
  | bind _ _ hvalue hfree =>
    have hdoubles := Doubles.of_conflict?_eq_none hs hd hfree hne hother
    exact ⟨fun _ => rfl, fun hnot => absurd hdoubles hnot⟩

/-- After any uses of a group, two suffixes share an id exactly when at some time a value was forced
on a suffix without an id that another suffix had by a reference. This cannot be when the forcings
come before the references. Every other forcing that would make two suffixes share an id fails. -/
theorem distinct_stateAfter_new (name : Text) :
    (∀ calls, (stateAfter step { name } calls).Distinct ↔
      ∀ before suffix value after, calls = before ++ .force suffix value :: after →
        ¬ (stateAfter step { name } before).Doubles suffix value) ∧
    (∀ early late, (∀ suffix, .refer suffix ∉ early) → (∀ suffix value, .force suffix value ∉ late) →
      (stateAfter step { name } (early ++ late)).Distinct) ∧
    ∀ calls suffix other value,
      let group := stateAfter step { name } calls
      let reply := (group.step (.force suffix value)).1
      group.Distinct → other ≠ suffix → group.id? other = some value →
        (group.Doubles suffix value → reply = .ok .forced) ∧
        (¬ group.Doubles suffix value → ∃ detail, reply = .error (.forcedConflict name detail)) := by
  refine ⟨fun calls => ?_, fun early late => distinct_of_forced_first name, ?_⟩
  · apply distinct_stateAfter_iff calls (sound_new name)
    intro suffix other id hid
    simp at hid
  · intro calls suffix other value group reply hd hne hother
    have hname : group.name = name := name_stateAfter _ calls
    have hsound : group.Sound := sound_stateAfter calls (sound_new name)
    rw [← hname]
    exact (group.moves_step (.force suffix value)).reply_of_taken hsound hd hne hother

/-- Two forced values, a reference, and a forcing that asks for a forced value again. -/
theorem distinct_stateAfter_new_pear_apple :
    let early : List Call := [.force "pear".toList 4, .force "apple".toList 1]
    let late : List Call := [.refer "plum".toList, .count false]
    let group := stateAfter step { name := ['k'] } (early ++ late)
    group.Distinct ∧ group.id? "pear".toList = some 4 ∧
      ∃ detail, (group.step (.force "fig".toList 4)).1 = .error (.forcedConflict ['k'] detail) := by
  intro early late group
  obtain ⟨-, hfirst, hreply⟩ := distinct_stateAfter_new ['k']
  have hdistinct : group.Distinct := hfirst early late (by simp [early]) (by simp [late])
  have hpear : group.id? "pear".toList = some 4 := by decide +kernel
  have hforced : group.forced[4]? = some "pear".toList := by decide +kernel
  have hnot : ¬ group.Doubles "fig".toList 4 := by
    intro hdoubles
    rw [hdoubles.unforced] at hforced
    cases hforced
  obtain ⟨-, hconflict⟩ := hreply _ "fig".toList _ 4 hdistinct (by decide) hpear
  exact ⟨hdistinct, hpear, hconflict hnot⟩

/-- A value that a reference has given to one suffix can be forced on another one. -/
theorem not_forall_distinct :
    ¬ ∀ (name : Text) (calls : List Call), (stateAfter step { name } calls).Distinct := by
  intro hall
  have hdistinct := hall ['k'] [.refer ['a'], .force ['b'] 0]
  have hsame : ['a'] = ['b'] := hdistinct _ _ 0 (by decide +kernel) (by decide +kernel)
  exact absurd hsame (by decide)

end JsfxSugar.Enumeration.Group
