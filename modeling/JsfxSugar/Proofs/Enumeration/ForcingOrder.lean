import JsfxSugar.Proofs.Enumeration.Histories
import JsfxSugar.Proofs.Enumeration.Uses

/-! Forcings one after the other. Whether all of them succeed, and what they make of a group, hangs on
the values that are forced and not on their order. -/

namespace JsfxSugar.Enumeration

/-- The uses that force values on suffixes. -/
def forcings (pairs : List (Text × Nat)) : List Call :=
  pairs.map fun p => .force p.1 p.2

namespace Group

variable {group group' : Group} {forced pairs pairs' : List (Text × Nat)} {suffix : Text}
  {value : Nat}

/-- The groups differ at most in the order in which their suffixes were entered. -/
structure Alike (group group' : Group) : Prop where
  name_eq : group.name = group'.name
  counter_eq : group.counter = group'.counter
  id?_eq : ∀ suffix, group.id? suffix = group'.id? suffix
  forced_eq : group.forced = group'.forced
  counts_eq : group.counts = group'.counts
  sole_eq : group.sole = group'.sole

theorem Alike.isEmpty_values_eq (h : group.Alike group') :
    group.values.isEmpty = group'.values.isEmpty := by
  rw [Bool.eq_iff_iff, isEmpty_values_iff, isEmpty_values_iff]
  simp only [h.id?_eq]

theorem alike_of_id?_eq {values values' : Roster}
    (h : ∀ suffix, values.id? suffix = values'.id? suffix) {name : Text} {counter : Counter}
    {forced : Std.ExtTreeMap Nat Text} {counts : Nat} {sole : Bool} :
    Alike ⟨name, counter, values, forced, counts, sole⟩
      ⟨name, counter, values', forced, counts, sole⟩ :=
  ⟨rfl, rfl, h, rfl, rfl, rfl⟩

/-- Groups that are alike answer a use alike, and are alike after it. -/
theorem Alike.step (h : group.Alike group') (call : Call) :
    (group.step call).1 = (group'.step call).1 ∧ (group.step call).2.Alike (group'.step call).2 := by
  have hempty := h.isEmpty_values_eq
  obtain ⟨name, counter, values, table, counts, sole⟩ := group
  obtain ⟨name', counter', values', table', counts', sole'⟩ := group'
  obtain ⟨rfl, rfl, hids, rfl, rfl, rfl⟩ := h
  simp only [id?_mk] at hids
  have hadd : ∀ suffix id other,
      (values.add suffix id).id? other = (values'.add suffix id).id? other := by
    intro suffix id other
    rw [Roster.id?_add, Roster.id?_add, hids, hids]
  cases call with
  | force suffix value =>
    by_cases hvalue : value < Counter.limit
    · simp only [Group.step, force, dif_pos hvalue, conflict?, otherSuffix?, otherId?, id?_mk, hids]
      split
      · exact ⟨rfl, alike_of_id?_eq hids⟩
      · exact ⟨rfl, alike_of_id?_eq (hadd suffix value)⟩
    · simp only [Group.step, force, dif_neg hvalue]
      exact ⟨trivial, alike_of_id?_eq hids⟩
  | refer suffix =>
    simp only [Group.step, refer, id?_mk, hids]
    split
    · exact ⟨rfl, alike_of_id?_eq hids⟩
    · split
      · rename_i id later htake
        exact ⟨rfl, alike_of_id?_eq (hadd suffix id)⟩
      · exact ⟨rfl, alike_of_id?_eq hids⟩
  | count once =>
    simp only [Group.step, count, hempty, total_mk]
    split
    · exact ⟨rfl, alike_of_id?_eq hids⟩
    · split <;> exact ⟨rfl, alike_of_id?_eq hids⟩

theorem step_force_eq_ok_iff : (group.step (.force suffix value)).1 = .ok .forced ↔
    ∃ g, group.force suffix value = (.ok (), g) := by
  simp only [step]
  cases h : group.force suffix value with
  | mk result g => cases result <;> simp [Except.map]

theorem step_force_of_eq_ok (h : group.force suffix value = (.ok (), group')) :
    (group.step (.force suffix value)).2 = group' := by
  simp only [step, h]

/-- Forcings succeed one after the other when each value leaves room for the total and no two of them
contradict each other, or one that was forced before. -/
theorem Assigns.forcings_succeed_iff (h : group.Assigns forced []) (hforced : OneToOne forced) :
    (∀ entry ∈ transcript step group (forcings pairs), entry.2 = .ok .forced) ↔
      (∀ p ∈ pairs, p.2 < Counter.limit) ∧ OneToOne (forced ++ pairs) := by
  induction pairs generalizing group forced with
  | nil => simp [forcings, transcript, hforced]
  | cons p pairs ih =>
    obtain ⟨suffix, value⟩ := p
    rw [forcings, List.map_cons, transcript, List.forall_mem_cons, step_force_eq_ok_iff,
      List.forall_mem_cons, List.append_cons]
    constructor
    · rintro ⟨⟨g, hforce⟩, hrest⟩
      obtain ⟨hlimit, hpairs⟩ := h.force_succeeds_iff.mp ⟨g, hforce⟩
      rw [step_force_of_eq_ok hforce] at hrest
      have hone := oneToOne_concat.mpr ⟨hforced, hpairs⟩
      obtain ⟨hlimits, hall⟩ := (ih (h.force_eq_ok hforce).1 hone).mp hrest
      exact ⟨⟨hlimit, hlimits⟩, hall⟩
    · rintro ⟨⟨hlimit, hlimits⟩, hall⟩
      have hone := hall.of_subset (List.subset_append_left _ _)
      obtain ⟨g, hforce⟩ := h.force_succeeds_iff.mpr ⟨hlimit, (oneToOne_concat.mp hone).2⟩
      refine ⟨⟨g, hforce⟩, ?_⟩
      rw [step_force_of_eq_ok hforce]
      exact (ih (h.force_eq_ok hforce).1 hone).mpr ⟨hlimits, hall⟩

/-- What forcings that succeed leave behind: the values that they force, and no other use. -/
theorem Assigns.stateAfter_forcings (h : group.Assigns forced [])
    (hok : ∀ entry ∈ transcript step group (forcings pairs), entry.2 = .ok .forced) :
    (stateAfter step group (forcings pairs)).Assigns (forced ++ pairs) [] := by
  induction pairs generalizing group forced with
  | nil => simpa [forcings] using h
  | cons p pairs ih =>
    rw [forcings, List.map_cons, transcript, List.forall_mem_cons, step_force_eq_ok_iff] at hok
    obtain ⟨⟨g, hforce⟩, hrest⟩ := hok
    rw [step_force_of_eq_ok hforce] at hrest
    rw [forcings, List.map_cons, stateAfter_cons, step_force_of_eq_ok hforce, List.append_cons]
    exact ih (h.force_eq_ok hforce).1 hrest

/-- Forcings count nothing. -/
theorem counts_stateAfter_forcings (group : Group) (pairs : List (Text × Nat)) :
    (stateAfter step group (forcings pairs)).counts = group.counts ∧
      (stateAfter step group (forcings pairs)).sole = group.sole := by
  refine stateAfter_induction
    (P := fun later : Group => later.counts = group.counts ∧ later.sole = group.sole) ⟨rfl, rfl⟩ ?_
  intro later call hcall hlater
  obtain ⟨p, -, rfl⟩ := List.mem_map.mp hcall
  have hmoves := later.moves_step (.force p.1 p.2)
  generalize (later.step (.force p.1 p.2)).1 = reply at hmoves
  generalize (later.step (.force p.1 p.2)).2 = next at hmoves ⊢
  cases hmoves <;> exact hlater

/-- Groups that hold the same forced values are alike. -/
theorem Assigns.alike (h : group.Assigns pairs []) (h' : group'.Assigns pairs' [])
    (hpairs : pairs.Perm pairs') (hname : group.name = group'.name)
    (hcounts : group.counts = group'.counts) (hsole : group.sole = group'.sole) :
    group.Alike group' where
  name_eq := hname
  counter_eq := by
    have hnext : group.counter.next = group'.counter.next := by
      rw [h.next_eq, h'.next_eq, floor_eq_of_perm hpairs]
    cases hcounter : group.counter
    cases hcounter' : group'.counter
    simpa [hcounter, hcounter'] using hnext
  id?_eq suffix := by
    apply Option.ext
    intro id
    rw [h.id?_eq_some_iff, h'.id?_eq_some_iff, hpairs.mem_iff]
    simp
  forced_eq := by
    apply Std.ExtTreeMap.ext_getElem?
    intro value
    apply Option.ext
    intro suffix
    rw [h.forced_iff, h'.forced_iff, hpairs.mem_iff]
  counts_eq := hcounts
  sole_eq := hsole

/-- The same forcings in another order all succeed when they do so in this one. They then leave a
group that has the same ids, the same total and the same suffixes, and that answers alike whatever
uses follow. -/
theorem stateAfter_forcings_perm (name : Text) (hpairs : pairs.Perm pairs') :
    let run pairs := transcript step { name } (forcings pairs)
    let group := stateAfter step { name } (forcings pairs)
    let group' := stateAfter step { name } (forcings pairs')
    ((∀ entry ∈ run pairs, entry.2 = .ok .forced) ↔ ∀ entry ∈ run pairs', entry.2 = .ok .forced) ∧
    ((∀ entry ∈ run pairs, entry.2 = .ok .forced) →
      (∀ suffix, group.id? suffix = group'.id? suffix) ∧ group.total = group'.total ∧
      group.suffixes.Perm group'.suffixes ∧
      ∀ calls, transcript step group calls = transcript step group' calls) := by
  intro run group group'
  have hnew : OneToOne [] := by simp [OneToOne]
  have hsame : (∀ entry ∈ run pairs, entry.2 = .ok .forced) ↔
      ∀ entry ∈ run pairs', entry.2 = .ok .forced := by
    rw [(assigns_new name).forcings_succeed_iff hnew, (assigns_new name).forcings_succeed_iff hnew]
    apply and_congr
    · exact forall_congr' fun p => by rw [hpairs.mem_iff]
    · exact ⟨fun h => h.of_subset hpairs.symm.subset, fun h => h.of_subset hpairs.subset⟩
  refine ⟨hsame, fun hok => ?_⟩
  have hgroup : group.Assigns pairs [] := (assigns_new name).stateAfter_forcings hok
  have hgroup' : group'.Assigns pairs' [] :=
    (assigns_new name).stateAfter_forcings (hsame.mp hok)
  obtain ⟨hcounts, hsole⟩ := counts_stateAfter_forcings { name } pairs
  obtain ⟨hcounts', hsole'⟩ := counts_stateAfter_forcings { name } pairs'
  have halike : group.Alike group' := by
    apply hgroup.alike hgroup' hpairs
    · exact (name_stateAfter _ _).trans (name_stateAfter _ _).symm
    · exact hcounts.trans hcounts'.symm
    · exact hsole.trans hsole'.symm
  refine ⟨halike.id?_eq, congrArg Counter.next halike.counter_eq, ?_, ?_⟩
  · rw [hgroup.suffixes_eq, hgroup'.suffixes_eq, List.append_nil, List.append_nil]
    exact (eraseDups_perm hpairs).map _
  · exact transcript_congr (fun _ _ call h => h.step call) halike

/-- Two values, one of them forced twice, and a new suffix after them. -/
theorem stateAfter_forcings_perm_pear_apple :
    let pairs := [("pear".toList, 4), ("apple".toList, 1), ("pear".toList, 4)]
    let pairs' := [("apple".toList, 1), ("pear".toList, 4), ("pear".toList, 4)]
    let run pairs := transcript step { name := ['k'] } (forcings pairs)
    let group := stateAfter step { name := ['k'] } (forcings pairs)
    let group' := stateAfter step { name := ['k'] } (forcings pairs')
    pairs.Perm pairs' ∧ (∀ entry ∈ run pairs, entry.2 = .ok .forced) ∧
      (∀ entry ∈ run pairs', entry.2 = .ok .forced) ∧ group'.id? "pear".toList = some 4 ∧
      group'.total = 5 ∧ group.suffixes ≠ group'.suffixes ∧
      (group'.step (.refer "plum".toList)).1 = .ok (.id 5) := by
  intro pairs pairs' run group group'
  have hpairs : pairs.Perm pairs' := by decide
  obtain ⟨hsame, hleft⟩ := stateAfter_forcings_perm ['k'] hpairs
  have hok : ∀ entry ∈ run pairs, entry.2 = .ok .forced := by decide +kernel
  obtain ⟨hids, htotal, -, hlater⟩ := hleft hok
  have hpear : group.id? "pear".toList = some 4 := by decide +kernel
  have hfive : group.total = 5 := by decide +kernel
  have hplum : (group.step (.refer "plum".toList)).1 = .ok (.id 5) := by decide +kernel
  have hanswer := hlater [.refer "plum".toList]
  simp only [transcript, List.cons.injEq, Prod.mk.injEq, true_and, and_true] at hanswer
  exact ⟨hpairs, hok, hsame.mp hok, (hids _).symm.trans hpear, htotal.symm.trans hfive,
    by decide +kernel, hanswer.symm.trans hplum⟩

end Group

end JsfxSugar.Enumeration
