import JsfxSugar.Proofs.Enumeration.Assignment

/-! When a use of one enumeration succeeds, told from the forced values and the other suffixes that the
group holds. -/

namespace JsfxSugar.Enumeration

/-- Each name stands with one value only, and each value with one name only. -/
def OneToOne (pairs : List (Text × Nat)) : Prop :=
  ∀ p ∈ pairs, ∀ q ∈ pairs, p.1 = q.1 ↔ p.2 = q.2

variable {forced pairs pairs' : List (Text × Nat)} {unforced : List Text} {suffix : Text}
  {value : Nat} {once : Bool}

theorem oneToOne_concat {q : Text × Nat} :
    OneToOne (pairs ++ [q]) ↔ OneToOne pairs ∧ ∀ p ∈ pairs, p.1 = q.1 ↔ p.2 = q.2 := by
  constructor
  · intro h
    refine ⟨fun p hp r hr => h p (by simp [hp]) r (by simp [hr]), fun p hp => ?_⟩
    exact h p (by simp [hp]) q (by simp)
  · rintro ⟨hpairs, hlast⟩ p hp r hr
    rcases List.mem_append.mp hp with hp | hp
    · rcases List.mem_append.mp hr with hr | hr
      · exact hpairs p hp r hr
      · rw [List.mem_singleton.mp hr]
        exact hlast p hp
    · rw [List.mem_singleton.mp hp]
      rcases List.mem_append.mp hr with hr | hr
      · rw [@eq_comm _ q.1, @eq_comm _ q.2]
        exact hlast r hr
      · rw [List.mem_singleton.mp hr]
        simp

theorem OneToOne.of_subset (h : OneToOne pairs') (hsubset : pairs ⊆ pairs') : OneToOne pairs :=
  fun p hp q hq => h p (hsubset hp) q (hsubset hq)

theorem floor_le_iff {n : Nat} : floor pairs ≤ n ↔ ∀ p ∈ pairs, p.2 < n := by
  constructor
  · rintro h ⟨suffix, value⟩ hp
    have hlt : value < floor pairs := lt_floor hp
    omega
  · intro h
    induction pairs using List.reverseRecOn with
    | nil => exact Nat.zero_le n
    | append_singleton pairs p ih =>
      obtain ⟨suffix, value⟩ := p
      have hfirst := ih fun q hq => h q (by simp [hq])
      have hlast : value < n := h (suffix, value) (by simp)
      rw [floor_concat]
      omega

theorem floor_le_of_subset (h : pairs ⊆ pairs') : floor pairs ≤ floor pairs' :=
  floor_le_iff.mpr fun p hp => floor_le_iff.mp (Nat.le_refl _) p (h hp)

theorem floor_eq_of_perm (h : pairs.Perm pairs') : floor pairs = floor pairs' :=
  Nat.le_antisymm (floor_le_of_subset h.subset) (floor_le_of_subset h.symm.subset)

/-- Which suffixes are left over does not depend on the order of the forced values and of the
references. -/
theorem leftOver_perm {seen seen' : List Text} (hpairs : pairs.Perm pairs')
    (hseen : seen.Perm seen') : (leftOver pairs seen).Perm (leftOver pairs' seen') := by
  apply eraseDups_perm
  have hsame : ∀ s ∈ seen', decide (s ∉ pairs.map (·.1)) = decide (s ∉ pairs'.map (·.1)) :=
    fun s _ => decide_eq_decide.mpr (not_congr (hpairs.map (·.1)).mem_iff)
  exact (List.filter_congr hsame) ▸ hseen.filter _

namespace Group.Assigns

variable {group : Group}

/-- A value can be forced when it leaves room for the total and contradicts no other. -/
theorem force_succeeds_iff (h : group.Assigns forced []) :
    (∃ g, group.force suffix value = (.ok (), g)) ↔
      value < Counter.limit ∧ ∀ p ∈ forced, p.1 = suffix ↔ p.2 = value := by
  constructor
  · rintro ⟨g, hforce⟩
    obtain ⟨hlimit, hsuffix, hid, -⟩ := group_of_force_eq_ok hforce
    refine ⟨hlimit, ?_⟩
    rintro ⟨other, id⟩ hmem
    constructor
    · rintro rfl
      exact hid id (h.id?_eq_some_iff.mpr (Or.inl hmem))
    · rintro rfl
      exact hsuffix other (h.forced_iff.mpr hmem)
  · rintro ⟨hlimit, hpairs⟩
    let raised := { group with counter := group.counter.skipTo (value + 1) hlimit }
    have hnone : raised.conflict? suffix value = none := by
      rw [conflict?_eq_none_iff]
      constructor
      · intro other hother
        exact (hpairs (other, value) (h.forced_iff.mp hother)).mpr rfl
      · intro id hid
        rcases h.id?_eq_some_iff.mp hid with hmem | ⟨-, hget⟩
        · exact (hpairs (suffix, id) hmem).mp rfl
        · simp at hget
    refine ⟨raised.bind suffix value, ?_⟩
    unfold force
    rw [dif_pos hlimit]
    simp only [raised, hnone]

/-- A suffix can be referenced when the total with it can still be shown. -/
theorem refer_succeeds_iff (h : group.Assigns forced unforced) :
    (∃ id g, group.refer suffix = (.ok id, g)) ↔
      floor forced + (unforced ++ if suffix ∈ forced.map (·.1) ∨ suffix ∈ unforced then []
        else [suffix]).length ≤ Counter.limit := by
  have hnext := h.next_eq
  constructor
  · rintro ⟨id, g, hrefer⟩
    have hnext' := (h.refer_eq_ok hrefer).1.next_eq
    have hle := g.counter.next_le
    omega
  · intro hle
    unfold refer
    cases hid : group.id? suffix with
    | some id => exact ⟨id, group, rfl⟩
    | none =>
      have hnew : ¬ (suffix ∈ forced.map (·.1) ∨ suffix ∈ unforced) := by
        intro hknown
        have hsome := h.isSome_id?_iff.mpr hknown
        simp [hid] at hsome
      rw [if_neg hnew, List.length_append, List.length_singleton] at hle
      have hlt : group.counter.next < Counter.limit := by omega
      rw [Counter.take?_of_lt hlt]
      exact ⟨_, _, rfl⟩

theorem isEmpty_values_iff (h : group.Assigns forced unforced) :
    group.values.isEmpty = true ↔ forced = [] ∧ unforced = [] := by
  have hentries : group.values.isEmpty = true ↔ group.values.entries = [] := by
    simp [Roster.isEmpty, Roster.entries]
  rw [hentries, h.entries_eq, List.append_eq_nil_iff]
  have hforced : forced.eraseDups = [] ↔ forced = [] := by
    simp only [List.eq_nil_iff_forall_not_mem, List.mem_eraseDups]
  rw [hforced, List.zipIdx_eq_nil_iff]

end Group.Assigns

/-- A group can be counted when it has a suffix, and no count of it is to be the only one. -/
theorem Group.count_succeeds_iff {group : Group} :
    (∃ count g, group.count once = (.ok count, g)) ↔ group.values.isEmpty = false ∧
      group.sole = false ∧ (once = true → group.counts = 0) := by
  unfold count
  by_cases hcounts : group.counts = 0
  · cases group.values.isEmpty <;> cases group.sole <;> simp [hcounts]
  · cases group.values.isEmpty <;> cases group.sole <;> cases once <;>
      simp [hcounts, Nat.pos_of_ne_zero hcounts]

/-- After a count, the group knows whether that count was to be the only one. -/
theorem Group.sole_of_count_eq_ok {group group' : Group} {count : Count}
    (h : group.count once = (.ok count, group')) : group'.sole = once := by
  unfold Group.count at h
  split at h
  · simp at h
  · split at h
    · simp at h
    · exact (Prod.mk.inj h).2 ▸ rfl

/-- A reference does not change whether a count was to be the only one. -/
theorem Group.sole_of_refer_eq_ok {group group' : Group} {id : Nat}
    (h : group.refer suffix = (.ok id, group')) : group'.sole = group.sole := by
  unfold refer at h
  split at h
  · exact (Prod.mk.inj h).2 ▸ rfl
  · split at h
    · exact (Prod.mk.inj h).2 ▸ rfl
    · simp at h

end JsfxSugar.Enumeration
