import JsfxSugar.Enumeration.Group
import JsfxSugar.Proofs.FirstSeen

/-! The ids of one enumeration: forced values as they are given, and the other suffixes numbered on
above them in the order in which they are first seen. -/

namespace JsfxSugar.Enumeration

/-- The first id that lies above all forced values. -/
def floor (forced : List (Text × Nat)) : Nat :=
  match (forced.map (·.2)).max? with
  | none => 0
  | some largest => 1 + largest

/-- The suffixes on which no value is forced, each once, in the order in which they are first
seen. -/
def leftOver (forced : List (Text × Nat)) (seen : List Text) : List Text :=
  (seen.filter (· ∉ forced.map (·.1))).eraseDups

/-- The id of a suffix, where `unforced` are the suffixes without a forced value in their order. -/
def idOf (forced : List (Text × Nat)) (unforced : List Text) (suffix : Text) : Nat :=
  match forced.lookup suffix with
  | some value => value
  | none => floor forced + unforced.idxOf suffix

variable {forced : List (Text × Nat)} {unforced : List Text} {suffix other : Text} {value id : Nat}

theorem floor_concat (forced : List (Text × Nat)) (suffix : Text) (value : Nat) :
    floor (forced ++ [(suffix, value)]) = max (floor forced) (value + 1) := by
  cases forced with
  | nil => simp [floor, Nat.add_comm]
  | cons entry forced =>
    simp only [floor, List.cons_append, List.map_cons, List.map_append, List.map_nil,
      List.max?_cons', List.foldl_append, List.foldl_cons, List.foldl_nil]
    omega

theorem lt_floor (h : (suffix, value) ∈ forced) : value < floor forced := by
  have hmem : value ∈ forced.map (·.2) := List.mem_map_of_mem h
  unfold floor
  split
  · rename_i hnone
    simp [List.max?_eq_none_iff.mp hnone] at hmem
  · rename_i largest hlargest
    have hle := (List.max?_eq_some_iff.mp hlargest).2 value hmem
    omega

theorem leftOver_concat (forced : List (Text × Nat)) (seen : List Text) (suffix : Text) :
    leftOver forced (seen ++ [suffix]) = leftOver forced seen ++
      if suffix ∈ forced.map (·.1) ∨ suffix ∈ leftOver forced seen then [] else [suffix] := by
  unfold leftOver
  by_cases h : suffix ∈ forced.map (·.1)
  · rw [List.filter_append, List.filter_singleton]
    simp [h]
  · have hone : [suffix].filter (· ∉ forced.map (·.1)) = [suffix] := by simp [h]
    rw [List.filter_append, hone, eraseDups_concat]
    simp only [h, false_or]

/-- Every suffix that is seen has a forced value or is left over. -/
theorem mem_leftOver (forced : List (Text × Nat)) {seen : List Text} (h : suffix ∈ seen) :
    suffix ∈ forced.map (·.1) ∨ suffix ∈ leftOver forced seen := by
  by_cases hforced : suffix ∈ forced.map (·.1)
  · exact Or.inl hforced
  · refine Or.inr (List.mem_eraseDups.mpr (List.mem_filter.mpr ⟨h, ?_⟩))
    exact decide_eq_true hforced

theorem leftOver_isPrefix (forced : List (Text × Nat)) {before seen : List Text}
    (h : before <+: seen) : leftOver forced before <+: leftOver forced seen :=
  eraseDups_isPrefix (h.filter _)

/-- Suffixes that are seen later do not change the id of a suffix. -/
theorem idOf_eq_of_isPrefix {before seen : List Text} (h : before <+: seen)
    (hsuffix : suffix ∈ before) :
    idOf forced (leftOver forced before) suffix = idOf forced (leftOver forced seen) suffix := by
  unfold idOf
  cases hlookup : forced.lookup suffix with
  | some value => rfl
  | none =>
    rcases mem_leftOver forced hsuffix with hforced | hleft
    · obtain ⟨entry, hentry, rfl⟩ := List.mem_map.mp hforced
      simpa using List.lookup_eq_none_iff.mp hlookup entry hentry
    · obtain ⟨rest, hrest⟩ := leftOver_isPrefix forced h
      rw [← hrest, List.idxOf_append_of_mem hleft]

namespace Group

/-- The group holds these forced values and, numbered on above them, these other suffixes. -/
structure Assigns (group : Group) (forced : List (Text × Nat)) (unforced : List Text) : Prop where
  entries_eq : group.values.entries = forced.eraseDups ++ unforced.zipIdx (floor forced)
  next_eq : group.counter.next = floor forced + unforced.length
  forced_iff : ∀ {value suffix}, group.forced[value]? = some suffix ↔ (suffix, value) ∈ forced

theorem assigns_new (name : Text) : Assigns { name } [] [] where
  entries_eq := rfl
  next_eq := rfl
  forced_iff := by simp

variable {group group' : Group}

theorem conflict?_eq_none_iff : group.conflict? suffix value = none ↔
    (∀ other, group.forced[value]? = some other → other = suffix) ∧
      ∀ id, group.id? suffix = some id → id = value := by
  unfold conflict? otherSuffix? otherId?
  cases group.forced[value]? <;> cases group.id? suffix <;> grind

theorem group_of_force_eq_ok (h : group.force suffix value = (.ok (), group')) :
    ∃ hlimit : value < Counter.limit,
      (∀ other, group.forced[value]? = some other → other = suffix) ∧
      (∀ id, group.id? suffix = some id → id = value) ∧
      group' = { group with
        counter := group.counter.skipTo (value + 1) hlimit
        values := group.values.add suffix value
        forced := group.forced.insert value suffix } := by
  unfold force at h
  split at h
  · rename_i hlimit
    simp only at h
    split at h
    · simp at h
    · rename_i hnone
      obtain ⟨hsuffix, hid⟩ := conflict?_eq_none_iff.mp hnone
      exact ⟨hlimit, hsuffix, hid, (Prod.mk.inj h).2.symm⟩
  · simp at h

namespace Assigns

theorem id?_eq_some_iff (h : group.Assigns forced unforced) :
    group.id? suffix = some id ↔ (suffix, id) ∈ forced ∨
      floor forced ≤ id ∧ unforced[id - floor forced]? = some suffix := by
  have hentry : (suffix, id) ∈ group.values.entries ↔ group.id? suffix = some id :=
    Roster.mem_entries_iff
  rw [← hentry, h.entries_eq, List.mem_append, List.mem_eraseDups,
    List.mk_mem_zipIdx_iff_le_and_getElem?_sub]

theorem id?_of_mem_unforced (h : group.Assigns forced unforced) (hmem : suffix ∈ unforced) :
    group.id? suffix = some (floor forced + unforced.idxOf suffix) := by
  rw [h.id?_eq_some_iff, Nat.add_sub_cancel_left]
  exact Or.inr ⟨by omega, List.getElem?_idxOf hmem⟩

theorem isSome_id?_iff (h : group.Assigns forced unforced) :
    (group.id? suffix).isSome ↔ suffix ∈ forced.map (·.1) ∨ suffix ∈ unforced := by
  constructor
  · intro hsome
    obtain ⟨id, hid⟩ := Option.isSome_iff_exists.mp hsome
    rcases h.id?_eq_some_iff.mp hid with hmem | ⟨-, hget⟩
    · exact Or.inl (List.mem_map_of_mem hmem)
    · exact Or.inr (List.mem_of_getElem? hget)
  · rintro (hmem | hmem)
    · obtain ⟨⟨suffix, value⟩, hentry, rfl⟩ := List.mem_map.mp hmem
      simp [h.id?_eq_some_iff.mpr (Or.inl hentry)]
    · simp [h.id?_of_mem_unforced hmem]

/-- The id that a suffix has is the one that is due to it. -/
theorem eq_idOf (h : group.Assigns forced unforced) (hid : group.id? suffix = some id) :
    id = idOf forced unforced suffix := by
  unfold idOf
  cases hlookup : forced.lookup suffix with
  | some value =>
    obtain ⟨front, back, rfl, -⟩ := List.lookup_eq_some_iff.mp hlookup
    have hvalue := h.id?_eq_some_iff.mpr (Or.inl (List.mem_append_right front List.mem_cons_self))
    exact Option.some.inj (hid.symm.trans hvalue)
  | none =>
    rcases h.id?_eq_some_iff.mp hid with hmem | ⟨-, hget⟩
    · simpa using List.lookup_eq_none_iff.mp hlookup _ hmem
    · have hvalue := h.id?_of_mem_unforced (List.mem_of_getElem? hget)
      exact Option.some.inj (hid.symm.trans hvalue)

/-- Every id lies below the total. -/
theorem lt_total (h : group.Assigns forced unforced) (hid : group.id? suffix = some id) :
    id < group.total := by
  have hnext : group.total = floor forced + unforced.length := h.next_eq
  rcases h.id?_eq_some_iff.mp hid with hmem | ⟨hle, hget⟩
  · have hlt := lt_floor hmem
    omega
  · have hlt := (List.getElem?_eq_some_iff.mp hget).1
    omega

/-- Forcing a value enters it, and raises the counter above it. -/
theorem force_eq_ok (h : group.Assigns forced [])
    (hforce : group.force suffix value = (.ok (), group')) :
    group'.Assigns (forced ++ [(suffix, value)]) [] ∧ group'.counts = group.counts := by
  obtain ⟨hlimit, hsuffix, hid, rfl⟩ := group_of_force_eq_ok hforce
  refine ⟨⟨?_, ?_, ?_⟩, rfl⟩
  · have hentries : group.values.entries = forced.eraseDups := by simpa using h.entries_eq
    rw [List.zipIdx_nil, List.append_nil, eraseDups_concat, ← hentries]
    cases hold : group.id? suffix with
    -- The same value was forced on the suffix before.
    | some id =>
      obtain rfl := hid id hold
      have hmem : (suffix, id) ∈ group.values.entries := Roster.mem_entries_iff.mpr hold
      have hsome : (group.values.id? suffix).isSome := Option.isSome_of_eq_some hold
      rw [if_pos hmem, List.append_nil, Roster.add_of_isSome_id? id hsome]
    | none =>
      have hmem : (suffix, value) ∉ group.values.entries := by
        intro hmem
        have hsome : group.id? suffix = some value := Roster.mem_entries_iff.mp hmem
        simp [hold] at hsome
      rw [if_neg hmem]
      exact Roster.entries_add_of_id?_eq_none value hold
  · have hnext := h.next_eq
    rw [floor_concat]
    simpa [Counter.skipTo] using congrArg (max · (value + 1)) hnext
  · intro v s
    simp only [Std.ExtTreeMap.getElem?_insert, Std.compare_eq_iff_eq]
    split
    · rename_i heq
      subst heq
      simp only [Option.some.injEq, List.mem_append, List.mem_singleton, Prod.mk.injEq]
      constructor
      · rintro rfl
        exact Or.inr ⟨rfl, trivial⟩
      · rintro (hmem | ⟨rfl, -⟩)
        · exact (hsuffix s (h.forced_iff.mpr hmem)).symm
        · rfl
    · rename_i hne
      rw [h.forced_iff]
      simp [Ne.symm hne]

/-- A reference enters a suffix that is new, and answers with the id of the suffix. -/
theorem refer_eq_ok (h : group.Assigns forced unforced)
    (hrefer : group.refer suffix = (.ok id, group')) :
    group'.Assigns forced (unforced ++
      if suffix ∈ forced.map (·.1) ∨ suffix ∈ unforced then [] else [suffix]) ∧
    group'.id? suffix = some id ∧ group'.counts = group.counts := by
  unfold refer at hrefer
  cases hold : group.id? suffix with
  | some old =>
    have hknown := h.isSome_id?_iff.mp (Option.isSome_of_eq_some hold)
    simp only [hold, Prod.mk.injEq, Except.ok.injEq] at hrefer
    obtain ⟨rfl, rfl⟩ := hrefer
    rw [if_pos hknown, List.append_nil]
    exact ⟨h, hold, rfl⟩
  | none =>
    have hnew : ¬ (suffix ∈ forced.map (·.1) ∨ suffix ∈ unforced) := by
      rw [← h.isSome_id?_iff, hold]
      simp
    rw [if_neg hnew]
    simp only [hold] at hrefer
    unfold Counter.take? at hrefer
    split at hrefer
    · rename_i taken counter htake
      split at htake
      · simp only [Option.some.injEq, Prod.mk.injEq] at htake hrefer
        obtain ⟨rfl, rfl⟩ := htake
        obtain ⟨hid, rfl⟩ := hrefer
        obtain rfl := Except.ok.inj hid
        refine ⟨⟨?_, ?_, h.forced_iff⟩, ?_, rfl⟩
        · rw [Roster.entries_add_of_id?_eq_none _ hold, h.entries_eq, List.zipIdx_append,
            h.next_eq, List.append_assoc]
          rfl
        · have hnext := h.next_eq
          simp only [Counter.ofNext, List.length_append, List.length_singleton]
          omega
        · have hroster : group.values.id? suffix = none := hold
          rw [id?, Roster.id?_add, if_pos rfl, hroster, Option.none_or]
      · simp at htake
    · simp at hrefer

theorem suffixes_eq (h : group.Assigns forced unforced) :
    group.suffixes = forced.eraseDups.map (·.1) ++ unforced := by
  rw [suffixes, Roster.names, h.entries_eq, List.map_append, List.zipIdx_map_fst]

/-- A count shows the total, and is the first one when the group had none before. -/
theorem count_eq_ok (h : group.Assigns forced unforced) {once : Bool} {count : Count}
    (hcount : group.count once = (.ok count, group')) :
    count.total = floor forced + unforced.length ∧ (count.first = true ↔ group.counts = 0) ∧
      group'.Assigns forced unforced ∧ group'.counts = group.counts + 1 := by
  unfold Group.count at hcount
  split at hcount
  · simp at hcount
  · split at hcount
    · simp at hcount
    · simp only [Prod.mk.injEq, Except.ok.injEq] at hcount
      obtain ⟨rfl, rfl⟩ := hcount
      exact ⟨h.next_eq, by simp, ⟨h.entries_eq, h.next_eq, h.forced_iff⟩, rfl⟩

end Assigns

end Group

end JsfxSugar.Enumeration
