import JsfxSugar.NameTable

/-! Rosters: names with their ids, in the order in which they were entered. -/

namespace JsfxSugar

/-- Names with their ids, each name once. The index answers for a name without a walk through the
others. -/
structure Roster where
  /-- The entries, the last one first. -/
  latest : List (Text × Nat)
  index : NameTable Nat
  distinct : (latest.map (·.1)).Nodup
  index_eq_lookup : ∀ name, index[name]? = latest.lookup name

namespace Roster

def empty : Roster where
  latest := []
  index := ∅
  distinct := .nil
  index_eq_lookup _ := Std.ExtTreeMap.getElem?_empty

instance : EmptyCollection Roster := ⟨empty⟩

variable (roster : Roster) (name : Text) (id : Nat)

/-- The entries in their order. -/
def entries : List (Text × Nat) :=
  roster.latest.reverse

/-- The names in their order. -/
def names : List Text :=
  roster.entries.map (·.1)

def isEmpty : Bool :=
  roster.latest.isEmpty

def id? : Option Nat :=
  roster.index[name]?

/-- The roster with a name entered at the end. A name that it has already keeps its id. -/
def add : Roster :=
  if h : name ∈ roster.index then roster
  else {
    latest := (name, id) :: roster.latest
    index := roster.index.insert name id
    distinct := by
      have hnone := roster.index_eq_lookup name
      rw [Std.ExtTreeMap.getElem?_eq_none h, eq_comm, List.lookup_eq_none_iff] at hnone
      refine List.nodup_cons.mpr ⟨fun hmem => ?_, roster.distinct⟩
      obtain ⟨entry, hentry, heq⟩ := List.mem_map.mp hmem
      simpa [heq] using hnone entry hentry
    index_eq_lookup := fun other => by
      rw [NameTable.getElem?_insert, roster.index_eq_lookup, List.lookup_cons]
      by_cases hother : other = name
      · simp [hother]
      · simp [hother, beq_eq_false_iff_ne.mpr hother] }

@[simp] theorem id?_empty : (∅ : Roster).id? name = none :=
  Std.ExtTreeMap.getElem?_empty

variable {roster name}

theorem not_mem_index_of_id?_eq_none (h : roster.id? name = none) : name ∉ roster.index :=
  fun hmem => by simp [id?, Std.ExtTreeMap.getElem?_eq_some_getElem hmem] at h

theorem add_of_isSome_id? (h : (roster.id? name).isSome) : roster.add name id = roster := by
  simp [add, Std.ExtTreeMap.isSome_getElem?_iff_mem.mp h]

theorem entries_add_of_id?_eq_none (h : roster.id? name = none) :
    (roster.add name id).entries = roster.entries ++ [(name, id)] := by
  simp [add, not_mem_index_of_id?_eq_none h, entries]

theorem id?_add (other : Text) :
    (roster.add name id).id? other =
      if other = name then (roster.id? name).or (some id) else roster.id? other := by
  cases h : roster.id? name with
  | some old =>
    rw [add_of_isSome_id? id (by simp [h])]
    by_cases hother : other = name <;> simp [hother, h]
  | none => simp [add, not_mem_index_of_id?_eq_none h, id?, NameTable.getElem?_insert]

theorem nodup_names (roster : Roster) : roster.names.Nodup := by
  simpa [names, entries, List.nodup_iff_pairwise_ne, List.pairwise_reverse, ne_comm]
    using roster.distinct

theorem mem_entries_iff {entry : Text × Nat} :
    entry ∈ roster.entries ↔ roster.id? entry.1 = some entry.2 := by
  rw [id?, index_eq_lookup, entries, List.mem_reverse]
  have h := roster.distinct
  generalize roster.latest = entries at h
  induction entries with
  | nil => simp
  | cons head rest ih =>
    obtain ⟨first, id⟩ := head
    obtain ⟨hfirst, hrest⟩ := List.nodup_cons.mp h
    simp only [List.mem_cons, ih hrest, List.lookup_cons]
    by_cases heq : entry.1 = first
    · have hnone : rest.lookup first = none := by
        rw [List.lookup_eq_none_iff]
        intro other hother
        simpa using fun hfst : first = other.1 =>
          hfirst (List.mem_map.mpr ⟨other, hother, hfst.symm⟩)
      simp [heq, hnone, Prod.ext_iff, eq_comm]
    · simp [heq, beq_eq_false_iff_ne.mpr heq, Prod.ext_iff]

/-- The names are just those that have an id. -/
theorem mem_names_iff : name ∈ roster.names ↔ (roster.id? name).isSome := by
  rw [names, List.mem_map, Option.isSome_iff_exists]
  constructor
  · rintro ⟨entry, hentry, rfl⟩
    exact ⟨entry.2, mem_entries_iff.mp hentry⟩
  · rintro ⟨id, hid⟩
    exact ⟨(name, id), mem_entries_iff.mpr hid, rfl⟩

/-- A roster is known by its entries. -/
theorem eq_of_entries_eq {first second : Roster} (h : first.entries = second.entries) :
    first = second := by
  obtain ⟨latest, index, _, hindex⟩ := first
  obtain ⟨latest', index', _, hindex'⟩ := second
  obtain rfl : latest = latest' := List.reverse_inj.mp h
  obtain rfl : index = index' :=
    Std.ExtTreeMap.ext_getElem? fun name => by rw [hindex, hindex']
  rfl

end Roster

end JsfxSugar
