import JsfxSugar.Enumeration.Numbering
import JsfxSugar.Proofs.Enumeration.Assignment
import JsfxSugar.Proofs.Substitution

/-! The three passes over a source: what the groups hold after each of them, and what is written. -/

namespace JsfxSugar.Enumeration

/-- The text once the forced values are taken off. -/
def released (t : Text) : Text :=
  Forcing.pattern.substitute (fun m => m.reference.source) t

/-- What the markers of a source say of its enumerations. -/
structure Usage where
  forcings : List Forcing
  references : List Reference

namespace Usage

def ofText (t : Text) : Usage where
  forcings := Forcing.pattern.hits t
  references := Reference.pattern.hits (released t)

variable (u : Usage) (name : Text)

/-- The suffixes of a group on which values are forced, with these values. -/
def forced : List (Text × Nat) :=
  (u.forcings.filter (·.group = name)).map fun m => (m.suffix, Text.toNat m.literal)

/-- The suffixes in the references to a group, in their order. -/
def referenced : List Text :=
  (u.references.filter (·.group = name)).map (·.suffix)

/-- The suffixes of a group that are referenced, but have no forced value. -/
def unforced : List Text :=
  leftOver (u.forced name) (u.referenced name)

def total : Nat :=
  floor (u.forced name) + (u.unforced name).length

/-- All suffixes of a group, those with forced values first. -/
def suffixes : List Text :=
  (u.forced name).eraseDups.map (·.1) ++ u.unforced name

/-- What is written for a reference. -/
def numbered (m : Reference) : Text :=
  Text.ofNat (idOf (u.forced m.group) (u.unforced m.group) m.suffix) ++
    Text.comment (m.group ++ [':'] ++ m.suffix)

/-- What is written for a count, when others were written before it. -/
def counted (seen : List Counting) (m : Counting) : Text :=
  let list :=
    if ∃ other ∈ seen, other.group = m.group then []
    else ": ".toList ++ Text.join ", ".toList (u.suffixes m.group)
  Text.ofNat (u.total m.group) ++ Text.comment (m.group ++ list)

end Usage

variable {forcings : List Forcing} {references before : List Reference} {name other : Text}

namespace Usage

theorem forced_concat (forcings : List Forcing) (m : Forcing) (name : Text) :
    Usage.forced ⟨forcings ++ [m], references⟩ name =
      Usage.forced ⟨forcings, references⟩ name ++
        if m.group = name then [(m.suffix, Text.toNat m.literal)] else [] := by
  by_cases h : m.group = name <;> simp [forced, h]

theorem referenced_concat (references : List Reference) (m : Reference) (name : Text) :
    Usage.referenced ⟨forcings, references ++ [m]⟩ name =
      Usage.referenced ⟨forcings, references⟩ name ++
        if m.group = name then [m.suffix] else [] := by
  by_cases h : m.group = name <;> simp [referenced, h]

/-- Later references do not change what is written for a reference. -/
theorem numbered_eq_of_isPrefix {m : Reference} (h : before ++ [m] <+: references) :
    Usage.numbered ⟨forcings, before ++ [m]⟩ m = Usage.numbered ⟨forcings, references⟩ m := by
  have hprefix := (h.filter (·.group = m.group)).map (·.suffix)
  have hmem : m.suffix ∈ ((before ++ [m]).filter (·.group = m.group)).map (·.suffix) := by simp
  unfold numbered unforced
  exact congrArg (Text.ofNat · ++ _) (idOf_eq_of_isPrefix hprefix hmem)

end Usage

namespace Table

variable {α : Type} {table table' : Table} {g : Group} {a : α}

theorem group_insert :
    Table.group (table.insert name g) other = if other = name then g else table.group other := by
  unfold group
  simp only [Std.ExtTreeMap.getD_insert, Std.compare_eq_iff_eq, @eq_comm _ name]

theorem attempt_eq_ok {use : Group → Except Fault α × Group}
    (h : table.attempt name use = .ok (a, table')) :
    ∃ g, use (table.group name) = (.ok a, g) ∧ table' = table.insert name g := by
  unfold attempt at h
  cases hresult : (use (table.group name)).1 with
  | error fault => simp [hresult, Except.map] at h
  | ok b =>
    simp only [hresult, Except.map, Except.ok.injEq, Prod.mk.injEq] at h
    obtain ⟨rfl, rfl⟩ := h
    exact ⟨_, Prod.ext hresult rfl, rfl⟩

theorem bindForcing_eq_ok {m : Forcing} {text : Text}
    (h : bindForcing m table = .ok (text, table')) :
    ∃ g, (table.group m.group).force m.suffix (Text.toNat m.literal) = (.ok (), g) ∧
      text = m.reference.source ∧ table' = table.insert m.group g := by
  unfold bindForcing at h
  rw [Text.toNatUpTo?_eq] at h
  by_cases hlimit : Text.toNat m.literal ≤ Counter.limit
  · simp only [hlimit, if_true] at h
    obtain ⟨⟨done, table₁⟩, hattempt, hok⟩ := bind_eq_ok_iff.mp h
    obtain ⟨rfl, rfl⟩ := Prod.mk.inj (Except.ok.inj hok)
    obtain ⟨g, hforce, rfl⟩ := attempt_eq_ok hattempt
    exact ⟨g, hforce, rfl, rfl⟩
  · simp only [hlimit, if_false] at h
    cases h

theorem numberReference_eq_ok {m : Reference} {text : Text}
    (h : numberReference m table = .ok (text, table')) :
    ∃ id g, (table.group m.group).refer m.suffix = (.ok id, g) ∧
      text = Text.ofNat id ++ Text.comment (m.group ++ [':'] ++ m.suffix) ∧
      table' = table.insert m.group g := by
  obtain ⟨⟨id, table₁⟩, hattempt, hok⟩ := bind_eq_ok_iff.mp h
  obtain ⟨rfl, rfl⟩ := Prod.mk.inj (Except.ok.inj hok)
  obtain ⟨g, hrefer, rfl⟩ := attempt_eq_ok hattempt
  exact ⟨id, g, hrefer, rfl, rfl⟩

theorem showCount_eq_ok {m : Counting} {text : Text}
    (h : showCount m table = .ok (text, table')) :
    ∃ count g, (table.group m.group).count m.once = (.ok count, g) ∧
      text = Text.ofNat count.total ++ Text.comment (m.group ++
        if count.first then ": ".toList ++ Text.join ", ".toList g.suffixes else []) ∧
      table' = table.insert m.group g := by
  obtain ⟨⟨count, table₁⟩, hattempt, hok⟩ := bind_eq_ok_iff.mp h
  obtain ⟨rfl, rfl⟩ := Prod.mk.inj (Except.ok.inj hok)
  obtain ⟨g, hcount, rfl⟩ := attempt_eq_ok hattempt
  refine ⟨count, g, hcount, ?_, rfl⟩
  simp only [group_insert, if_true]

/-- The groups hold what the markers read so far say of them. -/
def Follows (table : Table) (u : Usage) (counts : List Counting) : Prop :=
  ∀ name, (table.group name).Assigns (u.forced name) (u.unforced name) ∧
    (table.group name).counts = (counts.filter (·.group = name)).length

namespace Follows

variable {u : Usage} {counts : List Counting} {text : Text}

theorem empty : Follows ∅ ⟨[], []⟩ [] := fun name => ⟨Group.assigns_new name, rfl⟩

/-- A group that is used goes on, and the others stay as they are. -/
theorem insert {u' : Usage} {counts' : List Counting} (h : table.Follows u counts)
    (hforced : ∀ other, other ≠ name → u'.forced other = u.forced other)
    (hreferenced : ∀ other, other ≠ name → u'.referenced other = u.referenced other)
    (hcounts : ∀ other, other ≠ name →
      counts'.filter (·.group = other) = counts.filter (·.group = other))
    (hname : g.Assigns (u'.forced name) (u'.unforced name) ∧
      g.counts = (counts'.filter (·.group = name)).length) :
    Follows (table.insert name g) u' counts' := by
  intro other
  rw [group_insert]
  split
  · rename_i heq
    rw [heq]
    exact hname
  · rename_i hne
    rw [Usage.unforced, hforced other hne, hreferenced other hne, hcounts other hne]
    exact h other

theorem bindForcing {m : Forcing} (h : table.Follows ⟨forcings, []⟩ [])
    (hok : bindForcing m table = .ok (text, table')) :
    text = m.reference.source ∧ table'.Follows ⟨forcings ++ [m], []⟩ [] := by
  obtain ⟨g, hforce, rfl, rfl⟩ := bindForcing_eq_ok hok
  obtain ⟨hassigns, hcounts⟩ := h m.group
  obtain ⟨hassigns', hcounts'⟩ := hassigns.force_eq_ok hforce
  refine ⟨rfl, h.insert ?_ (fun _ _ => rfl) (fun _ _ => rfl) ⟨?_, hcounts'.trans hcounts⟩⟩
  · intro other hne
    rw [Usage.forced_concat, if_neg (Ne.symm hne), List.append_nil]
  · rw [Usage.forced_concat, if_pos rfl]
    exact hassigns'

theorem numberReference {m : Reference} (h : table.Follows ⟨forcings, references⟩ [])
    (hok : numberReference m table = .ok (text, table')) :
    text = Usage.numbered ⟨forcings, references ++ [m]⟩ m ∧
      table'.Follows ⟨forcings, references ++ [m]⟩ [] := by
  obtain ⟨id, g, hrefer, rfl, rfl⟩ := numberReference_eq_ok hok
  obtain ⟨hassigns, hcounts⟩ := h m.group
  obtain ⟨hassigns', hid, hcounts'⟩ := hassigns.refer_eq_ok hrefer
  have hunforced : g.Assigns (Usage.forced ⟨forcings, references ++ [m]⟩ m.group)
      (Usage.unforced ⟨forcings, references ++ [m]⟩ m.group) := by
    rw [Usage.unforced, Usage.referenced_concat, if_pos rfl, leftOver_concat]
    exact hassigns'
  refine ⟨?_, h.insert (fun _ _ => rfl) ?_ (fun _ _ => rfl) ⟨hunforced, hcounts'.trans hcounts⟩⟩
  · rw [Usage.numbered, hunforced.eq_idOf hid]
  · intro other hne
    rw [Usage.referenced_concat, if_neg (Ne.symm hne), List.append_nil]

theorem showCount {m : Counting} (h : table.Follows u counts)
    (hok : showCount m table = .ok (text, table')) :
    text = u.counted counts m ∧ table'.Follows u (counts ++ [m]) := by
  obtain ⟨count, g, hcount, rfl, rfl⟩ := showCount_eq_ok hok
  obtain ⟨hassigns, hcounts⟩ := h m.group
  obtain ⟨htotal, hfirst, hassigns', hcounts'⟩ := hassigns.count_eq_ok hcount
  refine ⟨?_, h.insert (fun _ _ => rfl) (fun _ _ => rfl) ?_ ⟨hassigns', ?_⟩⟩
  · have hseen : count.first = true ↔ ¬ ∃ other ∈ counts, other.group = m.group := by
      rw [hfirst, hcounts]
      simp
    rw [Usage.counted, htotal, hassigns'.suffixes_eq]
    by_cases hother : ∃ other ∈ counts, other.group = m.group
    · have hnot : ¬ count.first = true := fun h => hseen.mp h hother
      rw [if_pos hother, if_neg hnot]
      rfl
    · rw [if_neg hother, if_pos (hseen.mpr hother)]
      rfl
  · intro other hne
    simp [Ne.symm hne]
  · rw [hcounts', hcounts]
    simp

/-- A group in which a suffix has an id stands in the table. -/
theorem getElem?_eq_some {suffix : Text} (h : ((table.group name).id? suffix).isSome) :
    table[name]? = some (table.group name) := by
  unfold group at h ⊢
  rw [Std.ExtTreeMap.getD_eq_getD_getElem?] at h ⊢
  cases hgroup : table[name]? with
  | some group => rfl
  | none =>
    rw [hgroup, Option.getD_none] at h
    have hmem := (Group.assigns_new name).isSome_id?_iff.mp h
    simp at hmem

end Follows

end Table

/-- The text with its references numbered. -/
def Usage.referenceText (u : Usage) (t : Text) : Text :=
  Reference.pattern.substitute u.numbered (released t)

namespace Table.Follows

variable {t v : Text} {table table' : Table}

/-- The first pass takes the forced values off and binds them. -/
theorem resolve_forcings (h : Forcing.pattern.resolve Enumeration.bindForcing t ∅ = .ok (v, table)) :
    v = released t ∧ table.Follows ⟨Forcing.pattern.hits t, []⟩ [] := by
  obtain ⟨rfl, hfollows⟩ := Pattern.resolve_eq_ok
    (fun forcings table => Table.Follows table ⟨forcings, []⟩ [])
    (fun _ m => m.reference.source) Table.Follows.bindForcing Table.Follows.empty h
  exact ⟨Pattern.substituteAfter_eq_substitute fun _ _ _ => rfl, hfollows⟩

/-- The second pass numbers the references. -/
theorem resolve_references (hfollows : table.Follows ⟨Forcing.pattern.hits t, []⟩ [])
    (h : Reference.pattern.resolve Enumeration.numberReference (released t) table =
      .ok (v, table')) :
    v = (Usage.ofText t).referenceText t ∧ table'.Follows (Usage.ofText t) [] := by
  obtain ⟨rfl, hfollows'⟩ := Pattern.resolve_eq_ok
    (fun references table => Table.Follows table ⟨Forcing.pattern.hits t, references⟩ [])
    (fun before m => Usage.numbered ⟨Forcing.pattern.hits t, before ++ [m]⟩ m)
    Table.Follows.numberReference hfollows h
  exact ⟨Pattern.substituteAfter_eq_substitute fun _ _ => Usage.numbered_eq_of_isPrefix, hfollows'⟩

end Table.Follows

/-- A source is numbered by three passes, each on what the one before it leaves. -/
theorem number_eq_ok_iff_passes {t : Text} {n : Numbering} : number t = .ok n ↔
    ∃ t₁ table₁ t₂ table₂, Forcing.pattern.resolve bindForcing t ∅ = .ok (t₁, table₁) ∧
      Reference.pattern.resolve numberReference t₁ table₁ = .ok (t₂, table₂) ∧
      Counting.pattern.resolve showCount t₂ table₂ = .ok (n.text, n.table) := by
  constructor
  · intro h
    obtain ⟨⟨t₁, table₁⟩, hforcings, h⟩ := bind_eq_ok_iff.mp h
    obtain ⟨⟨t₂, table₂⟩, hreferences, h⟩ := bind_eq_ok_iff.mp h
    obtain ⟨⟨t₃, table₃⟩, hcounts, h⟩ := bind_eq_ok_iff.mp h
    obtain rfl := Except.ok.inj h
    exact ⟨t₁, table₁, t₂, table₂, hforcings, hreferences, hcounts⟩
  · rintro ⟨t₁, table₁, t₂, table₂, hforcings, hreferences, hcounts⟩
    exact bind_eq_ok_iff.mpr ⟨_, hforcings, bind_eq_ok_iff.mpr ⟨_, hreferences,
      bind_eq_ok_iff.mpr ⟨_, hcounts, rfl⟩⟩⟩

/-- Numbering a source writes for each marker what all markers of the source say of its group, and so
do the groups in the end. -/
theorem number_eq_ok {t : Text} {n : Numbering} (h : number t = .ok n) :
    let u := Usage.ofText t
    n.text = Counting.pattern.substituteAfter u.counted [] (u.referenceText t) ∧
      n.table.Follows u (Counting.pattern.hits (u.referenceText t)) := by
  obtain ⟨t₁, table₁, t₂, table₂, hforcings, hreferences, hcounts⟩ := number_eq_ok_iff_passes.mp h
  obtain ⟨rfl, hfollows₁⟩ := Table.Follows.resolve_forcings hforcings
  obtain ⟨rfl, hfollows₂⟩ := hfollows₁.resolve_references hreferences
  exact Pattern.resolve_eq_ok (fun counts table => Table.Follows table (Usage.ofText t) counts)
    (Usage.ofText t).counted Table.Follows.showCount hfollows₂ hcounts

/-- A suffix that is referenced has an id. -/
theorem Table.Follows.isSome_id? {table : Table} {u : Usage} {counts : List Counting}
    (h : table.Follows u counts) {m : Reference} (hm : m ∈ u.references) :
    ((table.group m.group).id? m.suffix).isSome := by
  have hreferenced : m.suffix ∈ u.referenced m.group :=
    List.mem_map_of_mem (List.mem_filter.mpr ⟨hm, by simp⟩)
  exact (h m.group).1.isSome_id?_iff.mpr (mem_leftOver (u.forced m.group) hreferenced)

end JsfxSugar.Enumeration
