import JsfxSugar.Proofs.Enumeration.Passes
import JsfxSugar.Proofs.Enumeration.Uses

/-! Which sources can be numbered: the forced values fit and do not contradict each other, every total
fits, and every count names a group that has a suffix, where a count that is to be the only one of its
group is so. None of this depends on the order in which the markers stand. -/

namespace JsfxSugar.Enumeration

/-- Two counts that can stand in one source. -/
def Counting.Compatible (c d : Counting) : Prop :=
  c.group = d.group → c.once = false ∧ d.once = false

/-- The counts of a source, as they stand once its references are numbered. -/
def countsOf (t : Text) : List Counting :=
  Counting.pattern.hits ((Usage.ofText t).referenceText t)

/-- What the markers of a source must be like for it to be numbered. -/
structure Usage.Accepted (u : Usage) (counts : List Counting) : Prop where
  below_limit : ∀ m ∈ u.forcings, Text.toNat m.literal < Counter.limit
  oneToOne : ∀ name, OneToOne (u.forced name)
  total_le : ∀ name, floor (u.forced name) + (u.unforced name).length ≤ Counter.limit
  known : ∀ c ∈ counts, (∃ m ∈ u.forcings, m.group = c.group) ∨ ∃ m ∈ u.references, m.group = c.group
  compatible : counts.Pairwise Counting.Compatible

variable {name : Text}

theorem Usage.Accepted.compatible_last {u : Usage} {counts : List Counting} {m : Counting}
    (h : u.Accepted (counts ++ [m])) : ∀ c ∈ counts, c.Compatible m := fun c hc =>
  (List.pairwise_append.mp h.compatible).2.2 c hc m (by simp)

namespace Table

variable {α : Type} {table table' : Table} {forcings : List Forcing} {references : List Reference}
  {counts : List Counting} {u : Usage} {text : Text}

theorem attempt_of_eq_ok (use : Group → Except Fault α × Group) {a : α} {g : Group}
    (h : use (table.group name) = (.ok a, g)) :
    table.attempt name use = .ok (a, table.insert name g) := by
  simp [attempt, h, Except.map]

theorem bindForcing_succeeds_iff {m : Forcing} :
    (∃ text table', bindForcing m table = .ok (text, table')) ↔
      ∃ g, (table.group m.group).force m.suffix (Text.toNat m.literal) = (.ok (), g) := by
  constructor
  · rintro ⟨text, table', hok⟩
    obtain ⟨g, hforce, -⟩ := bindForcing_eq_ok hok
    exact ⟨g, hforce⟩
  · rintro ⟨g, hforce⟩
    obtain ⟨hlimit, -⟩ := Group.group_of_force_eq_ok hforce
    have hattempt := attempt_of_eq_ok (·.force m.suffix (Text.toNat m.literal)) hforce
    refine ⟨m.reference.source, table.insert m.group g, ?_⟩
    unfold bindForcing
    rw [Text.toNatUpTo?_eq, if_pos (Nat.le_of_lt hlimit)]
    exact bind_eq_ok_iff.mpr ⟨_, hattempt, rfl⟩

theorem numberReference_succeeds_iff {m : Reference} :
    (∃ text table', numberReference m table = .ok (text, table')) ↔
      ∃ id g, (table.group m.group).refer m.suffix = (.ok id, g) := by
  constructor
  · rintro ⟨text, table', hok⟩
    obtain ⟨id, g, hrefer, -⟩ := numberReference_eq_ok hok
    exact ⟨id, g, hrefer⟩
  · rintro ⟨id, g, hrefer⟩
    have hattempt := attempt_of_eq_ok (·.refer m.suffix) hrefer
    exact ⟨_, _, bind_eq_ok_iff.mpr ⟨_, hattempt, rfl⟩⟩

theorem showCount_succeeds_iff {m : Counting} :
    (∃ text table', showCount m table = .ok (text, table')) ↔
      ∃ count g, (table.group m.group).count m.once = (.ok count, g) := by
  constructor
  · rintro ⟨text, table', hok⟩
    obtain ⟨count, g, hcount, -⟩ := showCount_eq_ok hok
    exact ⟨count, g, hcount⟩
  · rintro ⟨count, g, hcount⟩
    have hattempt := attempt_of_eq_ok (·.count m.once) hcount
    exact ⟨_, _, bind_eq_ok_iff.mpr ⟨_, hattempt, rfl⟩⟩

namespace Follows

/-- No total is too large to be shown. -/
theorem total_le (h : table.Follows u counts) (name : Text) :
    floor (u.forced name) + (u.unforced name).length ≤ Counter.limit :=
  (h name).1.next_eq ▸ (table.group name).counter.next_le

theorem counts_eq_zero_iff (h : table.Follows u counts) :
    (table.group name).counts = 0 ↔ ∀ c ∈ counts, c.group ≠ name := by
  rw [(h name).2, List.length_eq_zero_iff, List.filter_eq_nil_iff]
  simp

/-- A group holds a suffix when a marker gives it one. -/
theorem isEmpty_values_eq_false_iff (h : table.Follows u counts) :
    (table.group name).values.isEmpty = false ↔
      (∃ m ∈ u.forcings, m.group = name) ∨ ∃ m ∈ u.references, m.group = name := by
  rw [← Bool.not_eq_true, (h name).1.isEmpty_values_iff]
  constructor
  · intro hne
    by_contra hnone
    obtain ⟨hforcings, hreferences⟩ := not_or.mp hnone
    have hforced : u.forced name = [] := by
      rw [Usage.forced, List.map_eq_nil_iff, List.filter_eq_nil_iff]
      intro m hm
      simpa using fun hgroup => hforcings ⟨m, hm, hgroup⟩
    have hreferenced : u.referenced name = [] := by
      rw [Usage.referenced, List.map_eq_nil_iff, List.filter_eq_nil_iff]
      intro m hm
      simpa using fun hgroup => hreferences ⟨m, hm, hgroup⟩
    exact hne ⟨hforced, by simp [Usage.unforced, leftOver, hreferenced]⟩
  · rintro (⟨m, hm, rfl⟩ | ⟨m, hm, rfl⟩) ⟨hforced, hunforced⟩
    · have hmem : (m.suffix, Text.toNat m.literal) ∈ u.forced m.group :=
        List.mem_map.mpr ⟨m, List.mem_filter.mpr ⟨hm, by simp⟩, rfl⟩
      simp [hforced] at hmem
    · have hmem : m.suffix ∈ u.referenced m.group :=
        List.mem_map_of_mem (List.mem_filter.mpr ⟨hm, by simp⟩)
      rcases mem_leftOver (u.forced m.group) hmem with hmem | hmem
      · simp [hforced] at hmem
      · have hmem : m.suffix ∈ u.unforced m.group := hmem
        simp [hunforced] at hmem

/-- The first pass goes on just when the next forcing fits in with those before it. -/
theorem bindForcing_succeeds_iff {m : Forcing} (h : table.Follows ⟨forcings, []⟩ [])
    (haccepted : Usage.Accepted ⟨forcings, []⟩ []) :
    (∃ text table', Enumeration.bindForcing m table = .ok (text, table')) ↔
      Usage.Accepted ⟨forcings ++ [m], []⟩ [] := by
  have hsucceeds : (∃ text table', Enumeration.bindForcing m table = .ok (text, table')) ↔
      Text.toNat m.literal < Counter.limit ∧ ∀ p ∈ Usage.forced ⟨forcings, []⟩ m.group,
        p.1 = m.suffix ↔ p.2 = Text.toNat m.literal := by
    rw [Table.bindForcing_succeeds_iff]
    exact (h m.group).1.force_succeeds_iff
  constructor
  · rintro ⟨text, table', hok⟩
    obtain ⟨hlimit, hpairs⟩ := hsucceeds.mp ⟨text, table', hok⟩
    refine ⟨?_, ?_, (h.bindForcing hok).2.total_le, by simp, .nil⟩
    · exact List.forall_mem_append.mpr ⟨haccepted.below_limit, List.forall_mem_singleton.mpr hlimit⟩
    · intro name
      rw [Usage.forced_concat]
      by_cases hname : m.group = name
      · subst hname
        rw [if_pos rfl]
        exact oneToOne_concat.mpr ⟨haccepted.oneToOne m.group, hpairs⟩
      · rw [if_neg hname, List.append_nil]
        exact haccepted.oneToOne name
  · intro hnext
    have hpairs := hnext.oneToOne m.group
    rw [Usage.forced_concat, if_pos rfl] at hpairs
    exact hsucceeds.mpr ⟨hnext.below_limit m (by simp), (oneToOne_concat.mp hpairs).2⟩

/-- The second pass goes on just when the total with the next reference can still be shown. -/
theorem numberReference_succeeds_iff {m : Reference} (h : table.Follows ⟨forcings, references⟩ [])
    (haccepted : Usage.Accepted ⟨forcings, references⟩ []) :
    (∃ text table', Enumeration.numberReference m table = .ok (text, table')) ↔
      Usage.Accepted ⟨forcings, references ++ [m]⟩ [] := by
  constructor
  · rintro ⟨text, table', hok⟩
    exact ⟨haccepted.below_limit, haccepted.oneToOne, (h.numberReference hok).2.total_le, by simp,
      .nil⟩
  · intro hnext
    have htotal := hnext.total_le m.group
    rw [Usage.unforced, Usage.referenced_concat, if_pos rfl, leftOver_concat] at htotal
    exact Table.numberReference_succeeds_iff.mpr ((h m.group).1.refer_succeeds_iff.mpr htotal)

end Follows

/-- Whether the last count of a group was to be the only one. -/
def sole (table : Table) (name : Text) : Bool :=
  (table.group name).sole

/-- The groups know which of them have a count that is to be the only one. -/
def Closed (table : Table) (counts : List Counting) : Prop :=
  ∀ name, table.sole name = true ↔ ∃ c ∈ counts, c.group = name ∧ c.once = true

theorem sole_insert {g : Group} (h : g.sole = table.sole name) :
    Table.sole (table.insert name g) = table.sole := by
  funext other
  unfold sole
  rw [group_insert]
  by_cases hother : other = name
  · subst hother
    rw [if_pos rfl, h]
    rfl
  · rw [if_neg hother]

theorem sole_of_bindForcing {m : Forcing} (h : bindForcing m table = .ok (text, table')) :
    table'.sole = table.sole := by
  obtain ⟨g, hforce, -, rfl⟩ := bindForcing_eq_ok h
  obtain ⟨-, -, -, rfl⟩ := Group.group_of_force_eq_ok hforce
  exact sole_insert rfl

theorem sole_of_numberReference {m : Reference} (h : numberReference m table = .ok (text, table')) :
    table'.sole = table.sole := by
  obtain ⟨id, g, hrefer, -, rfl⟩ := numberReference_eq_ok h
  exact sole_insert (Group.sole_of_refer_eq_ok hrefer)

namespace Closed

variable {m : Counting}

/-- The third pass goes on just when the next count has something to count and no other count forbids
it. -/
theorem showCount_succeeds_iff (h : table.Closed counts) (hfollows : table.Follows u counts)
    (haccepted : u.Accepted counts) :
    (∃ text table', showCount m table = .ok (text, table')) ↔ u.Accepted (counts ++ [m]) := by
  rw [Table.showCount_succeeds_iff, Group.count_succeeds_iff, hfollows.isEmpty_values_eq_false_iff,
    hfollows.counts_eq_zero_iff]
  constructor
  · rintro ⟨hknown, hsole, honce⟩
    refine ⟨haccepted.below_limit, haccepted.oneToOne, haccepted.total_le, ?_, ?_⟩
    · exact List.forall_mem_append.mpr ⟨haccepted.known, List.forall_mem_singleton.mpr hknown⟩
    · refine List.pairwise_append.mpr ⟨haccepted.compatible, List.pairwise_singleton _ m, ?_⟩
      intro c hc d hd hgroup
      obtain rfl := List.mem_singleton.mp hd
      constructor
      · by_contra hconce
        have htrue := (h d.group).mpr ⟨c, hc, hgroup, Bool.not_eq_false _ ▸ hconce⟩
        exact Bool.false_ne_true (hsole.symm.trans htrue)
      · by_contra hdonce
        exact honce (Bool.not_eq_false _ ▸ hdonce) c hc hgroup
  · intro hnext
    have hcompatible := hnext.compatible_last
    refine ⟨hnext.known m (by simp), ?_, ?_⟩
    · rw [← Bool.not_eq_true]
      intro hsole
      obtain ⟨c, hc, hgroup, honce⟩ := (h m.group).mp hsole
      exact Bool.false_ne_true ((hcompatible c hc hgroup).1.symm.trans honce)
    · intro honce c hc hgroup
      exact Bool.false_ne_true ((hcompatible c hc hgroup).2.symm.trans honce)

theorem showCount (h : table.Closed counts) (hnext : u.Accepted (counts ++ [m]))
    (hok : showCount m table = .ok (text, table')) : table'.Closed (counts ++ [m]) := by
  obtain ⟨count, g, hcount, -, rfl⟩ := showCount_eq_ok hok
  have hsole : g.sole = m.once := Group.sole_of_count_eq_ok hcount
  have hcompatible := hnext.compatible_last
  intro name
  unfold sole
  rw [group_insert]
  by_cases hname : name = m.group
  · subst hname
    rw [if_pos rfl, hsole]
    constructor
    · intro honce
      exact ⟨m, by simp, rfl, honce⟩
    · rintro ⟨c, hc, hgroup, honce⟩
      rcases List.mem_append.mp hc with hc | hc
      · exact absurd honce (by simp [(hcompatible c hc hgroup).1])
      · rwa [← List.mem_singleton.mp hc]
  · rw [if_neg hname]
    have hother : (∃ c ∈ counts ++ [m], c.group = name ∧ c.once = true) ↔
        ∃ c ∈ counts, c.group = name ∧ c.once = true := by
      simp [Ne.symm hname]
    rw [hother]
    exact h name

end Closed

end Table

namespace Usage.Accepted

variable {u u' : Usage} {counts counts' : List Counting} {forcings forcings' : List Forcing}
  {references references' : List Reference}

theorem of_forcings_isPrefix (h : Usage.Accepted ⟨forcings', []⟩ [])
    (hbefore : forcings <+: forcings') : Usage.Accepted ⟨forcings, []⟩ [] := by
  have hforced : ∀ name, Usage.forced ⟨forcings, []⟩ name ⊆ Usage.forced ⟨forcings', []⟩ name := by
    intro name
    have hmap := (hbefore.filter (·.group = name)).map fun m => (m.suffix, Text.toNat m.literal)
    exact hmap.subset
  refine ⟨fun m hm => h.below_limit m (hbefore.subset hm), ?_, ?_, by simp, .nil⟩
  · exact fun name => (h.oneToOne name).of_subset (hforced name)
  · intro name
    have hle := h.total_le name
    have hfloor := floor_le_of_subset (hforced name)
    have hnone : Usage.unforced ⟨forcings, []⟩ name = [] := rfl
    rw [hnone, List.length_nil]
    omega

theorem of_references_isPrefix (h : Usage.Accepted ⟨forcings, references'⟩ [])
    (hbefore : references <+: references') : Usage.Accepted ⟨forcings, references⟩ [] := by
  refine ⟨h.below_limit, h.oneToOne, fun name => ?_, by simp, .nil⟩
  have hle := h.total_le name
  have hreferenced := (hbefore.filter (·.group = name)).map (·.suffix)
  have hlength := (leftOver_isPrefix (Usage.forced ⟨forcings, references⟩ name)
    hreferenced).length_le
  exact Nat.le_trans (Nat.add_le_add_left hlength _) hle

theorem of_counts_isPrefix (h : u.Accepted counts') (hbefore : counts <+: counts') :
    u.Accepted counts where
  below_limit := h.below_limit
  oneToOne := h.oneToOne
  total_le := h.total_le
  known c hc := h.known c (hbefore.subset hc)
  compatible := h.compatible.sublist hbefore.sublist

/-- Nothing of this depends on the order of the markers. -/
theorem of_perm (h : u.Accepted counts) (hforcings : u.forcings.Perm u'.forcings)
    (hreferences : u.references.Perm u'.references) (hcounts : counts.Perm counts') :
    u'.Accepted counts' := by
  have hforced : ∀ name, (u.forced name).Perm (u'.forced name) := by
    intro name
    exact (hforcings.filter (·.group = name)).map fun m => (m.suffix, Text.toNat m.literal)
  refine ⟨fun m hm => h.below_limit m (hforcings.mem_iff.mpr hm), ?_, ?_, ?_, ?_⟩
  · exact fun name => (h.oneToOne name).of_subset (hforced name).symm.subset
  · intro name
    have hreferenced := (hreferences.filter (·.group = name)).map (·.suffix)
    have hunforced : (u.unforced name).Perm (u'.unforced name) :=
      leftOver_perm (hforced name) hreferenced
    rw [← floor_eq_of_perm (hforced name), ← hunforced.length_eq]
    exact h.total_le name
  · intro c hc
    rcases h.known c (hcounts.mem_iff.mpr hc) with ⟨m, hm, hgroup⟩ | ⟨m, hm, hgroup⟩
    · exact Or.inl ⟨m, hforcings.mem_iff.mp hm, hgroup⟩
    · exact Or.inr ⟨m, hreferences.mem_iff.mp hm, hgroup⟩
  · have hsymm : ∀ {c d : Counting}, c.Compatible d → d.Compatible c :=
      fun hcd hgroup => (hcd hgroup.symm).symm
    exact (hcounts.pairwise_iff hsymm).mp h.compatible

end Usage.Accepted

variable {t : Text}

theorem resolve_forcings_succeeds_iff :
    (∃ v table, Forcing.pattern.resolve bindForcing t ∅ = .ok (v, table)) ↔
      Usage.Accepted ⟨Forcing.pattern.hits t, []⟩ [] := by
  have hnil : Usage.Accepted ⟨[], []⟩ [] := by
    refine ⟨by simp, ?_, Table.Follows.empty.total_le, by simp, .nil⟩
    intro name p hp
    cases hp
  exact Pattern.exists_resolve_eq_ok_iff (fun forcings table => Table.Follows table ⟨forcings, []⟩ [])
    (fun forcings => Usage.Accepted ⟨forcings, []⟩ [])
    (fun hbefore haccepted => haccepted.of_forcings_isPrefix hbefore)
    Table.Follows.bindForcing_succeeds_iff (fun hfollows _ hok => (hfollows.bindForcing hok).2)
    Table.Follows.empty hnil

theorem resolve_references_succeeds_iff {forcings : List Forcing} {table : Table}
    (hfollows : table.Follows ⟨forcings, []⟩ []) (haccepted : Usage.Accepted ⟨forcings, []⟩ []) :
    (∃ v table', Reference.pattern.resolve numberReference t table = .ok (v, table')) ↔
      Usage.Accepted ⟨forcings, Reference.pattern.hits t⟩ [] :=
  Pattern.exists_resolve_eq_ok_iff
    (fun references table => Table.Follows table ⟨forcings, references⟩ [])
    (fun references => Usage.Accepted ⟨forcings, references⟩ [])
    (fun hbefore hlater => hlater.of_references_isPrefix hbefore)
    Table.Follows.numberReference_succeeds_iff (fun hfollows _ hok => (hfollows.numberReference hok).2)
    hfollows haccepted

theorem resolve_counts_succeeds_iff {u : Usage} {table : Table} (hfollows : table.Follows u [])
    (hclosed : table.Closed []) (haccepted : u.Accepted []) :
    (∃ v table', Counting.pattern.resolve showCount t table = .ok (v, table')) ↔
      u.Accepted (Counting.pattern.hits t) :=
  Pattern.exists_resolve_eq_ok_iff
    (fun counts table => Table.Follows table u counts ∧ Table.Closed table counts) u.Accepted
    (fun hbefore hlater => hlater.of_counts_isPrefix hbefore)
    (fun h hcounts => h.2.showCount_succeeds_iff h.1 hcounts)
    (fun h hnext hok => ⟨(h.1.showCount hok).2, h.2.showCount hnext hok⟩)
    ⟨hfollows, hclosed⟩ haccepted

/-- The first two passes make no count. -/
theorem closed_of_resolve {v w : Text} {table table' : Table}
    (hforcings : Forcing.pattern.resolve bindForcing t ∅ = .ok (v, table))
    (hreferences : Reference.pattern.resolve numberReference v table = .ok (w, table')) :
    table'.Closed [] := by
  have hforced : table.sole = Table.sole ∅ :=
    Pattern.state_of_resolve_eq_ok Table.sole_of_bindForcing hforcings
  have hsole : table'.sole = table.sole :=
    Pattern.state_of_resolve_eq_ok Table.sole_of_numberReference hreferences
  intro name
  rw [hsole, hforced]
  constructor
  · intro htrue
    cases htrue
  · rintro ⟨c, hc, -⟩
    cases hc

/-- The passes go through exactly when the markers are accepted. -/
theorem number_succeeds_iff (t : Text) : (∃ n, number t = .ok n) ↔
    (Usage.ofText t).Accepted (countsOf t) := by
  constructor
  · rintro ⟨n, h⟩
    obtain ⟨t₁, table₁, t₂, table₂, hforcings, hreferences, hcounts⟩ :=
      number_eq_ok_iff_passes.mp h
    have hclosed := closed_of_resolve hforcings hreferences
    have haccepted₁ := resolve_forcings_succeeds_iff.mp ⟨t₁, table₁, hforcings⟩
    obtain ⟨rfl, hfollows₁⟩ := Table.Follows.resolve_forcings hforcings
    have haccepted₂ := (resolve_references_succeeds_iff hfollows₁ haccepted₁).mp
      ⟨t₂, table₂, hreferences⟩
    obtain ⟨rfl, hfollows₂⟩ := hfollows₁.resolve_references hreferences
    exact (resolve_counts_succeeds_iff hfollows₂ hclosed haccepted₂).mp
      ⟨n.text, n.table, hcounts⟩
  · intro haccepted
    have haccepted₂ : (Usage.ofText t).Accepted [] := haccepted.of_counts_isPrefix List.nil_prefix
    have haccepted₁ : Usage.Accepted ⟨Forcing.pattern.hits t, []⟩ [] :=
      haccepted₂.of_references_isPrefix List.nil_prefix
    obtain ⟨t₁, table₁, hforcings⟩ := resolve_forcings_succeeds_iff.mpr haccepted₁
    obtain ⟨rfl, hfollows₁⟩ := Table.Follows.resolve_forcings hforcings
    obtain ⟨t₂, table₂, hreferences⟩ :=
      (resolve_references_succeeds_iff hfollows₁ haccepted₁).mpr haccepted₂
    have hclosed := closed_of_resolve hforcings hreferences
    obtain ⟨rfl, hfollows₂⟩ := hfollows₁.resolve_references hreferences
    obtain ⟨t₃, table₃, hcounts⟩ :=
      (resolve_counts_succeeds_iff hfollows₂ hclosed haccepted₂).mpr haccepted
    exact ⟨⟨t₃, table₃⟩, number_eq_ok_iff_passes.mpr
      ⟨_, table₁, _, table₂, hforcings, hreferences, hcounts⟩⟩

/-- A source can be numbered exactly when its markers are accepted; so the order of its forcings, its
references and its counts makes no difference. -/
theorem exists_number_eq_ok_iff (t : Text) :
    ((∃ n, number t = .ok n) ↔ (Usage.ofText t).Accepted (countsOf t)) ∧
    ∀ t', (Usage.ofText t).forcings.Perm (Usage.ofText t').forcings →
      (Usage.ofText t).references.Perm (Usage.ofText t').references →
      (countsOf t).Perm (countsOf t') → ((∃ n, number t = .ok n) ↔ ∃ n, number t' = .ok n) := by
  refine ⟨number_succeeds_iff t, fun t' hforcings hreferences hcounts => ?_⟩
  rw [number_succeeds_iff t, number_succeeds_iff t']
  constructor
  · exact fun h => h.of_perm hforcings hreferences hcounts
  · exact fun h => h.of_perm hforcings.symm hreferences.symm hcounts.symm

/-- Two sources with the same forcings and counts in another order, and two such sources of which a
count forbids another. -/
theorem exists_number_eq_ok_iff_reordered :
    let first := "k#a(1) k#b(2) k#c k# j#x j##".toList
    let second := "k#b(2) k#a(1) j#x j## k#c k#".toList
    let sole := "k#a k## k#".toList
    let plain := "k#a k# k##".toList
    (∃ n, number first = .ok n) ∧ (∃ n, number second = .ok n) ∧
      (¬ ∃ n, number sole = .ok n) ∧ ¬ ∃ n, number plain = .ok n := by
  intro first second sole plain
  have hfirst : ∃ n, number first = .ok n := exists_eq_ok_of_isSome (by decide +kernel)
  obtain ⟨-, hreordered⟩ := exists_number_eq_ok_iff first
  obtain ⟨hsole, hswapped⟩ := exists_number_eq_ok_iff sole
  have hrejected : ¬ ∃ n, number sole = .ok n := by
    rw [hsole]
    intro haccepted
    have hcompatible := haccepted.compatible
    have hcounts : countsOf sole = [⟨['k'], true⟩, ⟨['k'], false⟩] := by decide +kernel
    rw [hcounts, List.pairwise_pair] at hcompatible
    exact Bool.noConfusion (hcompatible rfl).1
  refine ⟨hfirst, (hreordered second ?_ ?_ ?_).mp hfirst, hrejected, ?_⟩
  · decide +kernel
  · decide +kernel
  · decide +kernel
  · rw [← hswapped plain (by decide +kernel) (by decide +kernel) (by decide +kernel)]
    exact hrejected

end JsfxSugar.Enumeration
