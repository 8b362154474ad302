import JsfxSugar.Proofs.Bytes
import JsfxSugar.Proofs.Enumeration.Acceptance
import JsfxSugar.Proofs.Enumeration.Histories
import JsfxSugar.Proofs.Enumeration.Signs

/-! The groups that are never counted. Whether a group is counted can be told from the text in which
its references are numbered, and the warnings name the groups that are not, in order. -/

namespace JsfxSugar

/-- The values of a table stand in the order of its entries. -/
theorem NameTable.values_eq_map {α : Type} (table : NameTable α) :
    table.values = table.toList.map (·.2) := by
  have hfold : table.values = table.foldr (fun _ a values => a :: values) [] := by
    rcases table with ⟨⟨⟨table⟩⟩⟩
    rfl
  rw [hfold, Std.ExtTreeMap.foldr_eq_foldr_toList, List.map_eq_foldr]

namespace Enumeration

variable {s t r : Text} {c : Char} {name : Text} {table table' : Table} {text : Text}

/-- A count of a group stands in a text: its whole name, and a sign right after it. -/
structure Counted (name t : Text) : Prop where
  isName : IsName name
  exists_eq : ∃ before after, t = before ++ (name ++ '#' :: after) ∧
    Text.EndsOutside isNameChar before

theorem Counted.append (h : Counted name t) (hs : Text.EndsOutside isNameChar s) :
    Counted name (s ++ t) := by
  obtain ⟨hname, before, after, rfl, hbefore⟩ := h
  refine ⟨hname, s ++ before, after, by rw [List.append_assoc], ?_⟩
  by_cases hne : before = []
  · rwa [hne, List.append_nil]
  · exact (Text.endsOutside_append hne).mpr hbefore

/-- Where no count is read, the counts are those of the rest. -/
theorem counted_cons_iff (h : Counting.pattern.read? (c :: t) = none) :
    Counted name (c :: t) ↔ Counted name t := by
  constructor
  · rintro ⟨hname, before, after, ht, hbefore⟩
    cases before with
    | nil =>
      have hsome := Counting.isSome_read? hname after
      rw [List.nil_append] at ht
      simp [← ht, h] at hsome
    | cons d before =>
      exact ⟨hname, before, after, (List.cons.inj ht).2, hbefore.of_isSuffix (List.suffix_cons d _)⟩
  · rintro ⟨hname, before, after, rfl, hbefore⟩
    cases before with
    | nil =>
      -- A name character before the name would begin a longer one, which is read.
      have hc : isNameChar c = false := by
        rw [Bool.eq_false_iff]
        intro hc
        have hlonger : IsName (c :: name) :=
          ⟨List.cons_ne_nil c name, List.forall_mem_cons.mpr ⟨hc, hname.forall_mem⟩⟩
        have hsome := Counting.isSome_read? hlonger after
        rw [List.nil_append] at h
        simp [h] at hsome
      exact ⟨hname, [c], after, rfl, Text.endsOutside_concat (t := []).mpr hc⟩
    | cons d before =>
      exact ⟨hname, c :: d :: before, after, rfl,
        (Text.endsOutside_append (s := [c]) (List.cons_ne_nil d before)).mpr hbefore⟩

/-- Where a count is read, there is no other but those of the rest. -/
theorem counted_iff_of_read? {m : Counting} (h : Counting.pattern.read? t = some (m, r)) :
    Counted name t ↔ m.group = name ∨ Counted name r := by
  obtain ⟨rfl, hgroup, -⟩ := Counting.read?_eq_some_iff.mp h
  obtain ⟨signs, hsigns, hsource⟩ : ∃ signs : Text, (∀ c ∈ signs, c = '#') ∧
      m.source = m.group ++ '#' :: signs := by
    cases hm : m.once with
    | true => exact ⟨['#'], by simp, by simp [Counting.source, Group.countSource, hm]⟩
    | false => exact ⟨[], by simp, by simp [Counting.source, Group.countSource, hm]⟩
  constructor
  · rintro ⟨hname, before, after, ht, hbefore⟩
    rw [hsource, List.append_assoc, List.cons_append] at ht
    by_cases hne : before = []
    · rw [hne, List.nil_append] at ht
      exact Or.inl (Text.eq_of_append_stop_eq hgroup.sign_not_mem hname.sign_not_mem ht).1
    · right
      obtain ⟨before', rfl, hrest⟩ := hbefore.exists_eq_append hne hgroup.forall_mem ht.symm
      rcases List.append_eq_append_iff.mp hrest with ⟨left, rfl, hr⟩ | ⟨left, rfl, hr⟩
      · refine ⟨hname, left, after, hr, hbefore.of_isSuffix ?_⟩
        exact ⟨m.group ++ '#' :: signs, by simp⟩
      · -- No name begins with a sign, so that no count begins among the signs.
        cases left with
        | nil => exact ⟨hname, [], after, hr.symm, by simp [Text.EndsOutside]⟩
        | cons d left =>
          obtain ⟨c, rest, rfl, hc⟩ := hname.exists_cons
          obtain rfl : c = d := (List.cons.inj hr).1
          rw [hsigns c (by simp)] at hc
          exact absurd hc (by decide)
  · rintro (rfl | hr)
    · exact ⟨hgroup, [], signs ++ r, by simp [hsource], by simp [Text.EndsOutside]⟩
    · obtain ⟨front, hfront⟩ := m.exists_source_eq
      refine hr.append ?_
      rw [hfront, Text.endsOutside_concat]
      decide

/-- The counts that are read in a text are those that stand in it. -/
theorem exists_mem_hits_counting_iff :
    (∃ m ∈ Counting.pattern.hits t, m.group = name) ↔ Counted name t := by
  induction t using Counting.pattern.scan_induction with
  | nil =>
    constructor
    · simp
    · rintro ⟨-, before, after, ht, -⟩
      simp at ht
  | plain c t hc ih => rw [Pattern.hits_of_read?_eq_none hc, ih, counted_cons_iff hc]
  | hit t m r ht ih =>
    rw [Pattern.hits_of_read? ht, counted_iff_of_read? ht, ← ih]
    simp

namespace Table

/-- Every group stands under its own name. -/
def Titled (table : Table) : Prop :=
  ∀ (name : Text) (group : Group), table[name]? = some group → group.name = name

namespace Titled

theorem empty : Titled ∅ := by
  intro name group h
  simp at h

theorem name_group (h : table.Titled) (name : Text) : (table.group name).name = name := by
  rw [group, Std.ExtTreeMap.getD_eq_getD_getElem?]
  cases hgroup : table[name]? with
  | none => rfl
  | some group => exact h name group hgroup

theorem insert (h : table.Titled) {g : Group} (hg : g.name = name) :
    Titled (table.insert name g) := by
  intro other group hgroup
  rw [NameTable.getElem?_insert] at hgroup
  split at hgroup
  · rename_i heq
    rw [← Option.some.inj hgroup, heq, hg]
  · exact h other group hgroup

/-- A use of a group leaves it its name. -/
theorem name_step (h : table.Titled) (name : Text) (call : Call) :
    ((table.group name).step call).2.name = name :=
  ((table.group name).moves_step call).name_eq.trans (h.name_group name)

theorem bindForcing {m : Forcing} (h : table.Titled)
    (hok : bindForcing m table = .ok (text, table')) : table'.Titled := by
  obtain ⟨g, hforce, -, rfl⟩ := bindForcing_eq_ok hok
  have hname := h.name_step m.group (.force m.suffix (Text.toNat m.literal))
  rw [Group.step, hforce] at hname
  exact h.insert hname

theorem numberReference {m : Reference} (h : table.Titled)
    (hok : numberReference m table = .ok (text, table')) : table'.Titled := by
  obtain ⟨id, g, hrefer, -, rfl⟩ := numberReference_eq_ok hok
  have hname := h.name_step m.group (.refer m.suffix)
  rw [Group.step, hrefer] at hname
  exact h.insert hname

theorem showCount {m : Counting} (h : table.Titled)
    (hok : showCount m table = .ok (text, table')) : table'.Titled := by
  obtain ⟨count, g, hcount, -, rfl⟩ := showCount_eq_ok hok
  have hname := h.name_step m.group (.count m.once)
  rw [Group.step, hcount] at hname
  exact h.insert hname

theorem number {t : Text} {n : Numbering} (h : number t = .ok n) : n.table.Titled := by
  obtain ⟨t₁, table₁, t₂, table₂, hforcings, hreferences, hcounts⟩ := number_eq_ok_iff_passes.mp h
  have h₁ := Pattern.keeps_of_resolve_eq_ok (fun _ => Titled) bindForcing [] empty hforcings
  have h₂ := Pattern.keeps_of_resolve_eq_ok (fun _ => Titled) numberReference [] h₁ hreferences
  exact Pattern.keeps_of_resolve_eq_ok (fun _ => Titled) showCount [] h₂ hcounts

/-- The warnings are about the names of the groups that are never counted, in their order. -/
theorem warnings_eq (h : table.Titled) : table.warnings =
    (table.keys.filter fun name => (table.group name).counts = 0).map uncounted := by
  have hvalues : table.values = table.keys.map table.group := by
    rw [NameTable.values_eq_map, ← Std.ExtTreeMap.map_fst_toList_eq_keys, List.map_map]
    refine List.map_congr_left fun entry hentry => ?_
    have hget := Std.ExtTreeMap.mem_toList_iff_getElem?_eq_some.mp hentry
    simp [group, Std.ExtTreeMap.getD_eq_getD_getElem?, hget]
  rw [warnings, hvalues, List.filter_map, List.map_map]
  refine List.map_congr_left fun name _ => ?_
  exact congrArg uncounted (h.name_group name)

end Titled

end Table

/-- The text of a source once its forced values are bound and its references are numbered. -/
def numberReferences (t : Text) : Except Fault Text := do
  let (t, table) ← Forcing.pattern.resolve bindForcing t ∅
  let (t, _) ← Reference.pattern.resolve numberReference t table
  return t

theorem numberReferences_eq_ok {n : Numbering} (h : number t = .ok n) :
    numberReferences t = .ok ((Usage.ofText t).referenceText t) := by
  obtain ⟨t₁, table₁, t₂, table₂, hforcings, hreferences, -⟩ := number_eq_ok_iff_passes.mp h
  have hpasses : numberReferences t = .ok t₂ :=
    bind_eq_ok_iff.mpr ⟨_, hforcings, bind_eq_ok_iff.mpr ⟨_, hreferences, rfl⟩⟩
  obtain ⟨rfl, hfollows⟩ := Table.Follows.resolve_forcings hforcings
  obtain ⟨rfl, -⟩ := hfollows.resolve_references hreferences
  exact hpasses

/-- The warnings of a source name each of its groups once that has no count in the text in which its
references are numbered, in the order of the bytes of the names. -/
theorem exists_warnings_eq {n : Numbering} (h : number t = .ok n) :
    ∃ (u : Text) (names : List Text), numberReferences t = .ok u ∧
      n.table.warnings = names.map Table.uncounted ∧
      names.Pairwise (·.bytes < ·.bytes) ∧
      ∀ name, name ∈ names ↔ name ∈ n.table ∧ ¬ Counted name u := by
  refine ⟨_, _, numberReferences_eq_ok h, (Table.Titled.number h).warnings_eq, ?_, fun name => ?_⟩
  · exact ((NameTable.pairwise_lt_keys n.table).imp Text.bytes_lt_bytes).filter _
  · rw [List.mem_filter, Std.ExtTreeMap.mem_keys, decide_eq_true_iff,
      (number_eq_ok h).2.counts_eq_zero_iff, ← exists_mem_hits_counting_iff]
    simp only [not_exists, not_and, ne_eq]

end Enumeration

end JsfxSugar
