import JsfxSugar.Proofs.Enumeration.ForcedMarkers
import JsfxSugar.Proofs.Signs

/-! Numbering leaves no number sign behind a name, and brings none about behind a brace. -/

namespace JsfxSugar.Enumeration

variable {t : Text} {n : Numbering} {cls : Char → Bool}

theorem IsName.sign_not_mem {name : Text} (h : IsName name) : '#' ∉ name :=
  h.not_mem (by decide)

theorem Reference.isName_of_read? {m : Reference} {r : Text}
    (h : Reference.pattern.read? t = some (m, r)) : IsName m.group ∧ IsName m.suffix := by
  obtain ⟨-, hgroup, hsuffix, -⟩ := Reference.read?_eq_some_iff.mp h
  exact ⟨hgroup, hsuffix⟩

theorem Counting.isName_of_read? {m : Counting} {r : Text}
    (h : Counting.pattern.read? t = some (m, r)) : IsName m.group := by
  obtain ⟨-, hgroup, -⟩ := Counting.read?_eq_some_iff.mp h
  exact hgroup

namespace Usage

theorem isName_of_mem_suffixes {name suffix : Text} (h : suffix ∈ (ofText t).suffixes name) :
    IsName suffix := by
  have hforcings : ∀ m ∈ Forcing.pattern.hits t, IsName m.group ∧ IsName m.suffix :=
    Pattern.forall_mem_hits Forcing.isName_of_read?
  have hreferences : ∀ m ∈ Reference.pattern.hits (released t), IsName m.group ∧ IsName m.suffix :=
    Pattern.forall_mem_hits Reference.isName_of_read?
  rcases List.mem_append.mp h with h | h
  · obtain ⟨entry, hentry, rfl⟩ := List.mem_map.mp h
    obtain ⟨m, hm, rfl⟩ := List.mem_map.mp (List.mem_eraseDups.mp hentry)
    exact (hforcings m (List.mem_of_mem_filter hm)).2
  · have hseen := List.mem_of_mem_filter (List.mem_eraseDups.mp h)
    obtain ⟨m, hm, rfl⟩ := List.mem_map.mp hseen
    exact (hreferences m (List.mem_of_mem_filter hm)).2

theorem sealed_numbered (u : Usage) {m : Reference} (hgroup : IsName m.group)
    (hsuffix : IsName m.suffix) (hcls : cls '/' = false) : Text.Sealed cls (u.numbered m) := by
  apply Text.sealed_append_comment (Text.not_mem_ofNat (by decide) _) ?_ hcls
  simp [hgroup.sign_not_mem, hsuffix.sign_not_mem]

theorem sealed_counted (seen : List Counting) {m : Counting} (hgroup : IsName m.group)
    (hcls : cls '/' = false) : Text.Sealed cls ((ofText t).counted seen m) := by
  apply Text.sealed_append_comment (Text.not_mem_ofNat (by decide) _) ?_ hcls
  have hjoin : '#' ∉ Text.join ", ".toList ((ofText t).suffixes m.group) := by
    intro hmem
    rcases Text.mem_join hmem with hsep | ⟨suffix, hsuffix, hmem⟩
    · revert hsep
      decide
    · exact (isName_of_mem_suffixes hsuffix).sign_not_mem hmem
  intro hmem
  rcases List.mem_append.mp hmem with hmem | hmem
  · exact hgroup.sign_not_mem hmem
  · split at hmem
    · simp at hmem
    · rcases List.mem_append.mp hmem with hmem | hmem
      · revert hmem
        decide
      · exact hjoin hmem

end Usage

/-- Of a forcing there remains a reference, which holds no brace. -/
theorem sealed_reference {m : Forcing} (hgroup : IsName m.group) (hsuffix : IsName m.suffix) :
    Text.Sealed (· = '{') m.reference.source := by
  have hbrace : '{' ∉ m.reference.source := by
    have hgroup : '{' ∉ m.group := hgroup.not_mem (by decide)
    have hsuffix : '{' ∉ m.suffix := hsuffix.not_mem (by decide)
    simp [Forcing.reference, Reference.source, hgroup, hsuffix]
  obtain ⟨c, group, heq, hc⟩ := hgroup.exists_cons
  refine ⟨by simp [Reference.source], ?_, ?_, ?_⟩
  · intro hhead
    obtain rfl : c = '#' := by simpa [Forcing.reference, Reference.source, heq] using hhead
    revert hc
    decide
  · intro d hd
    rw [decide_eq_false_iff_not]
    rintro rfl
    exact hbrace (List.mem_of_getLast? hd)
  · intro d hd hpair
    obtain rfl := of_decide_eq_true hd
    exact hbrace (hpair.subset List.mem_cons_self)

/-- Numbering brings no sign behind a brace. -/
theorem noSignAfter_brace_number (ht : Text.NoSignAfter (· = '{') t) (h : number t = .ok n) :
    Text.NoSignAfter (· = '{') n.text := by
  have hreleased : Text.NoSignAfter (· = '{') (released t) := by
    apply Pattern.noSignAfter_substitute ht
    intro m hm
    obtain ⟨hgroup, hsuffix⟩ := Pattern.forall_mem_hits (P := fun m : Forcing =>
      IsName m.group ∧ IsName m.suffix) Forcing.isName_of_read? m hm
    exact sealed_reference hgroup hsuffix
  have hreferences : Text.NoSignAfter (· = '{') ((Usage.ofText t).referenceText t) := by
    apply Pattern.noSignAfter_substitute hreleased
    intro m hm
    obtain ⟨hgroup, hsuffix⟩ := Pattern.forall_mem_hits (P := fun m : Reference =>
      IsName m.group ∧ IsName m.suffix) Reference.isName_of_read? m hm
    exact Usage.sealed_numbered _ hgroup hsuffix (by decide)
  rw [(number_eq_ok h).1]
  apply Pattern.noSignAfter_substituteAfter_of_noSignAfter hreferences
  intro seen m hm
  exact Usage.sealed_counted seen
    (Pattern.forall_mem_hits (P := fun m : Counting => IsName m.group) Counting.isName_of_read? m hm)
    (by decide)

/-- Numbering leaves no sign behind a character of a name: it would be a count. -/
theorem noSignAfter_number (h : number t = .ok n) : Text.NoSignAfter isNameChar n.text := by
  rw [(number_eq_ok h).1]
  apply Pattern.noSignAfter_substituteAfter
  · intro c s _ hnone
    rw [Bool.eq_false_iff]
    intro hc
    have hname : IsName [c] := ⟨by simp, by simpa using hc⟩
    have hsome := Counting.isSome_read? hname s
    rw [List.singleton_append, hnone] at hsome
    exact Bool.false_ne_true hsome
  · intro seen m hm
    exact Usage.sealed_counted seen
      (Pattern.forall_mem_hits (P := fun m : Counting => IsName m.group) Counting.isName_of_read? m
        hm) (by decide)

/-- A name with a sign after it cannot be read where no sign stands behind a character of a name. -/
theorem IsName.not_isInfix {name rest : Text} (h : IsName name)
    (ht : Text.NoSignAfter isNameChar t) : ¬ name ++ '#' :: rest <:+: t := by
  rintro ⟨before, after, rfl⟩
  have hname : name ++ '#' :: rest <:+: before ++ (name ++ '#' :: rest) ++ after := ⟨_, _, rfl⟩
  obtain ⟨-, -, hends⟩ := Text.noSignAfter_append.mp (ht.of_isInfix hname)
  exact h.not_endsOutside (hends rfl)

/-- A text in which no sign stands behind a character of a name has nothing to number. -/
theorem number_of_noSignAfter (ht : Text.NoSignAfter isNameChar t) : number t = .ok ⟨t, ∅⟩ := by
  have hforcings : Forcing.pattern.hits t = [] := by
    rw [List.eq_nil_iff_forall_not_mem]
    intro m hm
    obtain ⟨hgroup, -⟩ := Pattern.forall_mem_hits (P := fun m : Forcing =>
      IsName m.group ∧ IsName m.suffix) Forcing.isName_of_read? m hm
    have hsource : m.group ++ '#' :: (m.suffix ++ (['('] ++ (m.literal ++ [')']))) = m.source := by
      simp [Forcing.source, Forcing.reference, Reference.source]
    have hinfix : m.source <:+: t := Pattern.source_isInfix_of_mem_hits hm
    exact hgroup.not_isInfix ht (hsource ▸ hinfix)
  have hreferences : Reference.pattern.hits t = [] := by
    rw [List.eq_nil_iff_forall_not_mem]
    intro m hm
    obtain ⟨hgroup, -⟩ := Pattern.forall_mem_hits (P := fun m : Reference =>
      IsName m.group ∧ IsName m.suffix) Reference.isName_of_read? m hm
    exact hgroup.not_isInfix ht (Pattern.source_isInfix_of_mem_hits hm)
  have hcounts : Counting.pattern.hits t = [] := by
    rw [List.eq_nil_iff_forall_not_mem]
    intro m hm
    have hgroup := Pattern.forall_mem_hits (P := fun m : Counting => IsName m.group)
      Counting.isName_of_read? m hm
    have hsource : m.group ++ '#' :: (if m.once then ['#'] else []) = m.source := by
      cases honce : m.once <;> simp [Counting.source, Group.countSource, honce]
    have hinfix : m.source <:+: t := Pattern.source_isInfix_of_mem_hits hm
    exact hgroup.not_isInfix ht (hsource ▸ hinfix)
  apply bind_eq_ok_iff.mpr ⟨_, Pattern.resolve_of_hits_eq_nil hforcings _ _, ?_⟩
  apply bind_eq_ok_iff.mpr ⟨_, Pattern.resolve_of_hits_eq_nil hreferences _ _, ?_⟩
  exact bind_eq_ok_iff.mpr ⟨_, Pattern.resolve_of_hits_eq_nil hcounts _ _, rfl⟩

/-- A numbered text has no sign behind a character of a name. Numbered again, it stays as it is, with
no groups found and nothing to warn of. So the texts that numbering leaves as they are are just those
with no sign behind a character of a name. -/
theorem number_numbered (t : Text) :
    (∀ n, number t = .ok n → Text.NoSignAfter isNameChar n.text ∧
      ∃ again, number n.text = .ok again ∧ again.text = n.text ∧ again.table = ∅ ∧
        again.table.warnings = []) ∧
    ((∃ n, number t = .ok n ∧ n.text = t) ↔ Text.NoSignAfter isNameChar t) := by
  constructor
  · intro n hn
    have hsign : Text.NoSignAfter isNameChar n.text := noSignAfter_number hn
    exact ⟨hsign, ⟨n.text, ∅⟩, number_of_noSignAfter hsign, rfl, rfl, rfl⟩
  · constructor
    · rintro ⟨n, hn, htext⟩
      have hsign : Text.NoSignAfter isNameChar n.text := noSignAfter_number hn
      rwa [htext] at hsign
    · intro hsign
      exact ⟨⟨t, ∅⟩, number_of_noSignAfter hsign, rfl⟩

/-- Chains of signs, a forced value with a marker right behind it, and signs behind a reference. -/
theorem number_numbered_chain :
    let t := "k#a#b k#c(4)d#e k#k## d#f#d# k#".toList
    ∃ n, number t = .ok n ∧ n.text ≠ t ∧ Text.NoSignAfter isNameChar n.text ∧
      ∃ again, number n.text = .ok again ∧ again.text = n.text ∧ again.table = ∅ ∧
        again.table.warnings = [] := by
  intro t
  obtain ⟨n, hn⟩ : ∃ n, number t = .ok n := exists_eq_ok_of_isSome (by decide +kernel)
  obtain ⟨hresult, hfixed⟩ := number_numbered t
  have hsigns : ¬ Text.NoSignAfter isNameChar t := by
    intro hsign
    exact hsign 'k' (by decide) (by decide +kernel)
  have hne : n.text ≠ t := fun htext => hsigns (hfixed.mp ⟨n, hn, htext⟩)
  exact ⟨n, hn, hne, hresult n hn⟩

end JsfxSugar.Enumeration
