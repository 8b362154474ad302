import JsfxSugar.Proofs.Dispatch.Declarations

/-! When a marker of dispatch is read: the text begins with it, its parts are what they stand for, and
nothing goes on where a part ends. -/

namespace JsfxSugar.Dispatch

variable {t r s : Text} {c : Char}

theorem isName_keyword : IsName keyword :=
  ⟨by decide, List.all_eq_true.mp (by decide)⟩

/-- A text of blanks only, maybe none. -/
abbrev IsGap (gap : Text) : Prop :=
  ∀ c ∈ gap, Text.isBlank c = true

theorem IsGap.not_mem {gap : Text} (h : IsGap gap) (hc : Text.isBlank c = false) : c ∉ gap := by
  intro hmem
  rw [h c hmem] at hc
  exact Bool.noConfusion hc

theorem IsGap.not_isNameChar {gap : Text} (h : IsGap gap) (hc : c ∈ gap) :
    ¬ isNameChar c = true :=
  fun hname => h.not_mem (isBlank_eq_false_of_isNameChar hname) hc

theorem IsName.startsOutside_blank {name : Text} (h : IsName name) :
    Text.StartsOutside Text.isBlank (name ++ r) := by
  obtain ⟨c, rest, rfl, hc⟩ := h.exists_cons
  exact Text.startsOutside_cons.mpr (isBlank_eq_false_of_isNameChar hc)

theorem IsGap.startsOutside_name {gap : Text} (h : IsGap gap)
    (hr : Text.StartsOutside isNameChar r) : Text.StartsOutside isNameChar (gap ++ r) := by
  cases gap with
  | nil => exact hr
  | cons c gap =>
    rw [List.cons_append, Text.startsOutside_cons, Bool.eq_false_iff]
    exact h.not_isNameChar List.mem_cons_self

theorem name?_eq_some_iff {gap name : Text} : name? t = some (gap, name, r) ↔
    t = gap ++ (name ++ r) ∧ IsGap gap ∧ IsName name ∧ Text.StartsOutside isNameChar r := by
  constructor
  · intro h
    have ht := eq_append_of_name? h
    simp only [name?, Option.map_eq_some_iff, Prod.mk.injEq, Prod.exists] at h
    obtain ⟨run, s, hrun, rfl, rfl, rfl⟩ := h
    obtain ⟨-, hne, hname, hr⟩ := Text.run?_eq_some_iff.mp hrun
    exact ⟨ht, List.all_eq_true.mp List.all_takeWhile, ⟨hne, hname⟩, hr⟩
  · rintro ⟨rfl, hgap, hname, hr⟩
    rw [name?, Text.dropWhile_append_of_startsOutside hgap hname.startsOutside_blank,
      Text.takeWhile_append_of_startsOutside hgap hname.startsOutside_blank,
      Text.run?_append hname.ne_nil hname.forall_mem hr]
    rfl

/-- A padded name whose parts are what they stand for. -/
structure Padded.Proper (p : Padded) : Prop where
  before : IsGap p.before
  name : IsName p.name
  after : IsGap p.after

theorem Padded.read?_eq_some_iff {stop : Char} (hname : isNameChar stop = false)
    (hblank : Text.isBlank stop = false) {p : Padded} :
    Padded.read? [stop] t = some (p, r) ↔ t = p.source ++ stop :: r ∧ p.Proper := by
  simp only [Padded.read?, Option.bind_eq_bind, Option.bind_eq_some_iff, Prod.exists,
    Option.pure_def, Option.some.injEq, Prod.mk.injEq, name?_eq_some_iff, Text.blanksBefore?,
    Text.spanBefore?_eq_some_iff hblank]
  constructor
  · rintro ⟨before, name, s, ⟨rfl, hbefore, hname, -⟩, after, r, ⟨rfl, hafter⟩, rfl, rfl⟩
    exact ⟨by simp [source], hbefore, hname, hafter⟩
  · rintro ⟨rfl, hp⟩
    refine ⟨p.before, p.name, p.after ++ stop :: r, ⟨by simp [source], hp.before, hp.name, ?_⟩,
      p.after, r, ⟨rfl, hp.after⟩, rfl, rfl⟩
    exact IsGap.startsOutside_name hp.after (Text.startsOutside_cons.mpr hname)

/-- A padded name is made of blanks and name characters. -/
def isPaddedChar (c : Char) : Bool :=
  isNameChar c || Text.isBlank c

theorem Padded.Proper.isPaddedChar {p : Padded} (h : p.Proper) :
    ∀ c ∈ p.source, isPaddedChar c = true := by
  intro c hc
  simp only [source, List.mem_append] at hc
  rcases hc with hc | hc | hc
  · simp [Dispatch.isPaddedChar, h.before c hc]
  · simp [Dispatch.isPaddedChar, h.name.forall_mem c hc]
  · simp [Dispatch.isPaddedChar, h.after c hc]

theorem Padded.Proper.not_mem {p : Padded} (h : p.Proper) (hc : Dispatch.isPaddedChar c = false) :
    c ∉ p.source := by
  intro hmem
  rw [h.isPaddedChar c hmem] at hc
  exact Bool.noConfusion hc

theorem isPaddedChar_of_isBlank (h : Text.isBlank c = true) : isPaddedChar c = true := by
  simp [isPaddedChar, h]

theorem isPaddedChar_of_isNameChar (h : isNameChar c = true) : isPaddedChar c = true := by
  simp [isPaddedChar, h]

/-- A call site is read to the end of its function. -/
theorem CallSite.read?_eq_some_iff {m : CallSite} : CallSite.pattern.read? t = some (m, r) ↔
    t = m.source ++ r ∧ m.group.Proper ∧ IsGap m.gap ∧ IsName m.function ∧
      Text.StartsOutside isNameChar r := by
  obtain ⟨group, gap, function⟩ := m
  simp only [pattern, CallSite.read?, Option.bind_eq_bind, Option.bind_eq_some_iff, Prod.exists,
    Option.pure_def, Option.some.injEq, Prod.mk.injEq, Text.skip?_eq_some_iff, name?_eq_some_iff,
    Padded.read?_eq_some_iff (show isNameChar '}' = false by decide) (by decide), CallSite.mk.injEq]
  constructor
  · rintro ⟨_, rfl, group, _, ⟨rfl, hgroup⟩, gap, function, r, ⟨rfl, hgap, hfunction, hr⟩,
      ⟨rfl, rfl, rfl⟩, rfl⟩
    exact ⟨by simp [source], hgroup, hgap, hfunction, hr⟩
  · rintro ⟨rfl, hgroup, hgap, hfunction, hr⟩
    exact ⟨_, by simp [source], group, gap ++ (function ++ r), ⟨rfl, hgroup⟩, gap, function, r,
      ⟨rfl, hgap, hfunction, hr⟩, ⟨rfl, rfl, rfl⟩, rfl⟩

/-- A declaration is read up to the parenthesis after its list. -/
theorem Declaration.read?_eq_some_iff {m : Declaration} :
    Declaration.pattern.read? t = some (m, r) ↔
      t = m.source ++ r ∧ IsGap m.gap ∧ m.group.Proper ∧ IsGap m.space ∧
        (∀ c ∈ m.list, isListChar c = true) ∧ isParameterList m.list = true := by
  obtain ⟨gap, group, space, list⟩ := m
  simp only [pattern, Declaration.read?, Option.bind_eq_bind, Option.bind_eq_some_iff, Prod.exists,
    Option.pure_def, Text.skip?_eq_some_iff, Text.blanksBefore?,
    Text.spanBefore?_eq_some_iff (show Text.isBlank '{' = false by decide),
    Text.spanBefore?_eq_some_iff (show Text.isBlank '(' = false by decide),
    Text.spanBefore?_eq_some_iff (show isListChar ')' = false by decide),
    Padded.read?_eq_some_iff (show isNameChar '}' = false by decide) (by decide)]
  constructor
  · rintro ⟨_, rfl, gap, _, ⟨rfl, hgap⟩, group, _, ⟨rfl, hgroup⟩, space, _, ⟨rfl, hspace⟩, list, _,
      ⟨rfl, hlist⟩, h⟩
    split at h
    · rename_i hparameters
      simp only [Option.some.injEq, Prod.mk.injEq, Declaration.mk.injEq] at h
      obtain ⟨⟨rfl, rfl, rfl, rfl⟩, rfl⟩ := h
      exact ⟨by simp [source], hgap, hgroup, hspace, hlist, hparameters⟩
    · simp at h
  · rintro ⟨rfl, hgap, hgroup, hspace, hlist, hparameters⟩
    refine ⟨_, by simp [source], gap, _, ⟨rfl, hgap⟩, group, _, ⟨rfl, hgroup⟩, space, _,
      ⟨rfl, hspace⟩, list, r, ⟨rfl, hlist⟩, ?_⟩
    rw [if_pos hparameters]

/-- A declaration holds no characters but those of names, blanks and lists, and its delimiters. -/
theorem Declaration.not_mem_parts {d : Declaration} (h : Declaration.pattern.read? t = some (d, r))
    (hc : isListChar c = false) : c ∉ d.gap ∧ c ∉ d.group.source ∧ c ∉ d.space ∧ c ∉ d.list := by
  obtain ⟨-, hgap, hgroup, hspace, hlist, -⟩ := Declaration.read?_eq_some_iff.mp h
  have hlistChar : c ∉ d.list := by
    intro hmem
    rw [hlist c hmem] at hc
    exact Bool.noConfusion hc
  simp only [isListChar, Bool.or_eq_false_iff] at hc
  obtain ⟨⟨⟨hname, hblank⟩, -⟩, -⟩ := hc
  exact ⟨hgap.not_mem hblank, hgroup.not_mem (by simp [isPaddedChar, hname, hblank]),
    hspace.not_mem hblank, hlistChar⟩

/-- What stands before the brace of a declaration. -/
def Declaration.lead (d : Declaration) : Text :=
  keyword ++ d.gap

/-- What stands after the brace of a declaration. -/
def Declaration.tail (d : Declaration) : Text :=
  d.group.source ++ '}' :: (d.space ++ '(' :: (d.list ++ [')']))

/-- A declaration but for the parenthesis that closes it. -/
def Declaration.unclosed (d : Declaration) : Text :=
  (d.lead ++ '{' :: d.group.source) ++ '}' :: (d.space ++ '(' :: d.list)

theorem Declaration.source_eq (d : Declaration) : d.source = d.lead ++ '{' :: d.tail := by
  simp [source, lead, tail]

theorem Declaration.source_eq_unclosed (d : Declaration) : d.source = d.unclosed ++ [')'] := by
  simp [source, unclosed, lead]

/-- A declaration holds one brace that opens, that of its group. -/
theorem Declaration.brace_not_mem {d : Declaration} (h : Declaration.pattern.read? t = some (d, r)) :
    '{' ∉ d.lead ∧ '{' ∉ d.tail := by
  obtain ⟨hgap, hgroup, hspace, hlist⟩ := not_mem_parts (c := '{') h (by decide)
  have hkeyword : '{' ∉ keyword := by decide
  constructor
  · simp [lead, hkeyword, hgap]
  · simp [tail, hgroup, hspace, hlist]

theorem Declaration.close_not_mem_unclosed {d : Declaration}
    (h : Declaration.pattern.read? t = some (d, r)) : ')' ∉ d.unclosed := by
  obtain ⟨hgap, hgroup, hspace, hlist⟩ := not_mem_parts (c := ')') h (by decide)
  have hkeyword : ')' ∉ keyword := by decide
  simp [unclosed, lead, hkeyword, hgap, hgroup, hspace, hlist]

/-- The selector of a shorthand is read up to the first brace, its arguments up to the first
parenthesis. -/
theorem Shorthand.read?_eq_some_iff {m : Shorthand} : Shorthand.pattern.read? t = some (m, r) ↔
    t = m.source ++ r ∧ m.group.Proper ∧ '}' ∉ m.selector ∧ IsGap m.gap ∧ ')' ∉ m.arguments := by
  obtain ⟨group, selector, gap, arguments⟩ := m
  simp only [pattern, Shorthand.read?, Shorthand.group?, Shorthand.arguments?, Option.bind_eq_bind,
    Option.bind_eq_some_iff, Prod.exists, Option.pure_def, Option.some.injEq, Prod.mk.injEq,
    Text.skip?_eq_some_iff, Text.blanksBefore?, Text.upTo?_eq_some_iff,
    Text.spanBefore?_eq_some_iff (show Text.isBlank '(' = false by decide),
    Padded.read?_eq_some_iff (show isNameChar ':' = false by decide) (by decide), Shorthand.mk.injEq]
  constructor
  · rintro ⟨group, _, ⟨_, rfl, rfl, hgroup⟩, selector, _, ⟨rfl, hselector⟩, gap, arguments, _,
      ⟨gap', _, ⟨rfl, hgap⟩, arguments', r, ⟨rfl, harguments⟩, rfl, rfl, rfl⟩,
      ⟨rfl, rfl, rfl, rfl⟩, rfl⟩
    exact ⟨by simp [source], hgroup, hselector, hgap, harguments⟩
  · rintro ⟨rfl, hgroup, hselector, hgap, harguments⟩
    exact ⟨group, _, ⟨_, by simp [source], rfl, hgroup⟩, selector, _, ⟨rfl, hselector⟩, gap,
      arguments, r, ⟨gap, _, ⟨rfl, hgap⟩, arguments, r, ⟨rfl, harguments⟩, rfl, rfl, rfl⟩,
      ⟨rfl, rfl, rfl, rfl⟩, rfl⟩

/-- A shorthand begins with a brace. -/
theorem Shorthand.read?_eq_none_of_head? (h : t.head? ≠ some '{') : pattern.read? t = none := by
  cases hread : pattern.read? t with
  | none => rfl
  | some out =>
    obtain ⟨hsource, -⟩ := read?_eq_some_iff.mp hread
    rw [hsource] at h
    exact absurd rfl h

/-- No shorthand begins in a text without a brace, whatever comes after it. -/
theorem Shorthand.read?_append_eq_none {u : Text} (h : '{' ∉ t) (hs : s <:+ t) (hne : s ≠ []) :
    pattern.read? (s ++ u) = none := by
  obtain ⟨c, rest, rfl⟩ := List.exists_cons_of_ne_nil hne
  apply read?_eq_none_of_head?
  rintro hhead
  obtain rfl : c = '{' := Option.some.inj hhead
  exact h (hs.subset List.mem_cons_self)

end JsfxSugar.Dispatch
