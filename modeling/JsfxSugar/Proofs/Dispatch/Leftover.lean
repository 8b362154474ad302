import JsfxSugar.Proofs.Dispatch.OpenGroups

/-! Which calls and declarations are left when calls are written out. Replaced text is not looked at
again: a call is left only where it stands within another one, and no declaration is. -/

namespace JsfxSugar.Dispatch

variable {t u r : Text} {c : Char} {d : Declaration}

theorem Shorthand.isReplacement_of_mem_hits {m : Shorthand} (h : m ∈ Shorthand.pattern.hits t) :
    IsReplacement m.written :=
  Shorthand.isReplacement_written (Pattern.forall_mem_hits (P := fun m : Shorthand =>
    IsName m.group.name) Shorthand.isName_of_read? m h)

theorem Shorthand.delimits_of_read? {m : Shorthand} (h : Shorthand.pattern.read? t = some (m, r)) :
    IsName m.group.name ∧ '}' ∉ m.selector ∧ ')' ∉ m.arguments := by
  obtain ⟨-, hgroup, hselector, -, hargs⟩ := Shorthand.read?_eq_some_iff.mp h
  exact ⟨hgroup.name, hselector, hargs⟩

theorem Shorthand.getLast?_written (m : Shorthand) : m.written.getLast? = some ')' := by
  rw [written, List.getLast?_append_of_ne_nil _ (by simp)]
  rfl

/-- What follows the colon of a shorthand in a text in which calls are written out follows one in the
text before: the first brace that closes is not part of any call, or it closes the selector of one, and
then the same follows it. -/
theorem Shorthand.exists_eq_of_substitute {selector gap arguments : Text}
    (h : Shorthand.pattern.substitute Shorthand.written t =
      selector ++ '}' :: (gap ++ '(' :: (arguments ++ ')' :: r)))
    (hselector : '}' ∉ selector) (hgap : IsGap gap) :
    ∃ selector gap arguments r, t = selector ++ '}' :: (gap ++ '(' :: (arguments ++ ')' :: r)) ∧
      '}' ∉ selector ∧ IsGap gap ∧ ')' ∉ arguments := by
  have hmem : '}' ∈ t := by
    by_contra hnot
    have hnone := Pattern.hits_eq_nil_of_not_mem (p := Shorthand.pattern) hnot fun m => by
      simp [Shorthand.pattern, Shorthand.source]
    rw [Pattern.substitute_of_hits_eq_nil hnone] at h
    exact hnot (h ▸ by simp)
  obtain ⟨front, back, rfl, hfront⟩ := List.eq_append_cons_of_mem hmem
  by_cases hplain : ∀ v, v <:+ front → v ≠ [] → Shorthand.pattern.read? (v ++ '}' :: back) = none
  · have hbrace : '{' ∉ ['}'] := by decide
    rw [Pattern.substitute_append_of_forall hplain, ← List.singleton_append,
      Shorthand.substitute_append_of_not_mem hbrace, List.singleton_append] at h
    obtain ⟨rfl, hback⟩ := Text.eq_of_append_stop_eq hfront hselector h
    have hopened : Shorthand.pattern.substitute Shorthand.written back =
        (gap ++ ['(']) ++ (arguments ++ ')' :: r) := by
      rw [hback]
      simp
    have hopen : ∀ c ∈ gap ++ ['('], ¬ isNameChar c = true :=
      List.forall_mem_append.mpr
        ⟨fun c hc => hgap.not_isNameChar hc, List.forall_mem_singleton.mpr (by decide)⟩
    obtain ⟨w, rfl, -, hw⟩ := Pattern.segments_of_substitute_eq_append hopened (by
      intro m hm s hs hne
      rw [← not_or]
      intro hst
      obtain ⟨c, s, rfl⟩ := List.exists_cons_of_ne_nil hne
      exact hopen c (hs.subset List.mem_cons_self)
        ((Shorthand.isReplacement_of_mem_hits hm).isNameChar_of_cons hst))
    have hclosed : ')' ∈ w := by
      by_contra hnot
      have hnone := Pattern.hits_eq_nil_of_not_mem (p := Shorthand.pattern) hnot fun m => by
        simp [Shorthand.pattern, Shorthand.source]
      rw [Pattern.substitute_of_hits_eq_nil hnone] at hw
      exact hnot (hw ▸ by simp)
    obtain ⟨arguments', r', rfl, harguments⟩ := List.eq_append_cons_of_mem hclosed
    exact ⟨front, gap, arguments', r', by simp, hfront, hgap, harguments⟩
  · -- A call begins before the brace, which closes its selector.
    simp only [not_forall] at hplain
    obtain ⟨v, hv, -, hread⟩ := hplain
    obtain ⟨⟨m, r'⟩, hm⟩ := Option.ne_none_iff_exists'.mp hread
    obtain ⟨heq, hgroup, hsel, hgap', harguments⟩ := Shorthand.read?_eq_some_iff.mp hm
    have hnot : '}' ∉ v := fun hmem => hfront (hv.subset hmem)
    have hnot' : '}' ∉ '{' :: (m.group.source ++ ':' :: m.selector) := by
      have hgroup : '}' ∉ m.group.source := hgroup.not_mem (by decide)
      simp [hgroup, hsel]
    have hsource : v ++ '}' :: back = ('{' :: (m.group.source ++ ':' :: m.selector)) ++
        '}' :: (m.gap ++ '(' :: (m.arguments ++ ')' :: r')) := by
      rw [heq]
      simp [Shorthand.source]
    obtain ⟨-, rfl⟩ := Text.eq_of_append_stop_eq hnot hnot' hsource
    exact ⟨front, m.gap, m.arguments, r', rfl, hfront, hgap', harguments⟩

/-- Where no call that is written out holds a brace, none comes about. -/
theorem Shorthand.hits_substitute_eq_nil
    (hpieces : ∀ m ∈ Shorthand.pattern.hits t, '{' ∉ m.written) :
    Shorthand.pattern.hits (Shorthand.pattern.substitute Shorthand.written t) = [] := by
  apply Pattern.hits_eq_nil
  rintro s ⟨before, hbefore⟩
  cases hread : Shorthand.pattern.read? s with
  | none => rfl
  | some out =>
    obtain ⟨m, r⟩ := out
    obtain ⟨rfl, hgroup, hselector, hgap, -⟩ := Shorthand.read?_eq_some_iff.mp hread
    have hsource : Shorthand.pattern.substitute Shorthand.written t = before ++ '{' ::
        ((m.group.source ++ [':']) ++
          (m.selector ++ '}' :: (m.gap ++ '(' :: (m.arguments ++ ')' :: r)))) := by
      rw [← hbefore]
      simp [Shorthand.source]
    have hplain := (Pattern.segments_of_substitute_eq_cons hsource).resolve_right (by
      rintro ⟨a, ha, x, y, u, hwritten, -⟩
      exact hpieces a ha (hwritten ▸ by simp))
    obtain ⟨left, u, -, hnone, hu⟩ := hplain
    obtain ⟨w, rfl, -, hw⟩ := Pattern.segments_of_substitute_eq_append hu
      fun a ha s hs hne => (Shorthand.isReplacement_of_mem_hits ha).not_isPrefix_of_group hgroup
        (List.forall_mem_nil _) (by decide) (by decide) (by decide) hs hne
    obtain ⟨selector, gap, arguments, r', rfl, hselector', hgap', harguments⟩ :=
      Shorthand.exists_eq_of_substitute hw hselector hgap
    have hsome : Shorthand.pattern.read? ('{' :: ((m.group.source ++ [':']) ++ (selector ++ '}' ::
        (gap ++ '(' :: (arguments ++ ')' :: r'))))) = some (⟨m.group, selector, gap, arguments⟩, r') :=
      Shorthand.read?_eq_some_iff.mpr
        ⟨by simp [Shorthand.source], hgroup, hselector', hgap', harguments⟩
    rw [hnone] at hsome
    exact absurd hsome (by simp)

/-- Writing out dispatchers brings about no declaration, and leaves none. -/
theorem Declaration.hits_substitute_declaration {single : Declaration → Text}
    (hpieces : ∀ d ∈ Declaration.pattern.hits t, IsReplacement (single d) ∧ '{' ∉ single d ∧
      Text.EndsOutside isLead (single d)) :
    Declaration.pattern.hits (Declaration.pattern.substitute single t) = [] := by
  induction t using Declaration.pattern.scan_induction with
  | nil => simp
  | plain c t hc ih =>
    rw [Pattern.hits_of_read?_eq_none hc] at hpieces
    rw [Pattern.substitute_of_read?_eq_none hc, hits_cons, ih hpieces, List.append_nil]
    cases hhere : here? (c :: Declaration.pattern.substitute single t) with
    | none => rfl
    | some d =>
      have hstood := here?_of_here?_substitute hc (fun d hd => (hpieces d hd).1) hhere
      rw [here?, hc] at hstood
      exact absurd hstood (by simp)
  | hit t d r ht ih =>
    rw [Pattern.hits_of_read? ht, List.forall_mem_cons] at hpieces
    obtain ⟨⟨-, hbrace, hends⟩, hrest⟩ := hpieces
    rw [Pattern.substitute_of_read? ht, hits_append_of_endsOutside hbrace hends]
    exact ih hrest

/-- A list of parameters may have blanks at its end. -/
theorem isParameterList_append {list gap : Text} (h : isParameterList list = true)
    (hgap : IsGap gap) : isParameterList (list ++ gap) = true := by
  unfold isParameterList at h ⊢
  rw [Bool.or_eq_true] at h ⊢
  rcases h with hblank | hpieces
  · exact Or.inl (by simpa [hblank] using hgap)
  · right
    have hsep : ',' ∉ gap := hgap.not_mem (by decide)
    obtain ⟨front, last, hlist, happend⟩ := Text.pieces_append hsep list
    have hlast : isParameter (last ++ gap) = isParameter last := by
      simp only [isParameter, Parameter.ofDeclared, Text.trim_append hgap]
    rw [hlist, List.all_append] at hpieces
    rw [happend, List.all_append]
    simpa [hlast] using hpieces

/-- A declaration that begins in what is written for a call begins in its arguments and reaches to
their end: the selector holds no closing brace. -/
theorem Declaration.unclosed_isSuffix_arguments (hd : Declaration.pattern.read? t = some (d, r))
    {m : Shorthand} (hname : IsName m.group.name) (hselector : '}' ∉ m.selector) {before after : Text}
    (h : m.written = before ++ (d.unclosed ++ ')' :: after)) (hargs : ')' ∉ m.arguments) :
    d.unclosed <:+ m.arguments.trim := by
  obtain ⟨-, hgap, hgroup, -⟩ := Declaration.read?_eq_some_iff.mp hd
  have hcalled : '}' ∉ m.group.name ++ '(' :: m.selector.trim := by
    have hname : '}' ∉ m.group.name := hname.not_mem (by decide)
    have hselector : '}' ∉ m.selector.trim := fun hmem =>
      hselector (m.selector.trim_isInfix.subset hmem)
    simp [hname, hselector]
  obtain ⟨rest, hrest⟩ : ∃ rest, d.unclosed = 'f' :: rest := ⟨_, rfl⟩
  by_cases hempty : m.arguments.trim = []
  · have hwritten : m.written = (m.group.name ++ '(' :: m.selector.trim) ++ [')'] := by
      simp [Shorthand.written, hempty]
    have hmem : '}' ∈ m.written := by simp [h, unclosed]
    rw [hwritten] at hmem
    rcases List.mem_append.mp hmem with hmem | hmem
    · exact absurd hmem hcalled
    · exact absurd hmem (by decide)
  · have hwritten : m.written = (m.group.name ++ '(' :: m.selector.trim) ++
        ',' :: ' ' :: (m.arguments.trim ++ [')']) := by
      simp [Shorthand.written_of_arguments hempty]
    rw [hwritten] at h
    rcases List.append_eq_append_iff.mp h with ⟨y, -, hy⟩ | ⟨y, hy, hy'⟩
    · rw [hrest] at hy
      rcases y with _ | ⟨_, _ | ⟨_, y⟩⟩
      · exact absurd (List.cons.inj hy).1 (by decide)
      · exact absurd (List.cons.inj (List.cons.inj hy).2).1 (by decide)
      · have hsplit : m.arguments.trim ++ ')' :: [] = (y ++ d.unclosed) ++ ')' :: after := by
          rw [hrest, List.append_assoc]
          exact (List.cons.inj (List.cons.inj hy).2).2
        have hclose : ')' ∉ m.arguments.trim := fun hmem =>
          hargs (m.arguments.trim_isInfix.subset hmem)
        obtain ⟨heq, -⟩ := (List.append_cons_inj_of_notMem hclose (by simp)).mp hsplit
        exact ⟨y, heq.symm⟩
    · -- The comma after the selector would stand in the group of the declaration.
      have hnot : '}' ∉ y ++ [','] := by
        have hy : '}' ∉ y := fun hmem => hcalled (hy ▸ List.mem_append_right before hmem)
        simp [hy]
      have hsplit : (y ++ [',']) ++ ' ' :: (m.arguments.trim ++ [')']) =
          (d.lead ++ '{' :: d.group.source) ++ '}' :: ((d.space ++ '(' :: d.list) ++ ')' :: after) := by
        rw [List.append_assoc, List.singleton_append, ← hy', unclosed, List.append_assoc,
          List.cons_append]
      have hcomma : ',' ∈ d.lead ++ '{' :: d.group.source :=
        (Text.isPrefix_of_append_eq hsplit hnot).subset (by simp)
      have hkeyword : ',' ∉ keyword := by decide
      have hgap : ',' ∉ d.gap := hgap.not_mem (by decide)
      have hgroup : ',' ∉ d.group.source := hgroup.not_mem (by decide)
      simp [lead, hkeyword, hgap, hgroup] at hcomma

/-- A declaration in what is written for a call has stood in the text: blanks that are trimmed from
the arguments belong to its list. -/
theorem Declaration.hits_ne_nil_of_unclosed_isSuffix (hd : Declaration.pattern.read? u = some (d, r))
    {m : Shorthand} (hm : m ∈ Shorthand.pattern.hits t)
    (h : d.unclosed <:+ m.arguments.trim) : Declaration.pattern.hits t ≠ [] := by
  obtain ⟨front, back, harguments, -, hback⟩ := m.arguments.exists_eq_trim
  obtain ⟨-, hgap, hgroup, hspace, hlist, hparameters⟩ := Declaration.read?_eq_some_iff.mp hd
  let whole : Declaration := { d with list := d.list ++ back }
  have hwhole : whole.source <:+: t := by
    obtain ⟨kept, hkept⟩ := h
    have hsource : whole.source = d.unclosed ++ (back ++ [')']) := by
      rw [source_eq_unclosed]
      simp [whole, unclosed, lead]
    have hin : whole.source <:+: m.source := by
      refine ⟨['{'] ++ (m.group.source ++ ([':'] ++ (m.selector ++ (['}'] ++ (m.gap ++ (['('] ++
        (front ++ kept))))))), [], ?_⟩
      rw [hsource, Shorthand.source, harguments, ← hkept]
      simp only [List.append_assoc, List.append_nil]
    exact hin.trans (Pattern.source_isInfix_of_mem_hits hm)
  obtain ⟨before, after, hsplit⟩ := hwhole
  have hread : Declaration.pattern.read? (whole.source ++ after) = some (whole, after) := by
    refine Declaration.read?_eq_some_iff.mpr ⟨rfl, hgap, hgroup, hspace, ?_,
      isParameterList_append hparameters hback⟩
    refine List.forall_mem_append.mpr ⟨hlist, fun c hc => ?_⟩
    simp [isListChar, hback c hc]
  intro hnil
  have hnone := Pattern.read?_eq_none_of_hits_eq_nil (r := whole.source ++ after) hnil
    ⟨before, by rw [← hsplit, List.append_assoc]⟩
  rw [hread] at hnone
  exact Option.some_ne_none _ hnone

/-- A declaration that begins in what is written for a call has stood in the text, too. -/
theorem Declaration.hits_ne_nil_of_begins_in_written
    (hd : Declaration.pattern.read? u = some (d, r)) {m : Shorthand}
    (hm : m ∈ Shorthand.pattern.hits t) {x y v : Text} (hwritten : m.written = x ++ c :: y)
    (h : d.source ++ r = c :: y ++ v) : Declaration.pattern.hits t ≠ [] := by
  obtain ⟨hname, hselector, hargs⟩ := Pattern.forall_mem_hits (P := fun m : Shorthand =>
    IsName m.group.name ∧ '}' ∉ m.selector ∧ ')' ∉ m.arguments) Shorthand.delimits_of_read? m hm
  have hclosed : ')' ∈ c :: y := by
    have hlast := m.getLast?_written
    rw [hwritten, List.getLast?_append_of_ne_nil _ (by simp)] at hlast
    exact List.mem_of_getLast? hlast
  have hnot := close_not_mem_unclosed hd
  rw [source_eq_unclosed, List.append_assoc, List.singleton_append] at h
  rcases List.append_eq_append_iff.mp h with ⟨z, hz, hz'⟩ | ⟨z, hz, -⟩
  · cases z with
    | nil =>
      rw [List.append_nil] at hz
      exact absurd (hz ▸ hclosed) hnot
    | cons e z =>
      obtain ⟨rfl, -⟩ := List.cons.inj hz'
      rw [hz] at hwritten
      exact hits_ne_nil_of_unclosed_isSuffix hd hm
        (unclosed_isSuffix_arguments hd hname hselector hwritten hargs)
  · exact absurd (hz ▸ List.mem_append_left z hclosed) hnot

/-- Writing out calls brings about no declaration. -/
theorem Declaration.hits_substitute_shorthand (h : Declaration.pattern.hits t = []) :
    Declaration.pattern.hits (Shorthand.pattern.substitute Shorthand.written t) = [] := by
  apply Pattern.hits_eq_nil
  rintro s ⟨before, hbefore⟩
  cases hread : Declaration.pattern.read? s with
  | none => rfl
  | some out =>
    obtain ⟨d, r⟩ := out
    obtain ⟨rest, hsource⟩ : ∃ rest, d.source = 'f' :: rest := ⟨_, rfl⟩
    obtain ⟨heq, -⟩ := Declaration.read?_eq_some_iff.mp hread
    rw [heq, hsource, List.cons_append] at hbefore
    rcases Pattern.segments_of_substitute_eq_cons hbefore.symm with
      ⟨left, u, hsegs, hnone, hu⟩ | ⟨m, hm, x, y, u, hwritten, hy⟩
    · have hhere : here? ('f' :: Shorthand.pattern.substitute Shorthand.written u) = some d := by
        rw [hu, ← List.cons_append, ← hsource, here?_eq_some_iff]
        exact ⟨r, heq ▸ hread⟩
      have hstood := here?_of_here?_substitute hnone
        (fun m hm => Shorthand.isReplacement_of_mem_hits hm) hhere
      have hscan : Shorthand.pattern.segments t = left ++ Shorthand.pattern.segments ('f' :: u) := by
        rw [hsegs, Pattern.segments_of_read?_eq_none hnone]
      have hsuffix := (Pattern.isSuffix_of_segments_eq hscan).1
      rw [here?, Pattern.read?_eq_none_of_hits_eq_nil h hsuffix] at hstood
      exact absurd hstood (by simp)
    · have hbegins : d.source ++ r = 'f' :: y ++ Shorthand.pattern.substitute Shorthand.written u := by
        rw [List.cons_append, ← hy, ← List.cons_append, ← hsource]
      exact absurd h (hits_ne_nil_of_begins_in_written hread hm hwritten hbegins)

end JsfxSugar.Dispatch
