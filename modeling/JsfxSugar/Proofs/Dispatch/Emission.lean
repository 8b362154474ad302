import JsfxSugar.Proofs.Dispatch.Keywords

/-! The dispatchers in the finished text. A dispatcher stays in one piece when calls are written out
around it, even where a call takes its parameters for arguments. -/

namespace JsfxSugar.Dispatch

variable {t r u x after : Text} {group : Group}

/-- What keeps a dispatcher in one piece: it holds no braces, and what stands before its first closing
parenthesis is not trimmed. -/
structure IsDefinition (t : Text) : Prop where
  isReplacement : IsReplacement t
  open_not_mem : '{' ∉ t
  close_not_mem : '}' ∉ t
  endsOutside : Text.EndsOutside Text.isBlank t
  exists_eq : ∃ front back, t = front ++ ')' :: back ∧ ')' ∉ front ∧ front ≠ [] ∧
    Text.EndsOutside Text.isBlank front

theorem Group.Named.of_mem_formals (h : group.Named) :
    ∀ t ∈ selectorName :: group.parameters.map Parameter.formal,
      t ≠ [] ∧ ∀ c ∈ t, isNameChar c = true ∨ c = '*' := by
  rw [List.forall_mem_cons, List.forall_mem_map]
  have hselector := isName_selectorName
  refine ⟨⟨hselector.ne_nil, fun c hc => Or.inl (hselector.forall_mem c hc)⟩, fun p hp => ?_⟩
  obtain ⟨hne, hname⟩ := h.parameters p hp
  unfold Parameter.formal
  split
  · refine ⟨by simp, List.forall_mem_append.mpr ⟨fun c hc => Or.inl (hname c hc), ?_⟩⟩
    exact List.forall_mem_singleton.mpr (Or.inr rfl)
  · exact ⟨hne, fun c hc => Or.inl (hname c hc)⟩

theorem Group.Named.isDefinition_dispatcher (h : group.Named) : IsDefinition group.dispatcher := by
  obtain ⟨body, hbody⟩ := group.exists_dispatcher_eq
  have hsignature : Text.EndsOutside Text.isBlank group.signature := by
    apply Text.endsOutside_join
    intro t ht
    obtain ⟨hne, hchars⟩ := h.of_mem_formals t ht
    refine ⟨hne, Text.endsOutside_of_forall fun c hc => ?_⟩
    rcases hchars c hc with hc | rfl
    · exact isBlank_eq_false_of_isNameChar hc
    · decide
  have hclose : ')' ∉ group.signature := by
    intro hmem
    rcases Text.mem_join hmem with hsep | ⟨t, ht, hmem⟩
    · exact absurd hsep (by decide)
    · exact absurd ((h.of_mem_formals t ht).2 ')' hmem) (by decide)
  refine ⟨h.isReplacement_dispatcher, h.not_mem_dispatcher (by decide),
    h.not_mem_dispatcher (by decide), group.endsOutside_dispatcher (by decide),
    keyword ++ ' ' :: (group.name ++ '(' :: group.signature), body ++ [';'], ?_, ?_, ?_, ?_⟩
  · simp only [hbody, List.append_assoc, List.cons_append]
  · have hkeyword : ')' ∉ keyword := by decide
    have hname : ')' ∉ group.name := h.name.not_mem (by decide)
    simp [hkeyword, hname, hclose]
  · simp
  · have hsplit : keyword ++ ' ' :: (group.name ++ '(' :: group.signature) =
        (keyword ++ ' ' :: (group.name ++ ['('])) ++ group.signature := by simp
    have hne : group.signature ≠ [] := Text.join_ne_nil _ (by decide) _
    rw [hsplit, Text.endsOutside_append hne]
    exact hsignature

theorem IsDefinition.startsOutside (h : IsDefinition t) : Text.StartsOutside Text.isBlank t :=
  h.isReplacement.startsOutside_blank (Or.inl List.prefix_rfl)

theorem Shorthand.selector_isInfix_written (m : Shorthand) : m.selector.trim <:+: m.written := by
  rw [written, List.append_assoc (m.group.name ++ ['('] ++ m.selector.trim)]
  exact ⟨_, _, rfl⟩

theorem Shorthand.written_of_arguments {m : Shorthand} (h : m.arguments.trim ≠ []) :
    m.written = (m.group.name ++ '(' :: (m.selector.trim ++ [',', ' '])) ++
      (m.arguments.trim ++ [')']) := by
  simp [written, h]

/-- No definition begins in the group of a shorthand: what comes next is a colon, not a
parenthesis. -/
theorem IsDefinition.not_begins_in_group (h : IsDefinition t) {group : Padded}
    (hgroup : group.Proper) {y rest : Text} (hy : y <:+ '{' :: group.source)
    (heq : t ++ after = y ++ ':' :: rest) : False := by
  have hprefix : y ++ ':' :: rest <+: t ∨ t <+: y ++ ':' :: rest :=
    Or.inr (heq ▸ List.prefix_append t after)
  obtain ⟨run, stop, more, hsplit, hrun, -, -, hstop, hor⟩ :=
    h.isReplacement.of_isPrefix (c := ':') hprefix (by simp) (by decide)
  have hmem : ':' ∈ y ++ [':'] := by simp
  obtain ⟨run', d, more', hfirst, hrun', hd⟩ := Text.exists_eq_append_cons
    (show isPaddedChar ':' = false by decide) hmem
  have hd' : d = '{' ∨ d = ':' := by
    have hmem : d ∈ y ++ [':'] := by
      rw [hfirst]
      simp
    rcases List.mem_append.mp hmem with hmem | hmem
    · rcases List.mem_cons.mp (hy.subset hmem) with rfl | hmem
      · exact Or.inl rfl
      · rw [hgroup.isPaddedChar d hmem] at hd
        exact Bool.noConfusion hd
    · exact Or.inr (List.mem_singleton.mp hmem)
  have hsame : run' ++ d :: (more' ++ rest) = run ++ stop :: more := by
    calc run' ++ d :: (more' ++ rest) = (run' ++ d :: more') ++ rest := by simp
      _ = y ++ ':' :: rest := by rw [← hfirst]; simp
      _ = run ++ stop :: more := hsplit
  obtain ⟨-, rfl, -⟩ := Text.eq_of_append_cons_eq hrun' hrun hd hstop hsame
  rcases hd' with rfl | rfl <;> simp at hor

/-- A definition that begins within a shorthand begins in the selector, and then ends there, or it
begins in the arguments, and then the shorthand ends at its first closing parenthesis. -/
theorem IsDefinition.begins_in_shorthand (h : IsDefinition t) {m : Shorthand}
    (hm : Shorthand.pattern.read? u = some (m, r)) (hx : x <:+ m.source) (hne : x ≠ [])
    (heq : t ++ after = x ++ r) :
    t <:+: m.selector ∨
      ∃ front back, t = front ++ ')' :: back ∧ front ≠ [] ∧ Text.EndsOutside Text.isBlank front ∧
        front <:+ m.arguments ∧ r = back ++ after := by
  obtain ⟨-, hgroup, hselector, hgap, harguments⟩ := Shorthand.read?_eq_some_iff.mp hm
  obtain ⟨before, hbefore⟩ := hx
  -- The first character of a definition belongs to a name.
  have hfirst : ∀ c y, x = c :: y → isNameChar c = true := by
    intro c y hx
    obtain ⟨d, rest, ht, hd⟩ := h.isReplacement.exists_cons
    rw [ht, hx] at heq
    rwa [← (List.cons.inj heq).1]
  have hsource : before ++ x = ('{' :: m.group.source) ++ ':' :: (m.selector ++ '}' :: (m.gap ++
      '(' :: (m.arguments ++ [')']))) := by
    rw [hbefore]
    simp [Shorthand.source]
  rcases List.append_eq_append_iff.mp hsource with ⟨y, hy, rfl⟩ | ⟨z, -, hz⟩
  · rw [List.append_assoc, List.cons_append] at heq
    exact (h.not_begins_in_group hgroup ⟨before, hy.symm⟩ heq).elim
  rcases z with _ | ⟨_, z⟩
  · exact absurd (hfirst _ _ hz.symm) (by decide)
  rcases List.append_eq_append_iff.mp (List.cons.inj hz).2 with ⟨w, rfl, hw⟩ | ⟨y, hy, rfl⟩
  · rcases w with _ | ⟨_, w⟩
    · exact absurd (hfirst _ _ hw.symm) (by decide)
    rcases List.append_eq_append_iff.mp (List.cons.inj hw).2 with ⟨v, rfl, hv⟩ | ⟨y, hy, rfl⟩
    · rcases v with _ | ⟨_, v⟩
      · exact absurd (hfirst _ _ hv.symm) (by decide)
      rcases List.append_eq_append_iff.mp (List.cons.inj hv).2 with ⟨q, rfl, hq⟩ | ⟨y, hy, rfl⟩
      · rcases q with _ | ⟨_, q⟩
        · exact absurd (hfirst _ _ hq.symm) (by decide)
        · exact absurd (List.append_eq_nil_iff.mp (List.cons.inj hq).2.symm).2 hne
      · obtain ⟨front, back, rfl, hfront, hnil, hends⟩ := h.exists_eq
        have hargs : ')' ∉ y := fun hmem => harguments (hy ▸ List.mem_append_right v hmem)
        have hsplit : front ++ ')' :: (back ++ after) = y ++ ')' :: r := by
          simpa using heq
        obtain ⟨rfl, hr⟩ := Text.eq_of_append_stop_eq hfront hargs hsplit
        exact Or.inr ⟨front, back, rfl, hnil, hends, ⟨v, hy.symm⟩, hr.symm⟩
    · rcases y with _ | ⟨e, y⟩
      · exact absurd (hfirst _ _ rfl) (by decide)
      · have hname := hfirst e _ rfl
        have hblank := hgap e (hy ▸ List.mem_append_right w List.mem_cons_self)
        rw [isBlank_eq_false_of_isNameChar hname] at hblank
        exact absurd hblank Bool.false_ne_true
  · rw [List.append_assoc, List.cons_append] at heq
    have hwithin := Text.isPrefix_of_append_eq heq h.close_not_mem
    have hselector : y <:+ m.selector := ⟨z, hy.symm⟩
    exact Or.inl (hwithin.isInfix.trans hselector.isInfix)

theorem Shorthand.substitute_append_of_not_mem {single : Shorthand → Text} (h : '{' ∉ t) :
    pattern.substitute single (t ++ u) = t ++ pattern.substitute single u :=
  Pattern.substitute_append_of_forall fun _ => read?_append_eq_none h

/-- Writing out calls keeps a definition in one piece. -/
theorem IsDefinition.isInfix_substitute (h : IsDefinition t) (hu : t <:+: u) :
    t <:+: Shorthand.pattern.substitute Shorthand.written u := by
  have hne : t ≠ [] := by
    obtain ⟨front, back, rfl, -⟩ := h.exists_eq
    simp
  rcases Pattern.segments_of_isInfix hu hne with
    ⟨left, after, hsegs⟩ | ⟨left, m, r, x, after, hsegs, hread, hx, hxne, hrest⟩
  · have hsuffix := Pattern.substitute_isSuffix Shorthand.written hsegs
    rw [Shorthand.substitute_append_of_not_mem h.open_not_mem] at hsuffix
    exact (List.prefix_append _ _).isInfix.trans hsuffix.isInfix
  · have hsuffix := Pattern.single_append_isSuffix Shorthand.written hsegs
    refine List.IsInfix.trans ?_ hsuffix.isInfix
    rcases h.begins_in_shorthand hread hx hxne hrest with
      hselector | ⟨front, back, rfl, hfront, hends, hargs, rfl⟩
    · have htrim := Text.isInfix_trim hselector hne h.startsOutside h.endsOutside
      have hwritten := htrim.trans m.selector_isInfix_written
      exact hwritten.trans (List.prefix_append _ _).isInfix
    · have hstart := (Text.startsOutside_append hfront).mp h.startsOutside
      obtain ⟨kept, hkept⟩ := Text.isSuffix_trim hargs hfront hstart hends
      have hback : '{' ∉ back := fun hmem => h.open_not_mem (by simp [hmem])
      have hargs : m.arguments.trim ≠ [] := by
        rw [← hkept]
        simp [hfront]
      rw [Shorthand.written_of_arguments hargs, ← hkept,
        Shorthand.substitute_append_of_not_mem hback]
      exact ⟨m.group.name ++ '(' :: (m.selector.trim ++ [',', ' ']) ++ kept, _, by simp; rfl⟩

/-- Groups that are added have names of their own, which the table did not have. -/
theorem nodup_of_addGroups {ms : List Declaration} {table table' : Table}
    (h : ms.foldlM (fun table m => table.addGroup m.group.name m.parameters) table = .ok table') :
    (ms.map (·.group.name)).Nodup ∧ ∀ m ∈ ms, m.group.name ∉ table := by
  induction ms generalizing table with
  | nil => simp
  | cons m ms ih =>
    rw [List.foldlM_cons, Table.addGroup] at h
    split at h
    · simp [bind, Except.bind] at h
    · rename_i hnew
      obtain ⟨hnodup, hmem⟩ := ih h
      have hother : ∀ m' ∈ ms, m'.group.name ≠ m.group.name ∧ m'.group.name ∉ table := by
        intro m' hm'
        have hm' := hmem m' hm'
        rw [Std.ExtTreeMap.mem_insert, Std.compare_eq_iff_eq, not_or] at hm'
        exact ⟨Ne.symm hm'.1, hm'.2⟩
      rw [List.map_cons, List.nodup_cons, List.forall_mem_cons]
      refine ⟨⟨fun hname => ?_, hnodup⟩, hnew, fun m' hm' => (hother m' hm').2⟩
      obtain ⟨m', hm', heq⟩ := List.mem_map.mp hname
      exact (hother m' hm').1 heq

/-- The groups of a source are those that it declares, also when its call sites are numbered. -/
theorem Enrolled.exists_group_iff {declared table : Table} {calls : List CallSite}
    (h : Enrolled declared calls table) (hdeclared : declareGroups t = .ok declared) {name : Text} :
    (∃ group, table[name]? = some group) ↔
      name ∈ (Declaration.pattern.hits t).map (·.group.name) := by
  have hstart := declareGroups_eq_ok hdeclared name
  have hparameters := h.parameters_eq name
  constructor
  · rintro ⟨group, hgroup⟩
    rw [hgroup, Option.map_some, eq_comm, Option.map_eq_some_iff] at hparameters
    obtain ⟨start, hname, -⟩ := hparameters
    obtain ⟨d, hd, rfl, -⟩ := (hstart start).mp hname
    exact List.mem_map_of_mem hd
  · intro hname
    obtain ⟨d, hd, rfl⟩ := List.mem_map.mp hname
    rw [(hstart d.declared).mpr ⟨d, hd, rfl, rfl⟩, Option.map_some,
      Option.map_eq_some_iff] at hparameters
    obtain ⟨group, hgroup, -⟩ := hparameters
    exact ⟨group, hgroup⟩

theorem Synthesis.Writes.exists_group_iff {s : Synthesis} (h : s.Writes t) {name : Text} :
    (∃ group, s.table[name]? = some group) ↔
      name ∈ (Declaration.pattern.hits t).map (·.group.name) := by
  obtain ⟨table, hdeclared, henrolled⟩ := h.exists_declared
  exact henrolled.exists_group_iff hdeclared

/-- Each declaration of a source brings in a group of its own, and the declarations that are left when
the call sites are numbered are replaced by the dispatchers of their groups, which stand in the text
in the end. These are all declarations but those whose keyword a call site takes for its function. -/
theorem synthesize_declarations {s : Synthesis} (h : synthesize t = .ok s) :
    let declared := Declaration.pattern.hits t
    let kept := Declaration.pattern.hits (numberedText t)
    let taken := takenDeclarations (CallSite.pattern.segments t)
    s.text = Shorthand.pattern.substitute Shorthand.written
      (Declaration.pattern.substitute (Declaration.written s.table) (numberedText t)) ∧
    (declared.map (·.group.name)).Nodup ∧
    (∀ name : Text, (∃ group, s.table[name]? = some group) ↔
      name ∈ declared.map (·.group.name)) ∧
    kept.Sublist declared ∧ declared.Perm (kept ++ taken) ∧ (kept = declared ↔ taken = []) ∧
    ∀ d ∈ kept, ∃ group, s.table[d.group.name]? = some group ∧
      d.written s.table = group.dispatcher ∧ group.dispatcher <:+: s.text := by
  intro declared kept taken
  have hwrites := synthesize_writes h
  obtain ⟨hkept, hperm⟩ := Declaration.hits_numbered (CallSite.pattern.hits t) t
  refine ⟨hwrites.text_eq, ?_, fun name => hwrites.exists_group_iff, hkept, hperm, ?_, ?_⟩
  · obtain ⟨table, hdeclared, -⟩ := hwrites.exists_declared
    exact (nodup_of_addGroups hdeclared).1
  · have hlength := hperm.length_eq
    rw [List.length_append] at hlength
    constructor
    · intro heq
      rw [← List.length_eq_zero_iff]
      have hsame := congrArg List.length heq
      simp only [kept, declared, taken] at hsame ⊢
      unfold numberedText at hsame
      omega
    · intro hnil
      apply hkept.eq_of_length
      simp only [taken] at hnil
      rw [hnil] at hlength
      exact hlength.symm
  · intro d hd
    obtain ⟨group, hgroup, hdispatcher, hnamed⟩ := hwrites.exists_dispatcher hd
    refine ⟨group, hgroup, hdispatcher, ?_⟩
    rw [hwrites.text_eq]
    apply hnamed.isDefinition_dispatcher.isInfix_substitute
    rw [← hdispatcher]
    exact Pattern.single_isInfix_substitute hd

/-- Two declarations, with a call site before the second one that takes another word. -/
theorem synthesize_declarations_low_high :
    let t := "function {low}(x)\n{low} f;\nfunction {high}(y)\n".toList
    ∃ s, synthesize t = .ok s ∧ (Declaration.pattern.hits t).length = 2 ∧
      ∀ d ∈ Declaration.pattern.hits t, ∃ group, s.table[d.group.name]? = some group ∧
        group.dispatcher <:+: s.text := by
  intro t
  obtain ⟨s, hs⟩ : ∃ s, synthesize t = .ok s := exists_eq_ok_of_isSome (by decide +kernel)
  have htaken : takenDeclarations (CallSite.pattern.segments t) = [] := by decide +kernel
  obtain ⟨-, -, -, -, -, hkept, hall⟩ := synthesize_declarations hs
  refine ⟨s, hs, by decide +kernel, fun d hd => ?_⟩
  rw [← hkept.mpr htaken] at hd
  obtain ⟨group, hgroup, -, hwritten⟩ := hall d hd
  exact ⟨group, hgroup, hwritten⟩

/-- A group that is named in a comment before a declaration takes its keyword for a function, and the
dispatcher of the declaration is nowhere in the text. -/
theorem not_forall_dispatcher_isInfix :
    ¬ ∀ (t : Text) (s : Synthesis), synthesize t = .ok s → ∀ d ∈ Declaration.pattern.hits t,
      ∀ group, s.table[d.group.name]? = some group → group.dispatcher <:+: s.text := by
  intro hall
  let t := "function {a}(x)\n// see {a}\nfunction {g}(y)\n".toList
  let d : Declaration := ⟨[' '], ⟨[], ['g'], []⟩, [], ['y']⟩
  obtain ⟨s, hs⟩ : ∃ s, synthesize t = .ok s := exists_eq_ok_of_isSome (by decide +kernel)
  have hd : d ∈ Declaration.pattern.hits t := by decide +kernel
  have hmissing : ((synthesize t).toOption.bind fun s => (s.table[['g']]?).map fun group =>
      decide (group.dispatcher <:+: s.text)) = some false := by decide +kernel
  rw [hs] at hmissing
  obtain ⟨group, hgroup, hnot⟩ := Option.map_eq_some_iff.mp hmissing
  exact of_decide_eq_false hnot (hall t s hs d hd group hgroup)

end JsfxSugar.Dispatch
