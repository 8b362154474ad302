import JsfxSugar.Proofs.Dispatch.Emission

/-! Which call sites are left when markers are replaced. A group in braces takes the next word for its
function, whether the word has stood there or is written for a marker, so that call sites come about
exactly where a marker stands right behind such a group. -/

namespace JsfxSugar.Dispatch

variable {α : Type} {p : Pattern α} {single : α → Text} {t u r front : Text} {c : Char}

/-- A group in braces, and maybe blanks: the next word will be its function. -/
def IsOpenGroup (t : Text) : Prop :=
  ∃ (group : Padded) (gap : Text), t = '{' :: (group.source ++ '}' :: gap) ∧ group.Proper ∧ IsGap gap

/-- The characters of a group in braces and of the word after it. -/
def isGroupChar (c : Char) : Bool :=
  isPaddedChar c || c = '{' || c = '}'

theorem isGroupChar_of_isPaddedChar (h : isPaddedChar c = true) : isGroupChar c = true := by
  simp [isGroupChar, h]

namespace IsOpenGroup

theorem forall_mem (h : IsOpenGroup front) : ∀ c ∈ front, isGroupChar c = true := by
  obtain ⟨group, gap, rfl, hgroup, hgap⟩ := h
  intro c hc
  simp only [List.mem_cons, List.mem_append] at hc
  rcases hc with rfl | hc | rfl | hc
  · decide
  · exact isGroupChar_of_isPaddedChar (hgroup.isPaddedChar c hc)
  · decide
  · exact isGroupChar_of_isPaddedChar (isPaddedChar_of_isBlank (hgap c hc))

theorem exists_cons (h : IsOpenGroup front) : ∃ inner, front = '{' :: inner ∧ '{' ∉ inner := by
  obtain ⟨group, gap, rfl, hgroup, hgap⟩ := h
  have hgroup : '{' ∉ group.source := hgroup.not_mem (by decide)
  have hgap : '{' ∉ gap := hgap.not_mem (by decide)
  exact ⟨_, rfl, by simp [hgroup, hgap]⟩

theorem brace_mem (h : IsOpenGroup front) : '{' ∈ front ++ [c] := by
  obtain ⟨group, gap, rfl, -⟩ := h
  simp

/-- A character that stands neither in groups nor in names does not stand in a group and the first
letter of its function. -/
theorem not_mem_concat (h : IsOpenGroup front) (hc : isNameChar c = true) {d : Char}
    (hd : isGroupChar d = false) : d ∉ front ++ [c] := by
  intro hmem
  rcases List.mem_append.mp hmem with hmem | hmem
  · rw [h.forall_mem d hmem] at hd
    exact Bool.noConfusion hd
  · obtain rfl := List.mem_singleton.mp hmem
    rw [isGroupChar_of_isPaddedChar (isPaddedChar_of_isNameChar hc)] at hd
    exact Bool.noConfusion hd

theorem isSome_read? (h : IsOpenGroup front) (hc : isNameChar c = true) (r : Text) :
    (CallSite.pattern.read? (front ++ c :: r)).isSome := by
  obtain ⟨group, gap, rfl, hgroup, hgap⟩ := h
  have hfunction : IsName ((c :: r).takeWhile isNameChar) := by
    refine ⟨by simp [hc], fun d hd => ?_⟩
    exact List.all_eq_true.mp List.all_takeWhile d hd
  let m : CallSite := ⟨group, gap, (c :: r).takeWhile isNameChar⟩
  have hread : CallSite.pattern.read? ('{' :: (group.source ++ '}' :: gap) ++ c :: r) =
      some (m, (c :: r).dropWhile isNameChar) := by
    refine CallSite.read?_eq_some_iff.mpr ⟨?_, hgroup, hgap, hfunction, Text.startsOutside_dropWhile⟩
    simp only [m, CallSite.source, List.append_assoc, List.takeWhile_append_dropWhile]
    simp
  rw [hread]
  rfl

end IsOpenGroup

/-- A text has no call sites exactly when no word begins right behind a group in braces. -/
theorem CallSite.hits_eq_nil_iff : CallSite.pattern.hits t = [] ↔
    ∀ front c, IsOpenGroup front → isNameChar c = true → ¬ front ++ [c] <:+: t := by
  constructor
  · rintro h front c hfront hc ⟨before, after, rfl⟩
    have hsome := hfront.isSome_read? hc after
    have hnone := Pattern.read?_eq_none_of_hits_eq_nil (r := front ++ c :: after) h
      ⟨before, by simp⟩
    rw [hnone] at hsome
    exact Bool.noConfusion hsome
  · intro h
    apply Pattern.hits_eq_nil
    rintro s ⟨before, rfl⟩
    cases hread : CallSite.pattern.read? s with
    | none => rfl
    | some out =>
      obtain ⟨m, r⟩ := out
      obtain ⟨rfl, hgroup, hgap, hfunction, -⟩ := CallSite.read?_eq_some_iff.mp hread
      obtain ⟨c, name, hname, hc⟩ := hfunction.exists_cons
      refine absurd ?_ (h ('{' :: (m.group.source ++ '}' :: m.gap)) c ⟨_, _, rfl, hgroup, hgap⟩ hc)
      exact ⟨before, name ++ r, by simp [CallSite.source, hname]⟩

/-- A text that goes along with a replacement begins with a name. -/
theorem IsReplacement.isNameChar_of_cons {piece s : Text} (h : IsReplacement piece)
    (hs : c :: s <+: piece ∨ piece <+: c :: s) : isNameChar c = true := by
  obtain ⟨d, rest, rfl, hd⟩ := h.exists_cons
  rcases hs with ⟨more, hmore⟩ | ⟨more, hmore⟩
  · rw [(List.cons.inj hmore).1]
    exact hd
  · rw [← (List.cons.inj hmore).1]
    exact hd

/-- No replacement begins in the name of a group, nor after it, unless it is a parenthesis or a slash
that comes next. -/
theorem IsReplacement.not_isPrefix_of_group {piece s gap : Text} {group : Padded} {stop : Char}
    (h : IsReplacement piece) (hgroup : group.Proper) (hgap : IsGap gap)
    (hstop : isPaddedChar stop = false) (hopen : stop ≠ '(') (hslash : stop ≠ '/')
    (hs : s <:+ group.source ++ stop :: gap) (hne : s ≠ []) :
    ¬ s <+: piece ∧ ¬ piece <+: s := by
  rw [← not_or]
  intro hst
  obtain ⟨before, hbefore⟩ := hs
  rcases List.append_eq_append_iff.mp hbefore with ⟨y, hy, rfl⟩ | ⟨z, -, hz⟩
  · obtain ⟨run, stop', rest, heq, hrun, -, -, hstop', hor⟩ :=
      h.of_isPrefix (c := stop) hst (by simp) hstop
    have hpadded : ∀ c ∈ y, isPaddedChar c = true := fun c hc =>
      hgroup.isPaddedChar c (hy ▸ List.mem_append_right before hc)
    obtain ⟨-, rfl, -⟩ := Text.eq_of_append_cons_eq hpadded hrun hstop hstop' heq
    rcases hor with hor | hor
    · exact hopen hor
    · exact hslash hor
  · obtain ⟨c, s, rfl⟩ := List.exists_cons_of_ne_nil hne
    have hname := h.isNameChar_of_cons hst
    rcases z with _ | ⟨_, z⟩
    · obtain ⟨rfl, -⟩ := List.cons.inj hz
      rw [isPaddedChar_of_isNameChar hname] at hstop
      exact Bool.noConfusion hstop
    · have hmem : c ∈ gap := (List.cons.inj hz).2 ▸ List.mem_append_right z List.mem_cons_self
      exact hgap.not_isNameChar hmem hname

/-- No marker of a text stands right behind a group in braces. -/
def NoneBehindGroup (p : Pattern α) (t : Text) : Prop :=
  ∀ left front a right, p.segments t = left ++ (front.map .plain ++ .hit a :: right) →
    ¬ IsOpenGroup front

/-- A group and the first letter after it in a text in which markers are replaced: both have stood
there, or the letter was written for a marker, or both were. -/
theorem IsOpenGroup.of_isInfix_substitute (h : IsOpenGroup front) (hc : isNameChar c = true)
    (hpieces : ∀ a ∈ p.hits t, IsReplacement (single a) ∧ Text.EndsOutside isGroupChar (single a))
    (hwithin : front ++ [c] <:+: p.substitute single t) :
    (∃ u, front ++ c :: u <:+ t ∧ p.read? (front ++ c :: u) = none) ∨
    (∃ left a right, p.segments t = left ++ (front.map .plain ++ .hit a :: right)) ∨
    ∃ a ∈ p.hits t, front ++ [c] <:+: single a := by
  obtain ⟨before, after, hsource⟩ := hwithin
  obtain ⟨group, gap, rfl, hgroup, hgap⟩ := id h
  have hsource : p.substitute single t =
      before ++ '{' :: ((group.source ++ '}' :: gap) ++ c :: after) := by
    rw [← hsource]
    simp
  rcases Pattern.segments_of_substitute_eq_cons hsource with
    ⟨left, u, hsegs, hnone, hu⟩ | ⟨a, ha, x, y, u, hsingle, hrest⟩
  · have hbrace : p.segments t = left ++ p.segments ('{' :: u) := by
      rw [hsegs, Pattern.segments_of_read?_eq_none hnone]
    have hrest : p.segments t = (left ++ [.plain '{']) ++ p.segments u := by simp [hsegs]
    obtain ⟨-, hhits⟩ := Pattern.isSuffix_of_segments_eq hrest
    obtain ⟨w, rfl, hgroupSegs, hw⟩ := Pattern.segments_of_substitute_eq_append hu
      fun a ha s hs hne => (hpieces a (hhits a ha)).1.not_isPrefix_of_group hgroup hgap (by decide)
        (by decide) (by decide) hs hne
    cases hread : p.read? w with
    | some out =>
      obtain ⟨a, r⟩ := out
      refine Or.inr (Or.inl ⟨left, a, p.segments r, ?_⟩)
      rw [hsegs, hgroupSegs, Pattern.segments_of_read? hread]
      simp
    | none =>
      cases w with
      | nil => simp at hw
      | cons d w =>
        rw [Pattern.substitute_of_read?_eq_none hread] at hw
        obtain ⟨rfl, -⟩ := List.cons.inj hw
        exact Or.inl ⟨w, (Pattern.isSuffix_of_segments_eq hbrace).1, hnone⟩
  · have hends := (hpieces a ha).2.of_isSuffix ⟨x, hsingle.symm⟩
    have happend : ('{' :: y) ++ p.substitute single u =
        ('{' :: (group.source ++ '}' :: gap)) ++ c :: after := by
      rw [List.cons_append, ← hrest, List.cons_append]
    obtain ⟨more, hmore, -⟩ := hends.exists_eq_append (by simp) h.forall_mem happend
    refine Or.inr (Or.inr ⟨a, ha, x, more, ?_⟩)
    rw [hsingle, hmore]
    simp

/-- A marker that is written behind an open group becomes its function. -/
theorem IsOpenGroup.isInfix_substitute_of_hit (hpieces : ∀ a ∈ p.hits t, IsReplacement (single a))
    {left right : List (Segment α)} {a : α}
    (hsegs : p.segments t = left ++ (front.map .plain ++ .hit a :: right)) :
    ∃ c, isNameChar c = true ∧ front ++ [c] <:+: p.substitute single t := by
  have ha : a ∈ p.hits t := by simp [Pattern.hits, hsegs, Segment.hit?]
  obtain ⟨c, rest, hsingle, hc⟩ := (hpieces a ha).exists_cons
  refine ⟨c, hc, left.flatMap (Segment.text single), rest ++ right.flatMap (Segment.text single), ?_⟩
  rw [Pattern.substitute, hsegs, List.flatMap_append, List.flatMap_append, List.flatMap_cons,
    Pattern.flatMap_text_map_plain]
  simp [Segment.text, hsingle]

/-- Where replacing markers keeps call sites and none is written, the call sites that come about are
those of the markers that stand right behind groups. -/
theorem CallSite.hits_substitute_eq_nil_iff
    (hpieces : ∀ a ∈ p.hits t, IsReplacement (single a) ∧ Text.EndsOutside isGroupChar (single a))
    (hwritten : ∀ front c, IsOpenGroup front → isNameChar c = true → ∀ a ∈ p.hits t,
      front ++ [c] <:+: single a → front ++ [c] <:+: t)
    (hkept : ∀ front c, IsOpenGroup front → isNameChar c = true → front ++ [c] <:+: t →
      ∃ d, isNameChar d = true ∧ front ++ [d] <:+: p.substitute single t) :
    CallSite.pattern.hits (p.substitute single t) = [] ↔
      CallSite.pattern.hits t = [] ∧ NoneBehindGroup p t := by
  simp only [CallSite.hits_eq_nil_iff]
  constructor
  · intro h
    constructor
    · intro front c hfront hc hwithin
      obtain ⟨d, hd, hwithin⟩ := hkept front c hfront hc hwithin
      exact h front d hfront hd hwithin
    · intro left front a right hsegs hfront
      obtain ⟨d, hd, hwithin⟩ :=
        IsOpenGroup.isInfix_substitute_of_hit (fun a ha => (hpieces a ha).1) hsegs
      exact h front d hfront hd hwithin
  · rintro ⟨hnone, hbehind⟩ front c hfront hc hwithin
    rcases hfront.of_isInfix_substitute hc hpieces hwithin with
      ⟨u, hsuffix, -⟩ | ⟨left, a, right, hsegs⟩ | ⟨a, ha, hpiece⟩
    · refine hnone front c hfront hc (List.IsInfix.trans ?_ hsuffix.isInfix)
      exact ⟨[], u, by simp⟩
    · exact hbehind left front a right hsegs hfront
    · exact hnone front c hfront hc (hwritten front c hfront hc a ha hpiece)

/-- Numbering leaves a call site where one stands right behind a group, and nowhere else. -/
theorem CallSite.hits_numberedText_eq_nil_iff :
    CallSite.pattern.hits (numberedText t) = [] ↔ NoneBehindGroup CallSite.pattern t := by
  have hfunctions : ∀ m ∈ CallSite.pattern.hits t, IsName m.function :=
    Pattern.forall_mem_hits CallSite.isName_of_read?
  rw [CallSite.hits_eq_nil_iff]
  constructor
  · intro h left front a right hsegs hfront
    obtain ⟨d, hd, hwithin⟩ := IsOpenGroup.isInfix_substitute_of_hit
      (fun m _ => m.isReplacement_written (CallSite.pattern.hits t)) hsegs
    exact h front d hfront hd hwithin
  · intro hbehind front c hfront hc hwithin
    rcases hfront.of_isInfix_substitute hc (fun m _ => ⟨m.isReplacement_written _,
        CallSite.endsOutside_written (by decide) _ m⟩) hwithin with
      ⟨u, -, hnone⟩ | ⟨left, a, right, hsegs⟩ | ⟨m, hm, hpiece⟩
    · have hsome := hfront.isSome_read? hc u
      rw [hnone] at hsome
      exact Bool.noConfusion hsome
    · exact hbehind left front a right hsegs hfront
    · refine CallSite.brace_not_mem_written (CallSite.pattern.hits t) (hfunctions m hm) ?_
      exact hpiece.subset hfront.brace_mem

/-- No declaration begins in an open group, or right behind it but with the word. -/
theorem IsOpenGroup.read?_declaration_eq_none (h : IsOpenGroup front) {s : Text} (hs : s <:+ front)
    (hne : s ≠ []) (u : Text) : Declaration.pattern.read? (s ++ u) = none := by
  obtain ⟨group, gap, rfl, hgroup, hgap⟩ := h
  rcases List.suffix_cons_iff.mp hs with rfl | ⟨before, hbefore⟩
  · exact Declaration.read?_eq_none_of_head? (by simp)
  rcases List.append_eq_append_iff.mp hbefore with ⟨y, hy, rfl⟩ | ⟨z, -, hz⟩
  · have hbrace : '{' ∉ y ++ ['}'] := by
      have hy : '{' ∉ y := fun hmem =>
        hgroup.not_mem (by decide) (hy ▸ List.mem_append_right before hmem)
      simp [hy]
    have hends : Text.EndsOutside Declaration.isLead (y ++ ['}']) :=
      Text.endsOutside_concat.mpr (by decide)
    have hsplit : y ++ '}' :: gap ++ u = (y ++ ['}']) ++ (gap ++ u) := by simp
    rw [hsplit]
    exact Declaration.read?_append_eq_none (by simp) hbrace hends _
  · obtain ⟨d, s, rfl⟩ := List.exists_cons_of_ne_nil hne
    apply Declaration.read?_eq_none_of_head?
    rw [List.cons_append, List.head?_cons]
    have hd : d = '}' ∨ d ∈ gap := by
      cases z with
      | nil => exact Or.inl (List.cons.inj hz).1.symm
      | cons e z => exact Or.inr ((List.cons.inj hz).2 ▸ List.mem_append_right z List.mem_cons_self)
    rintro heq
    obtain rfl := Option.some.inj heq
    rcases hd with hd | hd
    · exact absurd hd (by decide)
    · exact hgap.not_mem (by decide) hd

/-- A text that begins with a name character still does when markers are replaced. -/
theorem exists_substitute_eq_cons (hc : isNameChar c = true)
    (hpieces : ∀ a ∈ p.hits (c :: t), IsReplacement (single a)) :
    ∃ d rest, p.substitute single (c :: t) = d :: rest ∧ isNameChar d = true := by
  cases hread : p.read? (c :: t) with
  | none => exact ⟨c, _, Pattern.substitute_of_read?_eq_none hread, hc⟩
  | some out =>
    obtain ⟨a, r⟩ := out
    obtain ⟨d, rest, hsingle, hd⟩ := (hpieces a (by simp [Pattern.hits_of_read? hread])).exists_cons
    exact ⟨d, rest ++ p.substitute single r, by simp [Pattern.substitute_of_read? hread, hsingle], hd⟩

/-- Writing out dispatchers keeps call sites, though the function of one may be another word then. -/
theorem IsOpenGroup.isInfix_substitute_declaration (h : IsOpenGroup front) (hc : isNameChar c = true)
    {single : Declaration → Text}
    (hpieces : ∀ d ∈ Declaration.pattern.hits t, IsReplacement (single d))
    (hwithin : front ++ [c] <:+: t) :
    ∃ d, isNameChar d = true ∧ front ++ [d] <:+: Declaration.pattern.substitute single t := by
  rcases Pattern.segments_of_isInfix hwithin (by simp) with
    ⟨left, after, hsegs⟩ | ⟨left, d, r, x, after, hsegs, hread, hx, hne, hrest⟩
  · rw [List.append_assoc, List.singleton_append] at hsegs
    have hgroup := fun s hs hne => h.read?_declaration_eq_none (s := s) hs hne (c :: after)
    obtain ⟨-, hhits⟩ := Pattern.isSuffix_of_segments_eq hsegs
    rw [Pattern.hits_append_of_forall hgroup] at hhits
    obtain ⟨d, rest, hrest, hd⟩ :=
      exists_substitute_eq_cons hc fun a ha => hpieces a (hhits a ha)
    have hsuffix := Pattern.substitute_isSuffix single hsegs
    rw [Pattern.substitute_append_of_forall hgroup, hrest] at hsuffix
    exact ⟨d, hd, List.IsInfix.trans ⟨[], rest, by simp⟩ hsuffix.isInfix⟩
  · have hsome := h.isSome_read? hc after
    rw [← List.singleton_append, ← List.append_assoc, hrest,
      Declaration.read?_callSite_eq_none hread hx hne r] at hsome
    exact Bool.noConfusion hsome

/-- What is written for a shorthand holds the call sites of its selector and its arguments. -/
theorem IsOpenGroup.isInfix_of_written (h : IsOpenGroup front) (hc : isNameChar c = true)
    {m : Shorthand} (hname : IsName m.group.name) (hwithin : front ++ [c] <:+: m.written) :
    front ++ [c] <:+: m.selector ∨ front ++ [c] <:+: m.arguments := by
  have hopened : ¬ front ++ [c] <:+: m.group.name := fun hin =>
    hname.not_mem (by decide) (hin.subset h.brace_mem)
  have hempty : ¬ front ++ [c] <:+: [] := fun hin => by simpa using hin.subset h.brace_mem
  have hselector : front ++ [c] <:+: m.selector.trim → front ++ [c] <:+: m.selector :=
    fun hin => hin.trans m.selector.trim_isInfix
  unfold Shorthand.written at hwithin
  obtain hwithin := (Text.isInfix_of_append_cons hwithin (h.not_mem_concat hc (by decide))).resolve_right
    hempty
  rw [List.append_assoc, List.append_assoc, List.singleton_append] at hwithin
  have hwithin := (Text.isInfix_of_append_cons hwithin
    (h.not_mem_concat hc (by decide))).resolve_left hopened
  split at hwithin
  · rw [List.append_nil] at hwithin
    exact Or.inl (hselector hwithin)
  · rcases Text.isInfix_of_append_cons hwithin (h.not_mem_concat hc (by decide)) with hin | hin
    · exact Or.inl (hselector hin)
    · rcases List.infix_cons_iff.mp hin with hspace | hin
      · obtain ⟨group, gap, rfl, -⟩ := h
        obtain ⟨more, hmore⟩ := hspace
        exact absurd (List.cons.inj hmore).1 (by decide)
      · exact Or.inr (hin.trans m.arguments.trim_isInfix)

/-- A call site within a shorthand stands in its arguments: its selector holds no closing brace. -/
theorem IsOpenGroup.isInfix_arguments (h : IsOpenGroup front) (hc : isNameChar c = true)
    {m : Shorthand} (hm : Shorthand.pattern.read? t = some (m, r))
    (hwithin : front ++ [c] <:+: m.source) : front ++ [c] <:+: m.arguments := by
  obtain ⟨-, hgroup, hselector, hgap, -⟩ := Shorthand.read?_eq_some_iff.mp hm
  have hsource : m.source = ('{' :: m.group.source) ++ ':' :: ((m.selector ++ '}' :: m.gap) ++
      '(' :: (m.arguments ++ ')' :: [])) := by
    simp [Shorthand.source]
  rw [hsource] at hwithin
  obtain ⟨group, gap, hfront, hproper, hblank⟩ := id h
  have hclosed : '}' ∈ front ++ [c] := by simp [hfront]
  rcases Text.isInfix_of_append_cons hwithin (h.not_mem_concat hc (by decide)) with hin | hin
  · have hmem := hin.subset hclosed
    have hnot : '}' ∉ m.group.source := hgroup.not_mem (by decide)
    simp [hnot] at hmem
  rcases Text.isInfix_of_append_cons hin (h.not_mem_concat hc (by decide)) with hin | hin
  · -- The brace is that of the shorthand, and a parenthesis comes next.
    obtain ⟨before, after, hsplit⟩ := hin
    have hsplit : m.selector ++ '}' :: m.gap =
        (before ++ '{' :: group.source) ++ '}' :: (gap ++ c :: after) := by
      rw [← hsplit, hfront]
      simp
    have hnot : '}' ∉ m.gap := hgap.not_mem (by decide)
    obtain ⟨-, -, hrest⟩ := (List.append_cons_inj_of_notMem hselector hnot).mp hsplit
    exact absurd hc (hgap.not_isNameChar (hrest ▸ by simp))
  · rcases Text.isInfix_of_append_cons hin (h.not_mem_concat hc (by decide)) with hin | hin
    · exact hin
    · simpa using hin.subset hclosed

theorem IsOpenGroup.read?_shorthand_eq_none (h : IsOpenGroup front) (u : Text) :
    Shorthand.pattern.read? (front ++ u) = none := by
  obtain ⟨group, gap, rfl, hgroup, -⟩ := h
  cases hread : Shorthand.pattern.read? ('{' :: (group.source ++ '}' :: gap) ++ u) with
  | none => rfl
  | some out =>
    obtain ⟨m, r⟩ := out
    obtain ⟨heq, hgroup', -⟩ := Shorthand.read?_eq_some_iff.mp hread
    have hgroups : group.source ++ '}' :: (gap ++ u) = m.group.source ++ ':' :: (m.selector ++
        '}' :: (m.gap ++ '(' :: (m.arguments ++ ')' :: r))) := by
      simpa [Shorthand.source] using heq
    obtain ⟨-, hstop, -⟩ := Text.eq_of_append_cons_eq hgroup.isPaddedChar hgroup'.isPaddedChar
      (by decide) (by decide) hgroups
    exact absurd hstop (by decide)

/-- Writing out calls keeps call sites: those in arguments are copied. -/
theorem IsOpenGroup.isInfix_substitute_shorthand (h : IsOpenGroup front) (hc : isNameChar c = true)
    (hwithin : front ++ [c] <:+: t) :
    front ++ [c] <:+: Shorthand.pattern.substitute Shorthand.written t := by
  rcases Pattern.segments_of_isInfix (p := Shorthand.pattern) hwithin (by simp) with
    ⟨left, after, hsegs⟩ | ⟨left, m, r, x, after, hsegs, hread, hx, hne, hrest⟩
  · obtain ⟨inner, rfl, hinner⟩ := h.exists_cons
    have hsplit : '{' :: inner ++ [c] ++ after = '{' :: ((inner ++ [c]) ++ after) := by simp
    have hnone : Shorthand.pattern.read? ('{' :: ((inner ++ [c]) ++ after)) = none := by
      rw [← hsplit, List.append_assoc]
      exact h.read?_shorthand_eq_none ([c] ++ after)
    have hbrace : '{' ∉ inner ++ [c] := by
      have hletter : '{' ≠ c := by
        rintro rfl
        exact absurd hc (by decide)
      simp [hinner, hletter]
    have hsuffix := Pattern.substitute_isSuffix Shorthand.written hsegs
    rw [hsplit, Pattern.substitute_of_read?_eq_none hnone,
      Shorthand.substitute_append_of_not_mem hbrace] at hsuffix
    exact List.IsInfix.trans ⟨[], _, rfl⟩ hsuffix.isInfix
  · have hsuffix := Pattern.single_append_isSuffix Shorthand.written hsegs
    have hends : Text.EndsOutside isGroupChar m.source := m.endsOutside_source (by decide)
    rw [List.append_assoc, List.singleton_append] at hrest
    obtain ⟨more, hmore, -⟩ := (hends.of_isSuffix hx).exists_eq_append hne h.forall_mem hrest.symm
    have hsource : front ++ [c] <:+: m.source :=
      List.IsInfix.trans ⟨[], more, by simp [hmore]⟩ hx.isInfix
    have hstart : Text.StartsOutside Text.isBlank (front ++ [c]) := by
      obtain ⟨inner, rfl, -⟩ := h.exists_cons
      exact Text.startsOutside_cons.mpr (by decide)
    have htrim := Text.isInfix_trim (h.isInfix_arguments hc hread hsource) (by simp) hstart
      (Text.endsOutside_concat.mpr (isBlank_eq_false_of_isNameChar hc))
    have harguments : m.arguments.trim ≠ [] := by
      intro hnil
      simpa [hnil] using htrim.length_le
    have hwritten : front ++ [c] <:+: m.written := by
      rw [Shorthand.written_of_arguments harguments]
      exact htrim.trans ⟨_, [')'], by rw [List.append_assoc]⟩
    exact hwritten.trans ((List.prefix_append _ _).isInfix.trans hsuffix.isInfix)

/-- Once the call sites are numbered, writing out dispatchers brings about none: a declaration behind a
group would have been a call site. -/
theorem CallSite.hits_substitute_declaration_eq_nil_iff {single : Declaration → Text}
    (hpieces : ∀ d ∈ Declaration.pattern.hits t, IsReplacement (single d) ∧ '{' ∉ single d ∧
      Text.EndsOutside isGroupChar (single d)) :
    CallSite.pattern.hits (Declaration.pattern.substitute single t) = [] ↔
      CallSite.pattern.hits t = [] := by
  rw [CallSite.hits_substitute_eq_nil_iff, and_iff_left_of_imp]
  · intro hnone left front d right hsegs hfront
    refine CallSite.hits_eq_nil_iff.mp hnone front 'f' hfront (by decide) ?_
    have hword : front ++ ['f'] <+: front ++ d.source := by
      rw [List.prefix_append_right_inj]
      exact ⟨_, rfl⟩
    exact hword.isInfix.trans (Pattern.append_source_isInfix hsegs)
  · exact fun d hd => ⟨(hpieces d hd).1, (hpieces d hd).2.2⟩
  · intro front c hfront hc d hd hwithin
    exact absurd (hwithin.subset hfront.brace_mem) (hpieces d hd).2.1
  · intro front c hfront hc hwithin
    exact hfront.isInfix_substitute_declaration hc (fun d hd => (hpieces d hd).1) hwithin

/-- Writing out calls leaves the call sites, and brings one about where a call stands right behind a
group. -/
theorem CallSite.hits_substitute_shorthand_eq_nil_iff :
    CallSite.pattern.hits (Shorthand.pattern.substitute Shorthand.written t) = [] ↔
      CallSite.pattern.hits t = [] ∧ NoneBehindGroup Shorthand.pattern t := by
  have hnames : ∀ m ∈ Shorthand.pattern.hits t, IsName m.group.name :=
    Pattern.forall_mem_hits Shorthand.isName_of_read?
  apply CallSite.hits_substitute_eq_nil_iff
  · exact fun m hm => ⟨Shorthand.isReplacement_written (hnames m hm),
      Shorthand.endsOutside_written (by decide) m⟩
  · intro front c hfront hc m hm hwithin
    have hsource := Pattern.source_isInfix_of_mem_hits hm
    refine List.IsInfix.trans ?_ hsource
    rcases hfront.isInfix_of_written hc (hnames m hm) hwithin with hin | hin
    · exact hin.trans m.selector_isInfix_source
    · exact hin.trans m.arguments_isInfix_source
  · intro front c hfront hc hwithin
    exact ⟨c, hc, hfront.isInfix_substitute_shorthand hc hwithin⟩

end JsfxSugar.Dispatch
