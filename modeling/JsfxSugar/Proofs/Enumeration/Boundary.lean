import JsfxSugar.Enumeration.Marker
import JsfxSugar.Proofs.Seam
import JsfxSugar.Proofs.Text

/-! Where the markers of enumerations begin and end: what stands next to a marker may be taken into
it, and a marker may be taken into another one. -/

namespace JsfxSugar.Enumeration

variable {s t u r : Text} {c : Char}

/-- A name as the markers of enumerations hold it. -/
abbrev IsName (name : Text) : Prop := Text.IsRun isNameChar name

/-- No name holds the sign between a group and a suffix. -/
theorem startsOutside_sign : Text.StartsOutside isNameChar ('#' :: t) :=
  Text.startsOutside_cons.mpr (by decide)

theorem runBefore?_sign_eq_some_iff {name : Text} :
    Text.runBefore? isNameChar ['#'] t = some (name, r) ↔ t = name ++ '#' :: r ∧ IsName name := by
  simp only [Text.runBefore?_eq, Option.bind_eq_some_iff, Option.map_eq_some_iff, Prod.exists,
    Prod.mk.injEq, Text.skip?_eq_some_iff]
  constructor
  · rintro ⟨name, s, hrun, r, rfl, rfl, rfl⟩
    exact ⟨Text.eq_append_of_run? hrun, Text.isRun_of_run? hrun⟩
  · rintro ⟨rfl, hname⟩
    exact ⟨name, '#' :: r, Text.run?_append hname.ne_nil hname.forall_mem startsOutside_sign, r,
      rfl, rfl, rfl⟩

namespace Reference

variable {m : Reference}

/-- A reference is read to the end of its suffix. -/
theorem read?_eq_some_iff : pattern.read? t = some (m, r) ↔
    t = m.source ++ r ∧ IsName m.group ∧ IsName m.suffix ∧ Text.StartsOutside isNameChar r := by
  simp only [pattern, read?, Option.bind_eq_bind, Option.bind_eq_some_iff, Prod.exists,
    Option.pure_def, Option.some.injEq, Prod.mk.injEq, runBefore?_sign_eq_some_iff]
  constructor
  · rintro ⟨group, s, ⟨rfl, hgroup⟩, suffix, r, hrun, rfl, rfl⟩
    obtain ⟨rfl, -, -, hr⟩ := Text.run?_eq_some_iff.mp hrun
    exact ⟨by simp [source], hgroup, Text.isRun_of_run? hrun, hr⟩
  · rintro ⟨rfl, hgroup, hsuffix, hr⟩
    exact ⟨m.group, m.suffix ++ r, ⟨by simp [source], hgroup⟩, m.suffix, r,
      Text.run?_append hsuffix.ne_nil hsuffix.forall_mem hr, rfl, rfl⟩

/-- A group, its sign and a name character after it begin a reference. -/
theorem isSome_read? {name : Text} (hname : IsName name) (hc : isNameChar c = true) (t : Text) :
    (pattern.read? (name ++ '#' :: c :: t)).isSome := by
  have hsuffix : IsName ((c :: t).takeWhile isNameChar) := by
    refine ⟨by simp [hc], fun d hd => ?_⟩
    exact List.all_eq_true.mp List.all_takeWhile d hd
  have hread : pattern.read? (name ++ '#' :: c :: t) =
      some (⟨name, (c :: t).takeWhile isNameChar⟩, (c :: t).dropWhile isNameChar) := by
    rw [read?_eq_some_iff]
    refine ⟨?_, hname, hsuffix, Text.startsOutside_dropWhile⟩
    simp [source, List.takeWhile_append_dropWhile]
  rw [hread]
  rfl

/-- A group and its sign are no reference where no suffix follows. -/
theorem read?_open {name : Text} (hname : ∀ c ∈ name, isNameChar c = true)
    (ht : Text.StartsOutside isNameChar t) : pattern.read? (name ++ '#' :: t) = none := by
  apply Option.eq_none_iff_forall_ne_some.mpr
  rintro ⟨m, r⟩ hread
  obtain ⟨happend, hgroup, hsuffix, -⟩ := read?_eq_some_iff.mp hread
  have hrest := congrArg (List.dropWhile isNameChar) happend
  rw [source, List.append_assoc, List.append_assoc, List.singleton_append,
    Text.dropWhile_append_of_startsOutside hname startsOutside_sign,
    Text.dropWhile_append_of_startsOutside hgroup.forall_mem startsOutside_sign] at hrest
  obtain ⟨c, suffix, hsuffix, hc⟩ := hsuffix.exists_cons
  rw [(List.cons.inj hrest).2, hsuffix, List.cons_append, Text.startsOutside_cons, hc] at ht
  cases ht

/-- Where a group and its sign are no reference, no suffix follows. -/
theorem startsOutside_of_read?_eq_none {name : Text} (hname : IsName name)
    (h : pattern.read? (name ++ '#' :: t) = none) : Text.StartsOutside isNameChar t := by
  cases t with
  | nil => exact Text.startsOutside_nil
  | cons c t =>
    rw [Text.startsOutside_cons, Bool.eq_false_iff]
    intro hc
    have hsome := isSome_read? hname hc t
    rw [h] at hsome
    cases hsome

theorem segments_open {name : Text} (hname : ∀ c ∈ name, isNameChar c = true)
    (ht : Text.StartsOutside isNameChar t) :
    pattern.segments (name ++ '#' :: t) = (name ++ ['#']).map .plain ++ pattern.segments t := by
  induction name with
  | nil =>
    have hfirst : pattern.read? ('#' :: t) = none := read?_open hname ht
    rw [List.nil_append, Pattern.segments_of_read?_eq_none hfirst]
    rfl
  | cons c name ih =>
    have hfirst : pattern.read? (c :: (name ++ '#' :: t)) = none := read?_open hname ht
    rw [List.cons_append, Pattern.segments_of_read?_eq_none hfirst,
      ih fun d hd => hname d (List.mem_cons_of_mem c hd)]
    rfl

/-- A reference that begins in a text which ends in no name was there before, unless the text is a
group and its sign. -/
theorem read?_append_eq_none (hend : Text.EndsOutside isNameChar s) (hne : s ≠ [])
    (hopen : ∀ name, IsName name → s ≠ name ++ ['#']) (hnone : pattern.read? s = none) :
    pattern.read? (s ++ u) = none := by
  apply Option.eq_none_iff_forall_ne_some.mpr
  rintro ⟨m, r⟩ hread
  obtain ⟨happend, hgroup, hsuffix, -⟩ := read?_eq_some_iff.mp hread
  obtain ⟨s', rfl, hrest⟩ : ∃ s', s = m.group ++ '#' :: s' ∧ m.suffix ++ r = s' ++ u := by
    apply hend.exists_eq_append hne hgroup.forall_mem
    simpa [source] using happend
  cases s' with
  | nil => exact hopen m.group hgroup rfl
  | cons e s' =>
    obtain ⟨d, suffix, hd, hdname⟩ := hsuffix.exists_cons
    rw [hd, List.cons_append, List.cons_append] at hrest
    obtain rfl := (List.cons.inj hrest).1
    have hsome := isSome_read? hgroup hdname s'
    simp [hnone] at hsome

/-- A reference in a text which ends in no name does not go on behind the text. -/
theorem read?_append_eq_some (hend : Text.EndsOutside isNameChar s)
    (hread : pattern.read? s = some (m, r)) : pattern.read? (s ++ u) = some (m, r ++ u) := by
  obtain ⟨rfl, hgroup, hsuffix, hr⟩ := read?_eq_some_iff.mp hread
  have hne : r ≠ [] := by
    rintro rfl
    rw [List.append_nil, source, Text.endsOutside_append (by simp),
      Text.endsOutside_append hsuffix.ne_nil] at hend
    exact hsuffix.not_endsOutside hend
  apply read?_eq_some_iff.mpr
  exact ⟨List.append_assoc _ _ _, hgroup, hsuffix, (Text.startsOutside_append hne).mpr hr⟩

/-- A text ends with a group and its sign, and no suffix has been read for them. What comes next is
taken for the suffix. -/
def LeavesOpen (t : Text) : Prop :=
  ∃ segs c, pattern.segments t = segs ++ [.plain c, .plain '#'] ∧ isNameChar c = true

theorem leavesOpen_of_segments {before : List (Segment Reference)} {name : Text}
    (hname : IsName name) (h : pattern.segments t = before ++ pattern.segments (name ++ ['#'])) :
    LeavesOpen t := by
  obtain ⟨front, c, hfront⟩ := (List.eq_nil_or_concat name).resolve_left hname.ne_nil
  rw [List.concat_eq_append] at hfront
  subst hfront
  refine ⟨before ++ front.map .plain, c, ?_, hname.forall_mem c (by simp)⟩
  rw [h, segments_open hname.forall_mem Text.startsOutside_nil]
  simp

/-- Where a text ends in no name and leaves no group open, what follows it does not change its
references. -/
theorem segments_append (hend : Text.EndsOutside isNameChar t) (hopen : ¬ LeavesOpen t) (u : Text) :
    pattern.segments (t ++ u) = pattern.segments t ++ pattern.segments u := by
  refine Pattern.segments_append fun c s hs hsegs => ⟨?_, fun m r hread => ?_⟩
  · apply read?_append_eq_none (hend.of_isSuffix hs) (by simp)
    intro name hname hcons
    obtain ⟨before, hbefore⟩ := hsegs
    rw [hcons] at hbefore
    exact hopen (leavesOpen_of_segments hname hbefore.symm)
  · exact read?_append_eq_some (hend.of_isSuffix hs) hread

/-- A reference between two texts is read as itself: the text before it ends in no name and leaves
no group open, and the text after it begins with no name. -/
structure StandsAlone (before after : Text) : Prop where
  endsOutside : Text.EndsOutside isNameChar before
  closed : ¬ LeavesOpen before
  startsOutside : Text.StartsOutside isNameChar after

theorem StandsAlone.segments_eq {before after : Text} (h : StandsAlone before after)
    (hgroup : IsName m.group) (hsuffix : IsName m.suffix) :
    pattern.segments (before ++ (m.source ++ after)) =
      pattern.segments before ++ .hit m :: pattern.segments after := by
  have hread : pattern.read? (m.source ++ after) = some (m, after) :=
    read?_eq_some_iff.mpr ⟨rfl, hgroup, hsuffix, h.startsOutside⟩
  rw [segments_append h.endsOutside h.closed, Pattern.segments_of_read? hread]

section

variable {before after : Text} (hgroup : IsName m.group) (hsuffix : IsName m.suffix)
  (h : pattern.segments (before ++ (m.source ++ after)) =
    pattern.segments before ++ .hit m :: pattern.segments after)
include h

/-- From where the scan of the text before has come to, the scan goes on in the same way. -/
theorem segments_tail {segs tail : List (Segment Reference)}
    (hbefore : pattern.segments before = segs ++ tail) :
    pattern.segments (tail.flatMap (Segment.text source) ++ (m.source ++ after)) =
      tail ++ .hit m :: pattern.segments after := by
  rw [hbefore, List.append_assoc] at h
  have htail := Pattern.segments_flatMap_text h
  rw [List.flatMap_append, List.flatMap_cons, pattern.flatMap_text_segments] at htail
  exact htail

include hgroup

theorem not_leavesOpen : ¬ LeavesOpen before := by
  rintro ⟨segs, c, hsegs, hc⟩
  obtain ⟨d, group, hd, hdname⟩ := hgroup.exists_cons
  have hname : IsName [c] := ⟨by simp, by simpa using hc⟩
  have hsome := isSome_read? hname hdname (group ++ ('#' :: (m.suffix ++ after)))
  have hnone := Pattern.read?_of_segments_eq_cons_plain (segments_tail h hsegs)
  simp only [source, hd, List.flatMap_cons, List.flatMap_nil, Segment.text, List.append_assoc,
    List.cons_append, List.nil_append] at hnone hsome
  simp [hnone] at hsome

include hsuffix

theorem endsOutside_before : Text.EndsOutside isNameChar before := by
  intro c hc
  rw [← Bool.not_eq_true]
  intro hname
  have hbefore := pattern.flatMap_text_segments before
  rcases List.eq_nil_or_concat (pattern.segments before) with hnil | ⟨segs, last, hlast⟩
  · rw [hnil] at hbefore
    simp [← hbefore] at hc
  · rw [List.concat_eq_append] at hlast
    have htail := segments_tail h hlast
    cases last with
    -- A name character that stands alone would begin a longer group.
    | plain d =>
      rw [hlast, List.flatMap_append] at hbefore
      obtain rfl : d = c := by simpa [← hbefore, Segment.text] using hc
      obtain ⟨e, suffix, he, hename⟩ := hsuffix.exists_cons
      have hlong : IsName (d :: m.group) :=
        ⟨by simp, List.forall_mem_cons.mpr ⟨hname, hgroup.forall_mem⟩⟩
      have hsome := isSome_read? hlong hename (suffix ++ after)
      have hnone := Pattern.read?_of_segments_eq_cons_plain htail
      simp only [source, he, List.flatMap_cons, List.flatMap_nil, Segment.text,
        List.append_assoc, List.cons_append, List.nil_append] at hnone hsome
      simp [hnone] at hsome
    -- The suffix of a reference would go on into the group.
    | hit other =>
      obtain ⟨d, group, hd, hdname⟩ := hgroup.exists_cons
      rw [List.singleton_append] at htail
      have hread := Pattern.read?_of_segments_eq_cons_hit htail
      have hstarts := (read?_eq_some_iff.mp hread).2.2.2
      simp only [List.flatMap_cons, Segment.text, pattern, source, hd, List.cons_append,
        Text.startsOutside_cons] at hstarts
      simp [hdname] at hstarts

/-- A reference that is read as itself stands alone. -/
theorem standsAlone_of_segments_eq : StandsAlone before after := by
  refine ⟨endsOutside_before hgroup hsuffix h, not_leavesOpen hgroup h, ?_⟩
  have hread := Pattern.read?_of_segments_eq_cons_hit (segments_tail h (List.append_nil _).symm)
  rw [pattern.flatMap_text_segments] at hread
  exact (read?_eq_some_iff.mp hread).2.2.2

end

end Reference

namespace Counting

variable {m : Counting}

/-- A count is read to the end of its signs. -/
theorem read?_eq_some_iff : pattern.read? t = some (m, r) ↔
    t = m.source ++ r ∧ IsName m.group ∧ (m.once = false → r.head? ≠ some '#') := by
  obtain ⟨group, once⟩ := m
  simp only [pattern, read?, Option.bind_eq_bind, Option.bind_eq_some_iff, Prod.exists,
    runBefore?_sign_eq_some_iff]
  constructor
  · rintro ⟨name, s, ⟨rfl, hname⟩, h⟩
    split at h
    · rename_i r' hskip
      simp only [Option.pure_def, Option.some.injEq, Prod.mk.injEq, mk.injEq] at h
      obtain ⟨⟨rfl, rfl⟩, rfl⟩ := h
      rw [Text.skip?_eq_some_iff.mp hskip]
      exact ⟨by simp [source, Group.countSource], hname, by simp⟩
    · rename_i hskip
      simp only [Option.pure_def, Option.some.injEq, Prod.mk.injEq, mk.injEq] at h
      obtain ⟨⟨rfl, rfl⟩, rfl⟩ := h
      refine ⟨by simp [source, Group.countSource], hname, fun _ hhead => ?_⟩
      obtain ⟨r, rfl⟩ := List.head?_eq_some_iff.mp hhead
      simp [Text.skip?] at hskip
  · rintro ⟨rfl, hname, hsign⟩
    cases once with
    | true =>
      refine ⟨group, '#' :: r, ⟨by simp [source, Group.countSource], hname⟩, ?_⟩
      simp [Text.skip?]
    | false =>
      refine ⟨group, r, ⟨by simp [source, Group.countSource], hname⟩, ?_⟩
      have hskip : Text.skip? ['#'] r = none := by
        cases r with
        | nil => rfl
        | cons d r =>
          have hne : '#' ≠ d := fun heq => hsign rfl (by simp [← heq])
          simp [Text.skip?, hne]
      rw [hskip]
      rfl

/-- A group and a sign after it begin a count. -/
theorem isSome_read? {name : Text} (hname : IsName name) (t : Text) :
    (pattern.read? (name ++ '#' :: t)).isSome := by
  by_cases hsign : t.head? = some '#'
  · obtain ⟨r, rfl⟩ := List.head?_eq_some_iff.mp hsign
    have hread : pattern.read? (name ++ '#' :: '#' :: r) = some (⟨name, true⟩, r) :=
      read?_eq_some_iff.mpr ⟨by simp [source, Group.countSource], hname, by simp⟩
    rw [hread]
    rfl
  · have hread : pattern.read? (name ++ '#' :: t) = some (⟨name, false⟩, t) :=
      read?_eq_some_iff.mpr ⟨by simp [source, Group.countSource], hname, fun _ => hsign⟩
    rw [hread]
    rfl

theorem exists_source_eq (m : Counting) : ∃ front, m.source = front ++ ['#'] := by
  cases hm : m.once with
  | true => exact ⟨m.group ++ ['#'], by simp [source, Group.countSource, hm]⟩
  | false => exact ⟨m.group, by simp [source, Group.countSource, hm]⟩

/-- A count that begins in a text which ends in no name was there before. -/
theorem read?_append_eq_none (hend : Text.EndsOutside isNameChar s) (hne : s ≠ [])
    (hnone : pattern.read? s = none) : pattern.read? (s ++ u) = none := by
  apply Option.eq_none_iff_forall_ne_some.mpr
  rintro ⟨m, r⟩ hread
  obtain ⟨happend, hgroup, -⟩ := read?_eq_some_iff.mp hread
  obtain ⟨s', rfl, -⟩ : ∃ s', s = m.group ++ '#' :: s' ∧
      (if m.once then ['#'] else []) ++ r = s' ++ u := by
    apply hend.exists_eq_append hne hgroup.forall_mem
    rw [happend, source, Group.countSource]
    split <;> simp
  have hsome := isSome_read? hgroup s'
  simp [hnone] at hsome

/-- A count in a text does not go on behind the text, unless a sign follows the sign at its end. -/
theorem read?_append_eq_some (hsign : s.getLast? = some '#' → u.head? ≠ some '#')
    (hread : pattern.read? s = some (m, r)) : pattern.read? (s ++ u) = some (m, r ++ u) := by
  obtain ⟨rfl, hgroup, hnext⟩ := read?_eq_some_iff.mp hread
  refine read?_eq_some_iff.mpr ⟨List.append_assoc _ _ _, hgroup, fun honce => ?_⟩
  cases r with
  | nil =>
    obtain ⟨front, hfront⟩ := exists_source_eq m
    exact hsign (by simp [hfront])
  | cons d r => exact hnext honce

/-- Where a text ends in no name, and the signs at its end do not go on, what follows it does not
change its counts. -/
theorem segments_append (hend : Text.EndsOutside isNameChar t)
    (hsign : t.getLast? = some '#' → u.head? ≠ some '#') :
    pattern.segments (t ++ u) = pattern.segments t ++ pattern.segments u := by
  refine Pattern.segments_append fun c s hs _ => ⟨?_, fun m r => ?_⟩
  · exact read?_append_eq_none (hend.of_isSuffix hs) (by simp)
  · apply read?_append_eq_some
    intro hlast
    obtain ⟨before, rfl⟩ := hs
    exact hsign (by rw [List.getLast?_append, hlast, Option.some_or])

theorem segments_eq_map_plain (h : '#' ∉ t) : pattern.segments t = t.map .plain := by
  refine Pattern.segments_eq_map_plain fun s hs => ?_
  apply Option.eq_none_iff_forall_ne_some.mpr
  rintro ⟨m, r⟩ hread
  obtain ⟨front, hfront⟩ := exists_source_eq m
  refine h (hs.subset ?_)
  rw [(read?_eq_some_iff.mp hread).1, hfront]
  simp

/-- A text without a sign that ends in no name is no count, nor part of one. -/
theorem segments_append_of_not_mem (hend : Text.EndsOutside isNameChar t) (hsign : '#' ∉ t) :
    pattern.segments (t ++ u) = t.map .plain ++ pattern.segments u := by
  have hlast : t.getLast? ≠ some '#' := fun h => hsign (List.mem_of_getLast? h)
  rw [segments_append hend fun h => absurd h hlast, segments_eq_map_plain hsign]

end Counting

end JsfxSugar.Enumeration
