import JsfxSugar.Proofs.Enumeration.Boundary
import JsfxSugar.Proofs.Enumeration.Passes

/-! A forcing in its surroundings. Of a forcing the reference remains, and it is read anew: it
denotes the forced value when nothing next to it is taken into it, and it is not taken into anything
else. -/

namespace JsfxSugar.Enumeration

variable {t r : Text} {m : Forcing} {u : Usage}

theorem Forcing.isName_of_read? (h : Forcing.read? t = some (m, r)) :
    IsName m.group ∧ IsName m.suffix := by
  simp only [Forcing.read?, Option.bind_eq_bind, Option.bind_eq_some_iff, Prod.exists,
    Option.pure_def, Option.some.injEq, Prod.mk.injEq] at h
  obtain ⟨reference, s, hreference, _, _, literal, _, _, _, _, rfl, rfl⟩ := h
  obtain ⟨-, hgroup, hsuffix, -⟩ := Reference.read?_eq_some_iff.mp hreference
  exact ⟨hgroup, hsuffix⟩

/-- What is written for a forcing that is read as itself. -/
def Forcing.written (m : Forcing) : Text :=
  Text.ofNat (Text.toNat m.literal) ++ Text.comment (m.group ++ [':'] ++ m.suffix)

/-- The text of a part of a source once the forced values are taken off. -/
def releasedPart (segs : List (Segment Forcing)) : Text :=
  segs.flatMap (Segment.text fun m => m.reference.source)

/-- What is written for a part of a source, when some counts were written before it. -/
def Usage.writtenPart (u : Usage) (seen : List Counting) (t : Text) : Text :=
  Counting.pattern.substituteAfter u.counted seen (Reference.pattern.substitute u.numbered t)

theorem getLast?_append_comment (s t : Text) : (s ++ Text.comment t).getLast? = some '/' := by
  have hlast : s ++ Text.comment t = (s ++ ['/', '*'] ++ t ++ ['*']) ++ ['/'] := by
    simp [Text.comment]
  rw [hlast, List.getLast?_concat]

theorem endsOutside_append_comment (s t : Text) :
    Text.EndsOutside isNameChar (s ++ Text.comment t) := by
  intro c hc
  rw [getLast?_append_comment] at hc
  obtain rfl := Option.some.inj hc
  decide

/-- Numbering references brings no name to the end of a text. -/
theorem endsOutside_substitute_numbered (h : Text.EndsOutside isNameChar t) :
    Text.EndsOutside isNameChar (Reference.pattern.substitute u.numbered t) := by
  have htext := Reference.pattern.flatMap_text_segments t
  unfold Pattern.substitute
  rcases List.eq_nil_or_concat (Reference.pattern.segments t) with hnil | ⟨segs, last, hlast⟩
  · rw [hnil]
    simp [Text.EndsOutside]
  · rw [List.concat_eq_append] at hlast
    rw [hlast, List.flatMap_append, List.flatMap_singleton]
    cases last with
    | plain c =>
      rw [hlast, List.flatMap_append, List.flatMap_singleton] at htext
      rw [← htext] at h
      exact Text.endsOutside_concat.mpr (Text.endsOutside_concat.mp h)
    | hit m =>
      rw [Segment.text, Usage.numbered, ← List.append_assoc]
      exact endsOutside_append_comment _ _

theorem not_mem_written (hgroup : IsName m.group) (hsuffix : IsName m.suffix) :
    '#' ∉ m.written := by
  have hsign : isNameChar '#' = false := by decide
  have hdigits : '#' ∉ Text.ofNat (Text.toNat m.literal) :=
    Text.not_mem_ofNat (by decide) (Text.toNat m.literal)
  simp [Forcing.written, Text.comment, hdigits, hgroup.not_mem hsign, hsuffix.not_mem hsign]

/-- A forcing that has been written out is no count, nor part of one. -/
theorem segments_written (hgroup : IsName m.group) (hsuffix : IsName m.suffix) {before : Text}
    (hbefore : Text.EndsOutside isNameChar before) (after : Text) :
    Counting.pattern.segments (before ++ (m.written ++ after)) =
      Counting.pattern.segments before ++
        (m.written.map .plain ++ Counting.pattern.segments after) := by
  have hsign := not_mem_written hgroup hsuffix
  have hne : m.written ≠ [] := by simp [Forcing.written, Text.ofNat_ne_nil]
  have hends : Text.EndsOutside isNameChar m.written := endsOutside_append_comment _ _
  have hhead : (m.written ++ after).head? ≠ some '#' := by
    rw [List.head?_append_of_ne_nil _ hne]
    exact fun hhead => hsign (List.mem_of_head? hhead)
  rw [Counting.segments_append hbefore fun _ => hhead,
    Counting.segments_append_of_not_mem hends hsign]

/-- A forcing of a source is numbered with its forced value. -/
theorem numbered_reference_eq {n : Numbering} (h : number t = .ok n)
    (hm : m ∈ Forcing.pattern.hits t) : (Usage.ofText t).numbered m.reference = m.written := by
  have hforced : (m.suffix, Text.toNat m.literal) ∈ (Usage.ofText t).forced m.group :=
    List.mem_map_of_mem (List.mem_filter.mpr ⟨hm, by simp⟩)
  obtain ⟨hassigns, -⟩ := (number_eq_ok h).2 m.group
  have hid := hassigns.eq_idOf (hassigns.id?_eq_some_iff.mpr (Or.inl hforced))
  rw [Forcing.written, hid]
  rfl

/-- A forcing is read as itself exactly where its reference stands alone between the text before it
and the text after it, and then its value is written for it, and the texts on both sides are written
as they are without it. -/
theorem number_forcing {n : Numbering} (h : number t = .ok n) {left right : List (Segment Forcing)}
    (hsplit : Forcing.pattern.segments t = left ++ .hit m :: right) :
    let u := Usage.ofText t
    let before := releasedPart left
    let after := releasedPart right
    let counts := Counting.pattern.hits (Reference.pattern.substitute u.numbered before)
    (Reference.StandsAlone before after ↔
      Reference.pattern.segments (released t) = Reference.pattern.segments before ++
        .hit m.reference :: Reference.pattern.segments after) ∧
    (Reference.StandsAlone before after →
      n.text = u.writtenPart [] before ++ (m.written ++ u.writtenPart counts after)) := by
  intro u before after counts
  have hm : m ∈ Forcing.pattern.hits t := by
    simp [Pattern.hits, hsplit, Segment.hit?]
  obtain ⟨hgroup, hsuffix⟩ := Pattern.forall_mem_hits (P := fun m : Forcing =>
    IsName m.group ∧ IsName m.suffix) Forcing.isName_of_read? m hm
  have hreleased : released t = before ++ (m.reference.source ++ after) := by
    rw [released, Pattern.substitute, hsplit, List.flatMap_append, List.flatMap_cons]
    rfl
  rw [hreleased]
  refine ⟨⟨fun halone => halone.segments_eq hgroup hsuffix,
    Reference.standsAlone_of_segments_eq hgroup hsuffix⟩, fun halone => ?_⟩
  have hreference : u.referenceText t = Reference.pattern.substitute u.numbered before ++
      (m.written ++ Reference.pattern.substitute u.numbered after) := by
    rw [Usage.referenceText, hreleased, Pattern.substitute, halone.segments_eq hgroup hsuffix,
      List.flatMap_append, List.flatMap_cons, ← numbered_reference_eq h hm]
    rfl
  have hends := endsOutside_substitute_numbered (u := u) halone.endsOutside
  rw [(number_eq_ok h).1, Pattern.substituteAfter, hreference,
    segments_written hgroup hsuffix hends, Pattern.inscribe_append, Pattern.inscribe_append,
    Pattern.inscribe_map_plain, Pattern.filterMap_hit?_map_plain, List.append_nil, List.nil_append]
  rfl

/-- A forcing between blanks, and a count after it. -/
theorem number_forcing_between_blanks :
    let t := "x k#a(7) k#".toList
    ∃ n, number t = .ok n ∧ Reference.StandsAlone "x ".toList " k#".toList ∧
      n.text = "x 7/*k:a*/ 8/*k: a*/".toList := by
  intro t
  obtain ⟨n, hn⟩ : ∃ n, number t = .ok n := exists_eq_ok_of_isSome (by decide +kernel)
  have hsplit : Forcing.pattern.segments t = [.plain 'x', .plain ' '] ++
      .hit ⟨['k'], ['a'], ['7']⟩ :: [.plain ' ', .plain 'k', .plain '#'] := by
    decide +kernel
  obtain ⟨halone, htext⟩ := number_forcing hn hsplit
  have hstands : Reference.StandsAlone "x ".toList " k#".toList := halone.mpr (by decide +kernel)
  have hwritten := htext hstands
  refine ⟨n, hn, hstands, hwritten.trans ?_⟩
  decide +kernel

/-- A name character after a forcing becomes part of its suffix, and the value is not written at
all. -/
theorem not_forall_written_isInfix :
    ¬ ∀ (t : Text) (n : Numbering), number t = .ok n → ∀ m ∈ Forcing.pattern.hits t,
      m.written <:+: n.text := by
  intro hall
  let t := "k#a(1)b".toList
  let m : Forcing := ⟨['k'], ['a'], ['1']⟩
  obtain ⟨n, hn⟩ : ∃ n, number t = .ok n := exists_eq_ok_of_isSome (by decide +kernel)
  have htext : (number t).toOption.map (·.text) = some "2/*k:ab*/".toList := by decide +kernel
  rw [hn] at htext
  have htext : n.text = "2/*k:ab*/".toList := Option.some.inj htext
  have hm : m ∈ Forcing.pattern.hits t := by decide +kernel
  have hinfix := hall t n hn m hm
  rw [htext] at hinfix
  revert hinfix
  decide +kernel

end JsfxSugar.Enumeration
