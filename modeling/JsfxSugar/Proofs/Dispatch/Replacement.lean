import JsfxSugar.Proofs.Dispatch.Reading
import JsfxSugar.Proofs.Dispatch.Rewriting
import JsfxSugar.Proofs.Seam
import Mathlib.Data.List.Basic

/-! What the three passes write begins with names, and a parenthesis or a slash stands right after the
last of them. No marker is written like this, so that a marker of a text in which others are replaced
has stood there from the start. -/

namespace JsfxSugar.Dispatch

variable {s t : Text} {c : Char} {group : Group}

/-- A text that begins with a name, maybe with more names after it, and then goes on with a
parenthesis or a slash. -/
def IsReplacement (t : Text) : Prop :=
  ∃ run stop rest, t = run ++ stop :: rest ∧ (∀ c ∈ run, isPaddedChar c = true) ∧
    Text.StartsOutside Text.isBlank run ∧ ¬ Text.EndsOutside isNameChar run ∧
    isPaddedChar stop = false ∧ (stop = '(' ∨ stop = '/')

theorem IsName.isReplacement {name : Text} (h : IsName name) {stop : Char} {rest : Text}
    (hstop : stop = '(' ∨ stop = '/') : IsReplacement (name ++ stop :: rest) := by
  have hpadded : ∀ c ∈ name, isPaddedChar c = true := fun c hc =>
    isPaddedChar_of_isNameChar (h.forall_mem c hc)
  have hstart := h.startsOutside_blank (r := [])
  rw [List.append_nil] at hstart
  refine ⟨name, stop, rest, rfl, hpadded, hstart, h.not_endsOutside, ?_, hstop⟩
  rcases hstop with rfl | rfl
  · decide
  · decide

theorem CallSite.isReplacement_written (calls : List CallSite) (m : CallSite) :
    IsReplacement (m.written calls) := by
  have hname : IsName (Text.ofNat (functionId calls m)) := by
    refine ⟨Text.ofNat_ne_nil _, fun c hc => ?_⟩
    simp [isNameChar, Char.isAlphanum, Text.isDigit_of_mem_ofNat hc]
  exact hname.isReplacement (Or.inr rfl)

theorem Group.Named.isReplacement_dispatcher (h : group.Named) : IsReplacement group.dispatcher := by
  obtain ⟨body, hbody⟩ := group.exists_dispatcher_eq
  refine ⟨keyword ++ ' ' :: group.name, '(', group.signature ++ ')' :: (body ++ [';']), ?_, ?_, ?_,
    ?_, by decide, Or.inl rfl⟩
  · rw [hbody, List.append_assoc, List.cons_append]
  · intro c hc
    simp only [List.mem_append, List.mem_cons] at hc
    rcases hc with hc | rfl | hc
    · exact isPaddedChar_of_isNameChar (isName_keyword.forall_mem c hc)
    · decide
    · exact isPaddedChar_of_isNameChar (h.name.forall_mem c hc)
  · exact isName_keyword.startsOutside_blank
  · have hsplit : keyword ++ ' ' :: group.name = (keyword ++ [' ']) ++ group.name := by simp
    rw [hsplit, Text.endsOutside_append h.name.ne_nil]
    exact h.name.not_endsOutside

theorem Shorthand.isReplacement_written {m : Shorthand} (h : IsName m.group.name) :
    IsReplacement m.written := by
  rw [written, List.append_assoc, List.append_assoc, List.append_assoc]
  exact h.isReplacement (Or.inl rfl)

namespace IsReplacement

theorem exists_cons (h : IsReplacement t) : ∃ c rest, t = c :: rest ∧ isNameChar c = true := by
  obtain ⟨run, stop, rest, rfl, hrun, hstart, hend, -⟩ := h
  cases run with
  | nil => exact absurd (by simp [Text.EndsOutside]) hend
  | cons c run =>
    refine ⟨c, run ++ stop :: rest, rfl, ?_⟩
    have hc := hrun c List.mem_cons_self
    rw [isPaddedChar, Text.startsOutside_cons.mp hstart, Bool.or_false] at hc
    exact hc

theorem startsOutside_blank (h : IsReplacement t) (hst : s <+: t ∨ t <+: s) :
    Text.StartsOutside Text.isBlank s := by
  obtain ⟨run, stop, rest, rfl, -, hstart, hend, -⟩ := h
  have hne : run ≠ [] := by
    rintro rfl
    exact hend (by simp [Text.EndsOutside])
  have hhead : Text.StartsOutside Text.isBlank (run ++ stop :: rest) :=
    (Text.startsOutside_append hne).mpr hstart
  intro c hc
  apply hhead c
  rcases hst with ⟨more, hmore⟩ | ⟨more, rfl⟩
  · rw [← hmore]
    exact List.mem_head?_append_of_mem_head? hc
  · rwa [List.head?_append_of_ne_nil _ (by simp)] at hc

/-- A text that goes along with a replacement up to a character which no names hold is a replacement
itself. -/
theorem of_isPrefix (h : IsReplacement t) (hst : s <+: t ∨ t <+: s) (hmem : c ∈ s)
    (hc : isPaddedChar c = false) : IsReplacement s := by
  obtain ⟨run, stop, rest, rfl, hrun, hstart, hend, hstop, hor⟩ := h
  rcases hst with ⟨more, hmore⟩ | ⟨more, rfl⟩
  · obtain ⟨run', d, rest', rfl, hrun', hd⟩ := Text.exists_eq_append_cons hc hmem
    rw [List.append_assoc, List.cons_append] at hmore
    obtain ⟨rfl, rfl, -⟩ := Text.eq_of_append_cons_eq hrun' hrun hd hstop hmore
    exact ⟨run', d, rest', rfl, hrun', hstart, hend, hd, hor⟩
  · exact ⟨run, stop, rest ++ more, by simp, hrun, hstart, hend, hstop, hor⟩

end IsReplacement

/-- Nothing in a declaration reads like the front of a replacement. -/
theorem Declaration.not_isPrefix {d : Declaration} {r : Text}
    (hd : Declaration.pattern.read? t = some (d, r)) {piece : Text} (hpiece : IsReplacement piece)
    (hs : s <:+ d.source) (hne : s ≠ []) : ¬ s <+: piece ∧ ¬ piece <+: s := by
  rw [← not_or]
  intro hst
  have hends : Text.EndsOutside isPaddedChar d.source := by
    rw [source_eq_unclosed, Text.endsOutside_concat]
    decide
  obtain ⟨c, hmem, hc⟩ := (hends.of_isSuffix hs).exists_mem hne
  obtain ⟨run, stop, rest, rfl, -, -, hend, -, hstop⟩ := hpiece.of_isPrefix hst hmem hc
  obtain ⟨before, hbefore⟩ := hs
  -- A declaration holds no slash, and its only opening parenthesis stands behind no name.
  rcases hstop with rfl | rfl
  · obtain ⟨hgap, hgroup, hspace, hlist⟩ := not_mem_parts (c := '(') hd (by decide)
    have hopened : '(' ∉ (d.lead ++ '{' :: d.group.source) ++ '}' :: d.space := by
      have hkeyword : '(' ∉ keyword := by decide
      simp [lead, hkeyword, hgap, hgroup, hspace]
    have hclosed : '(' ∉ d.list ++ [')'] := by simp [hlist]
    have hsplit : ((d.lead ++ '{' :: d.group.source) ++ '}' :: d.space) ++ '(' :: (d.list ++ [')']) =
        (before ++ run) ++ '(' :: rest := by
      rw [List.append_assoc before, hbefore, source_eq, tail]
      simp
    obtain ⟨hrun, -, -⟩ := (List.append_cons_inj_of_notMem hopened hclosed).mp hsplit
    have hbehind : Text.EndsOutside isNameChar
        ((d.lead ++ '{' :: d.group.source) ++ '}' :: d.space) := by
      obtain ⟨-, -, -, hblanks, -⟩ := Declaration.read?_eq_some_iff.mp hd
      rw [Text.endsOutside_append (by simp)]
      apply Text.endsOutside_of_forall
      rw [List.forall_mem_cons]
      exact ⟨by decide, fun c hc => Bool.eq_false_iff.mpr (hblanks.not_isNameChar hc)⟩
    exact hend (hbehind.of_isSuffix ⟨before, hrun.symm⟩)
  · obtain ⟨hgap, hgroup, hspace, hlist⟩ := not_mem_parts (c := '/') hd (by decide)
    have hslash : '/' ∈ d.source := by
      rw [← hbefore]
      simp
    have hkeyword : '/' ∉ keyword := by decide
    simp [source, hkeyword, hgap, hgroup, hspace, hlist] at hslash

end JsfxSugar.Dispatch
