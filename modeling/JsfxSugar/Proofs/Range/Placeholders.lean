import JsfxSugar.Proofs.Range.Grammar
import JsfxSugar.Proofs.Seam
import Mathlib.Data.List.Infix

/-! Unrolling, and replacing all placeholders of a body at once. A copy has its names in braces
replaced first, and then the bare names as they stand by then. The two agree unless a number meets
what is written around it, so that together they read as the name. -/

namespace JsfxSugar

namespace Text

variable {s t u old new : Text} {c : Char}

theorem skip?_eq_none_iff : skip? old t = none ↔ ¬ old <+: t := by
  constructor
  · rintro h ⟨r, rfl⟩
    simp at h
  · intro h
    cases hskip : skip? old t with
    | none => rfl
    | some r => exact absurd ⟨r, (skip?_eq_some_iff.mp hskip).symm⟩ h

theorem replaceAll_append (hold : old ≠ []) (new u : Text) :
    replaceAll (old ++ u) old new = new ++ replaceAll u old new := by
  have hread : (Pattern.literal old hold).read? (old ++ u) = some ((), u) := by
    simp [Pattern.literal]
  rw [replaceAll, replaceAll, dif_pos hold, dif_pos hold, Pattern.substitute_of_read? hread]

theorem replaceAll_cons (hold : old ≠ []) (h : ¬ old <+: c :: t) (new : Text) :
    replaceAll (c :: t) old new = c :: replaceAll t old new := by
  have hread : (Pattern.literal old hold).read? (c :: t) = none := by
    simpa [Pattern.literal] using skip?_eq_none_iff.mpr h
  rw [replaceAll, replaceAll, dif_pos hold, dif_pos hold,
    Pattern.substitute_of_read?_eq_none hread]

/-- Text that does not hold the first character of what is replaced stays. -/
theorem replaceAll_append_of_not_mem (h : c ∉ t) (new u : Text) :
    replaceAll (t ++ u) (c :: old) new = t ++ replaceAll u (c :: old) new := by
  induction t with
  | nil => rfl
  | cons d t ih =>
    rw [List.mem_cons, not_or] at h
    have hd : ¬ c :: old <+: d :: (t ++ u) := fun hpre => h.1 (List.cons_prefix_cons.mp hpre).1
    rw [List.cons_append, replaceAll_cons (by simp) hd, ih h.2, List.cons_append]

/-- Some end of the name and the number are the same, as far as the shorter of them goes. -/
def Meets (name number : Text) : Prop :=
  ∃ more, more <:+ name ∧ more ≠ [] ∧ (more <+: number ∨ number <+: more)

instance (name number : Text) : Decidable (Meets name number) :=
  decidable_of_iff (∃ more ∈ name.tails, more ≠ [] ∧ (more <+: number ∨ number <+: more)) (by
    simp [Meets, List.mem_tails])

theorem Meets.cons {name number : Text} (h : Meets name number) (c : Char) :
    Meets (c :: name) number := by
  obtain ⟨more, hmore, hne, hmeets⟩ := h
  exact ⟨more, hmore.trans (List.suffix_cons c name), hne, hmeets⟩

/-- A number that meets a name begins with a character of it. -/
theorem Meets.exists_cons {name number : Text} (h : Meets name number) (hne : number ≠ []) :
    ∃ c rest, number = c :: rest ∧ c ∈ name := by
  obtain ⟨more, hmore, hmorene, hmeets⟩ := h
  obtain ⟨c, rest, rfl⟩ := List.exists_cons_of_ne_nil hne
  obtain ⟨d, more, rfl⟩ := List.exists_cons_of_ne_nil hmorene
  obtain rfl : d = c := by
    rcases hmeets with hshort | hlong
    · exact (List.cons_prefix_cons.mp hshort).1
    · exact (List.cons_prefix_cons.mp hlong).1.symm
  exact ⟨d, rest, rfl, hmore.subset List.mem_cons_self⟩

/-- When a number meets a name, a front of the name, with the number behind it and then an end of the
name, begins with the whole name. -/
theorem Meets.exists_front {name number : Text} (h : Meets name number) :
    ∃ front more back, name = front ++ more ∧ more ≠ [] ∧ back <:+ name ∧
      more <+: number ++ back := by
  obtain ⟨more, ⟨front, rfl⟩, hne, ⟨rest, rfl⟩ | ⟨back, rfl⟩⟩ := h
  · exact ⟨front, more, [], rfl, hne, List.nil_suffix, by simp⟩
  · refine ⟨front, number ++ back, back, rfl, hne, ?_, List.prefix_rfl⟩
    exact (List.suffix_append number back).trans (List.suffix_append front _)

/-- What begins a text after a replacement has begun it before, or the new text meets it. -/
theorem isPrefix_of_isPrefix_replaceAll (hold : old ≠ []) (h : s <+: replaceAll t old new) :
    s <+: t ∨ Meets s new := by
  by_cases hmeets : Meets s new
  · exact Or.inr hmeets
  · obtain ⟨rest, hrest⟩ := h
    rw [replaceAll, dif_pos hold] at hrest
    obtain ⟨u, rfl, -⟩ := Pattern.segments_of_substitute_eq_append hrest.symm
      fun _ _ more hmore hne =>
        ⟨fun hshort => hmeets ⟨more, hmore, hne, Or.inl hshort⟩,
          fun hlong => hmeets ⟨more, hmore, hne, Or.inr hlong⟩⟩
    exact Or.inl (List.prefix_append s u)

/-- Neither of two texts begins with the other. -/
def Diverge (s t : Text) : Prop :=
  ¬ s <+: t ∧ ¬ t <+: s

namespace Diverge

theorem append_left (h : Diverge s t) (before : Text) : Diverge (before ++ s) (before ++ t) :=
  h.imp (mt (List.prefix_append_right_inj before).mp) (mt (List.prefix_append_right_inj before).mp)

theorem append_ne (h : Diverge s t) (s' t' : Text) : s ++ s' ≠ t ++ t' := by
  intro heq
  rcases List.prefix_or_prefix_of_prefix (List.prefix_append s s')
      (heq ▸ List.prefix_append t t') with hst | hts
  · exact h.1 hst
  · exact h.2 hts

theorem ne (h : Diverge s t) : s ≠ t := by
  rintro rfl
  exact h.1 List.prefix_rfl

theorem of_cons {d : Char} (h : c ≠ d) (s t : Text) : Diverge (c :: s) (d :: t) :=
  ⟨fun hst => h (List.cons_prefix_cons.mp hst).1, fun hts => h (List.cons_prefix_cons.mp hts).1.symm⟩

end Diverge

/-- Pieces that are equal or diverge come to one text only when they are all equal. -/
theorem flatMap_eq_flatMap_iff {α : Type} {f g : α → Text} {vs : List α}
    (h : ∀ v ∈ vs, f v = g v ∨ Diverge (f v) (g v)) :
    vs.flatMap f = vs.flatMap g ↔ ∀ v ∈ vs, f v = g v := by
  induction vs with
  | nil => simp
  | cons v vs ih =>
    obtain ⟨hv, hvs⟩ := List.forall_mem_cons.mp h
    rw [List.flatMap_cons, List.flatMap_cons, List.forall_mem_cons, ← ih hvs]
    rcases hv with hsame | hdiverge
    · simp [hsame]
    · simp [hdiverge.ne, hdiverge.append_ne]

theorem minus_or_isDecimal_of_mem_ofInt {z : Int} (h : c ∈ ofInt z) :
    c = '-' ∨ Range.IsDecimal c := by
  unfold ofInt at h
  split at h
  · rcases List.mem_cons.mp h with rfl | hc
    · exact Or.inl rfl
    · exact Or.inr (Range.isDigit_iff.mp (isDigit_of_mem_ofNat hc))
  · exact Or.inr (Range.isDigit_iff.mp (isDigit_of_mem_ofNat h))

theorem not_mem_ofInt (hminus : c ≠ '-') (hdigit : c.isDigit = false) (z : Int) : c ∉ ofInt z := by
  intro hmem
  rcases minus_or_isDecimal_of_mem_ofInt hmem with hc | hdecimal
  · exact hminus hc
  · simp [Range.isDigit_iff.mpr hdecimal] at hdigit

theorem ofInt_ne_nil (z : Int) : ofInt z ≠ [] := by
  unfold ofInt
  split
  · simp
  · exact ofNat_ne_nil _

end Text

namespace Range

theorem not_beginsName_of_isDecimal {c : Char} (h : IsDecimal c) : ¬ BeginsName c := by
  rintro (⟨hlow, -⟩ | ⟨hlow, -⟩ | rfl)
  · exact absurd (Char.le_trans hlow h.2) (by decide)
  · exact absurd (Char.le_trans hlow h.2) (by decide)
  · exact absurd h.2 (by decide)

theorem BeginsName.trimStart_cons {c : Char} (h : BeginsName c) (t : Text) :
    Text.trimStart (c :: t) = c :: t := by
  have hblank : Text.isBlank c = false := by
    have hstart := isNameStart_iff.mpr h
    simp only [isNameStart, Bool.or_eq_true, decide_eq_true_eq] at hstart
    rcases hstart with halpha | rfl
    · exact Text.isBlank_eq_false_of_isAlphanum (by simp [Char.isAlphanum, halpha])
    · decide
  exact Text.dropWhile_of_startsOutside (Text.startsOutside_cons.mpr hblank)

namespace IsLoopName

variable {name rest : Text} {c : Char}

theorem exists_cons (h : IsLoopName name) : ∃ c rest, name = c :: rest := by
  obtain ⟨c, rest, -, -⟩ := h
  exact ⟨c, rest, rfl⟩

theorem ne_nil (h : IsLoopName name) : name ≠ [] := by
  obtain ⟨c, rest, rfl⟩ := h.exists_cons
  simp

theorem beginsName (h : IsLoopName (c :: rest)) : BeginsName c := by
  cases h with
  | mk c rest hc hrest => exact hc

theorem continuesName (h : IsLoopName name) (hc : c ∈ name) : ContinuesName c := by
  obtain ⟨d, rest, hd, hrest⟩ := h
  rcases List.mem_cons.mp hc with rfl | hc
  · exact Or.inl hd
  · exact hrest c hc

theorem not_mem (h : IsLoopName name) (hc : isNameChar c = false) : c ∉ name := by
  intro hmem
  simp [isNameChar_iff.mpr (h.continuesName hmem)] at hc

/-- No name begins within a number. -/
theorem not_mem_ofInt (h : IsLoopName (c :: rest)) (z : Int) : c ∉ Text.ofInt z := by
  intro hmem
  rcases Text.minus_or_isDecimal_of_mem_ofInt hmem with rfl | hdecimal
  · exact h.not_mem (by decide) List.mem_cons_self
  · exact not_beginsName_of_isDecimal hdecimal h.beginsName

end IsLoopName

/-- A loop name that stands in a body, in braces or bare. -/
inductive Placeholder where
  | braced
  | bare
  deriving DecidableEq, Repr

namespace Placeholder

variable {name t r : Text} {a : Placeholder}

def source (name : Text) : Placeholder → Text
  | braced => '{' :: name ++ ['}']
  | bare => name

def read? (name t : Text) : Option (Placeholder × Text) :=
  match Text.skip? (braced.source name) t with
  | some r => some (braced, r)
  | none => (Text.skip? (bare.source name) t).map (bare, ·)

theorem eq_append_of_read? (h : read? name t = some (a, r)) : t = a.source name ++ r := by
  unfold read? at h
  split at h
  · rename_i s hs
    simp only [Option.some.injEq, Prod.mk.injEq] at h
    obtain ⟨rfl, rfl⟩ := h
    exact Text.skip?_eq_some_iff.mp hs
  · simp only [Option.map_eq_some_iff, Prod.mk.injEq] at h
    obtain ⟨s, hs, rfl, rfl⟩ := h
    exact Text.skip?_eq_some_iff.mp hs

theorem read?_eq_none_iff : read? name t = none ↔ ∀ a : Placeholder, ¬ a.source name <+: t := by
  unfold read?
  constructor
  · intro h
    split at h
    · simp at h
    · rename_i hbraced
      rintro (_ | _)
      · exact Text.skip?_eq_none_iff.mp hbraced
      · exact Text.skip?_eq_none_iff.mp (Option.map_eq_none_iff.mp h)
  · intro h
    rw [Text.skip?_eq_none_iff.mpr (h braced), Text.skip?_eq_none_iff.mpr (h bare)]
    rfl

/-- The placeholders of a loop name. -/
def pattern (name : Text) (hname : IsLoopName name) : Pattern Placeholder where
  read? := read? name
  source := source name
  source_ne_nil a := by cases a <;> simp [source, hname.ne_nil]
  eq_append_of_read? := eq_append_of_read?

end Placeholder

namespace Header

variable {header : Header} {t r : Text} {c : Char} {value : Int}

/-- The body for one loop value when its placeholders, in braces or bare, are replaced in one go from
left to right. -/
def copyAtOnce (header : Header) (hname : IsLoopName header.name) (body : Text) (value : Int) :
    Text :=
  (Placeholder.pattern header.name hname).substitute (fun _ => Text.ofInt value) body

/-- The body, without its leading blanks, once for each loop value, its placeholders replaced in one
go. -/
def unrollAtOnce (header : Header) (hname : IsLoopName header.name) (body : Text) : Text :=
  header.values.flatMap (header.copyAtOnce hname body.trimStart)

/-- The body with the number in place of the name in braces. -/
def filled (header : Header) (body : Text) (value : Int) : Text :=
  body.replaceAll (Placeholder.braced.source header.name) (Text.ofInt value)

/-- At a character of the body that begins no placeholder, the name can be read once the names in
braces behind it are replaced. -/
def FormsName (header : Header) (hname : IsLoopName header.name) (body : Text) (value : Int) :
    Prop :=
  ∃ left c after,
    (Placeholder.pattern header.name hname).segments body =
      left ++ .plain c :: (Placeholder.pattern header.name hname).segments after ∧
    header.name <+: c :: header.filled after value

theorem copy_eq (header : Header) (body : Text) (value : Int) :
    header.copy body value =
      (header.filled body value).replaceAll header.name (Text.ofInt value) :=
  rfl

@[simp] theorem filled_nil (header : Header) (value : Int) : header.filled [] value = [] := by
  simp [filled, Text.replaceAll, Placeholder.source]

theorem filled_braced (header : Header) (t : Text) (value : Int) :
    header.filled (Placeholder.braced.source header.name ++ t) value =
      Text.ofInt value ++ header.filled t value :=
  Text.replaceAll_append (by simp [Placeholder.source]) _ t

theorem filled_cons (h : ¬ Placeholder.braced.source header.name <+: c :: t) (value : Int) :
    header.filled (c :: t) value = c :: header.filled t value :=
  Text.replaceAll_cons (by simp [Placeholder.source]) h _

/-- Text without braces is left when the names in braces are replaced. -/
theorem filled_append (h : '{' ∉ t) (r : Text) (value : Int) :
    header.filled (t ++ r) value = t ++ header.filled r value :=
  Text.replaceAll_append_of_not_mem h _ r

section Forming

variable {hname : IsLoopName header.name} {a : Placeholder}

theorem formsName_of_read? (h : (Placeholder.pattern header.name hname).read? t = some (a, r)) :
    header.FormsName hname t value ↔ header.FormsName hname r value := by
  unfold FormsName
  rw [Pattern.segments_of_read? h]
  constructor
  · rintro ⟨left, c, after, hsegs, hforms⟩
    cases left with
    | nil => simp at hsegs
    | cons seg left => exact ⟨left, c, after, (List.cons.inj hsegs).2, hforms⟩
  · rintro ⟨left, c, after, hsegs, hforms⟩
    exact ⟨.hit a :: left, c, after, congrArg _ hsegs, hforms⟩

theorem formsName_of_read?_eq_none
    (h : (Placeholder.pattern header.name hname).read? (c :: t) = none) :
    header.FormsName hname (c :: t) value ↔
      header.name <+: c :: header.filled t value ∨ header.FormsName hname t value := by
  unfold FormsName
  rw [Pattern.segments_of_read?_eq_none h]
  constructor
  · rintro ⟨left, d, after, hsegs, hforms⟩
    cases left with
    | nil =>
      obtain ⟨hplain, hrest⟩ := List.cons.inj hsegs
      have hafter := congrArg
        (List.flatMap (Segment.text (Placeholder.pattern header.name hname).source)) hrest
      rw [Pattern.flatMap_text_segments, Pattern.flatMap_text_segments] at hafter
      obtain rfl := Segment.plain.inj hplain
      rw [hafter]
      exact Or.inl hforms
    | cons seg left => exact Or.inr ⟨left, d, after, (List.cons.inj hsegs).2, hforms⟩
  · rintro (hforms | ⟨left, d, after, hsegs, hforms⟩)
    · exact ⟨[], c, t, rfl, hforms⟩
    · exact ⟨.plain c :: left, d, after, congrArg _ hsegs, hforms⟩

theorem not_formsName_nil : ¬ header.FormsName hname [] value := by
  rintro ⟨left, c, after, hsegs, -⟩
  simp at hsegs

end Forming

/-- A placeholder that the scan of the body comes to, in braces or bare, gives way to the number, and
nothing in the number is replaced again. -/
theorem copy_append (hname : IsLoopName header.name) (a : Placeholder) (r : Text) (value : Int) :
    header.copy (a.source header.name ++ r) value = Text.ofInt value ++ header.copy r value := by
  obtain ⟨c, rest, hcons⟩ := hname.exists_cons
  have hnumber := (hcons ▸ hname).not_mem_ofInt value
  cases a with
  | braced =>
    rw [copy_eq, filled_braced, hcons, Text.replaceAll_append_of_not_mem hnumber, copy_eq, hcons]
  | bare =>
    rw [copy_eq, Placeholder.source, filled_append (hname.not_mem (by decide)),
      Text.replaceAll_append hname.ne_nil, copy_eq]

/-- Where the name forms, a copy goes on with the number, and the body with the start of the name. -/
theorem diverge_of_isPrefix (hname : IsLoopName header.name)
    (hbraced : ¬ Placeholder.braced.source header.name <+: c :: t)
    (h : header.name <+: c :: header.filled t value) (u : Text) :
    Text.Diverge (header.copy (c :: t) value) (c :: u) := by
  obtain ⟨after, hafter⟩ := h
  obtain ⟨d, number, hnumber⟩ := List.exists_cons_of_ne_nil (Text.ofInt_ne_nil value)
  have hne : d ≠ c := by
    obtain ⟨e, rest, hcons⟩ := hname.exists_cons
    have hmem := (hcons ▸ hname).not_mem_ofInt value
    obtain ⟨rfl, -⟩ : e = c ∧ _ := by simpa [hcons] using hafter
    rintro rfl
    exact hmem (by simp [hnumber])
  rw [copy_eq, filled_cons hbraced, ← hafter, Text.replaceAll_append hname.ne_nil, hnumber,
    List.cons_append]
  exact .of_cons hne _ u

/-- A copy is the body with its placeholders replaced in one go unless the name forms in it, and then
the two diverge. -/
theorem copy_cases (hname : IsLoopName header.name) (body : Text) (value : Int) :
    (¬ header.FormsName hname body value ∧
      header.copy body value = header.copyAtOnce hname body value) ∨
    (header.FormsName hname body value ∧
      Text.Diverge (header.copy body value) (header.copyAtOnce hname body value)) := by
  induction body using (Placeholder.pattern header.name hname).scan_induction with
  | nil =>
    refine Or.inl ⟨not_formsName_nil, ?_⟩
    simp [copy_eq, copyAtOnce, Text.replaceAll, hname.ne_nil]
  | plain c t hc ih =>
    have hnone := Placeholder.read?_eq_none_iff.mp hc
    rw [formsName_of_read?_eq_none hc, copyAtOnce, Pattern.substitute_of_read?_eq_none hc]
    by_cases hforms : header.name <+: c :: header.filled t value
    · exact Or.inr ⟨Or.inl hforms, diverge_of_isPrefix hname (hnone .braced) hforms _⟩
    · have hcopy : header.copy (c :: t) value = c :: header.copy t value := by
        rw [copy_eq, filled_cons (hnone .braced), Text.replaceAll_cons hname.ne_nil hforms, copy_eq]
      rw [hcopy]
      rcases ih with ⟨hnot, hsame⟩ | ⟨hlater, hdiverge⟩
      · exact Or.inl ⟨not_or.mpr ⟨hforms, hnot⟩, congrArg _ hsame⟩
      · exact Or.inr ⟨Or.inr hlater, hdiverge.append_left [c]⟩
  | hit t a r ht ih =>
    obtain rfl := Placeholder.eq_append_of_read? ht
    rw [formsName_of_read? ht, copyAtOnce, Pattern.substitute_of_read? ht, copy_append hname]
    rcases ih with ⟨hnot, hsame⟩ | ⟨hlater, hdiverge⟩
    · exact Or.inl ⟨hnot, congrArg _ hsame⟩
    · exact Or.inr ⟨hlater, hdiverge.append_left _⟩

theorem unroll_eq_iff (hname : IsLoopName header.name) (body : Text) :
    header.unroll body = header.unrollAtOnce hname body ↔
      ∀ v ∈ header.values, ¬ header.FormsName hname body.trimStart v := by
  have hcases := copy_cases hname body.trimStart
  rw [unroll, unrollAtOnce, Text.flatMap_eq_flatMap_iff fun v _ => (hcases v).imp (·.2) (·.2)]
  refine forall₂_congr fun v _ => ?_
  rcases hcases v with ⟨hnot, hsame⟩ | ⟨hforms, hdiverge⟩
  · simp [hnot, hsame]
  · simp [hforms, hdiverge.ne]

/-- The name forms of a number that meets it. -/
theorem meets_of_isPrefix (hnone : ¬ header.name <+: c :: t)
    (h : header.name <+: c :: header.filled t value) :
    Text.Meets header.name (Text.ofInt value) := by
  cases hcons : header.name with
  | nil => exact absurd (hcons ▸ List.nil_prefix) hnone
  | cons d rest =>
    rw [hcons] at hnone h
    obtain ⟨rfl, hrest⟩ := List.cons_prefix_cons.mp h
    have hbraced : Placeholder.braced.source header.name ≠ [] := by simp [Placeholder.source]
    rcases Text.isPrefix_of_isPrefix_replaceAll hbraced hrest with hstood | hmeets
    · exact absurd (List.cons_prefix_cons.mpr ⟨rfl, hstood⟩) hnone
    · exact hmeets.cons d

theorem meets_of_formsName {hname : IsLoopName header.name} {body : Text}
    (h : header.FormsName hname body value) : Text.Meets header.name (Text.ofInt value) := by
  induction body using (Placeholder.pattern header.name hname).scan_induction with
  | nil => exact absurd h not_formsName_nil
  | plain c t hc ih =>
    rcases (formsName_of_read?_eq_none hc).mp h with hforms | hlater
    · exact meets_of_isPrefix (Placeholder.read?_eq_none_iff.mp hc .bare) hforms
    · exact ih hlater
  | hit t a r ht ih => exact ih ((formsName_of_read? ht).mp h)

/-- The front of the name with a placeholder behind it is a body in which the name forms, when the
number makes up for the rest of it. -/
theorem formsName_of_eq_append {front more back : Text} (hname : IsLoopName header.name)
    (hsplit : header.name = c :: front ++ more) (hne : more ≠ []) (hback : '{' ∉ back)
    (hmore : more <+: Text.ofInt value ++ back) :
    header.FormsName hname (c :: front ++ (Placeholder.braced.source header.name ++ back)) value := by
  have hbrace : '{' ∉ header.name := hname.not_mem (by decide)
  rw [hsplit, List.mem_append, List.mem_cons, not_or, not_or] at hbrace
  obtain ⟨⟨hfirst, hfront⟩, hrest⟩ := hbrace
  have hread : (Placeholder.pattern header.name hname).read?
      (c :: (front ++ (Placeholder.braced.source header.name ++ back))) = none := by
    refine Placeholder.read?_eq_none_iff.mpr ?_
    rintro (_ | _) hprefix
    · exact hfirst (List.cons_prefix_cons.mp hprefix).1
    · have hbare : header.name <+: c :: front ++ (Placeholder.braced.source header.name ++ back) :=
        hprefix
      rw [hsplit, List.prefix_append_right_inj] at hbare
      obtain ⟨d, more, rfl⟩ := List.exists_cons_of_ne_nil hne
      obtain ⟨rfl, -⟩ := List.cons_prefix_cons.mp hbare
      exact hrest List.mem_cons_self
  have hfilled : header.filled (front ++ (Placeholder.braced.source header.name ++ back)) value =
      front ++ (Text.ofInt value ++ back) := by
    have hplain := header.filled_append hback [] value
    rw [List.append_nil, filled_nil, List.append_nil] at hplain
    rw [filled_append hfront, filled_braced, hplain]
  rw [List.cons_append, formsName_of_read?_eq_none hread, hfilled]
  refine Or.inl ?_
  rw [hsplit, ← List.cons_append, List.prefix_append_right_inj]
  exact hmore

theorem exists_formsName_of_meets (hname : IsLoopName header.name)
    (h : Text.Meets header.name (Text.ofInt value)) :
    ∃ body : Text, header.FormsName hname body.trimStart value := by
  obtain ⟨front, more, back, hsplit, hne, hback, hmore⟩ := h.exists_front
  obtain ⟨c, rest, hcons⟩ := hname.exists_cons
  have hstart : IsLoopName (c :: rest) := hcons ▸ hname
  cases front with
  | nil =>
    -- the whole name would have to begin as the number does
    obtain ⟨d, digits, hdigits⟩ := List.exists_cons_of_ne_nil (Text.ofInt_ne_nil value)
    rw [← List.nil_append more, ← hsplit, hcons, hdigits, List.cons_append] at hmore
    obtain ⟨rfl, -⟩ := List.cons_prefix_cons.mp hmore
    exact absurd (by simp [hdigits]) (hstart.not_mem_ofInt value)
  | cons d front =>
    obtain rfl : c = d := (List.cons.inj (hcons.symm.trans hsplit)).1
    refine ⟨c :: front ++ (Placeholder.braced.source header.name ++ back), ?_⟩
    rw [List.cons_append, hstart.beginsName.trimStart_cons]
    exact formsName_of_eq_append hname hsplit hne
      (fun hmem => hname.not_mem (by decide) (hback.subset hmem)) hmore

/-- Only a number that is not negative meets a loop name, and only a name with digits. -/
theorem nonneg_of_meets (hname : IsLoopName header.name)
    (h : Text.Meets header.name (Text.ofInt value)) :
    0 ≤ value ∧ ∃ c ∈ header.name, IsDecimal c := by
  obtain ⟨d, digits, hdigits, hmem⟩ := h.exists_cons (Text.ofInt_ne_nil value)
  have hminus : d ≠ '-' := by
    rintro rfl
    exact hname.not_mem (by decide) hmem
  constructor
  · by_contra hneg
    have hnumber : Text.ofInt value = '-' :: Text.ofNat value.natAbs := by
      rw [Text.ofInt, if_pos (by omega)]
    exact hminus (List.cons.inj (hdigits.symm.trans hnumber)).1
  · have hd : d ∈ Text.ofInt value := by simp [hdigits]
    exact ⟨d, hmem, (Text.minus_or_isDecimal_of_mem_ofInt hd).resolve_left hminus⟩

/-- The loop values run from the start to the stop, one by one. A body is unrolled to one copy for each
of them, its placeholders replaced in one go, exactly when for none of them the name forms of a number
and the text around it. That is so for all bodies exactly when no loop value meets the name; a value
that does is not negative, and the name has digits. -/
theorem unroll_eq_unrollAtOnce (header : Header) (hname : IsLoopName header.name) :
    (header.values.head? = some header.start ∧ header.values.getLast? = some header.stop ∧
      header.values.IsChain
        (fun v w => if header.start ≤ header.stop then w = v + 1 else w = v - 1)) ∧
    (∀ body, header.unroll body = header.unrollAtOnce hname body ↔
      ∀ v ∈ header.values, ¬ header.FormsName hname body.trimStart v) ∧
    ((∀ body, header.unroll body = header.unrollAtOnce hname body) ↔
      ∀ v ∈ header.values, ¬ Text.Meets header.name (Text.ofInt v)) ∧
    ∀ v, Text.Meets header.name (Text.ofInt v) → 0 ≤ v ∧ ∃ c ∈ header.name, IsDecimal c := by
  obtain ⟨-, hhead, hlast, hchain, -⟩ := header.values_spec
  refine ⟨⟨hhead, hlast, hchain⟩, unroll_eq_iff hname, ⟨fun hall v hv hmeets => ?_,
    fun hnone body => ?_⟩, fun v => nonneg_of_meets hname⟩
  · obtain ⟨body, hforms⟩ := exists_formsName_of_meets hname hmeets
    exact (unroll_eq_iff hname body).mp (hall body) v hv hforms
  · exact (unroll_eq_iff hname body).mpr fun v hv hforms => hnone v hv (meets_of_formsName hforms)

theorem isLoopName_a1 : IsLoopName ['a', '1'] :=
  .mk 'a' ['1'] (isNameStart_iff.mp (by decide)) (by simp [ContinuesName, IsDecimal])

/-- No number from 4 down to 2 meets the name `a1`. -/
theorem unroll_eq_unrollAtOnce_down :
    let header : Header := ⟨['a', '1'], 4, 2⟩
    (∀ body, header.unroll body = header.unrollAtOnce isLoopName_a1 body) ∧
      header.unroll " a\x7ba1\x7da1;".toList = "a44;a33;a22;".toList := by
  intro header
  obtain ⟨-, -, hall, -⟩ := unroll_eq_unrollAtOnce header isLoopName_a1
  exact ⟨hall.mpr (by decide +kernel), by decide +kernel⟩

/-- The number 1 meets the name `a1`: behind an `a` it is taken for the rest of the name. -/
theorem not_forall_unroll_eq_unrollAtOnce :
    ¬ ∀ (header : Header) (hname : IsLoopName header.name) (body : Text),
      header.unroll body = header.unrollAtOnce hname body := by
  intro hall
  let header : Header := ⟨['a', '1'], 1, 1⟩
  have hcode : header.unroll "a\x7ba1\x7d".toList = "1".toList := by decide +kernel
  have honce : header.unrollAtOnce isLoopName_a1 "a\x7ba1\x7d".toList = "a1".toList := by
    decide +kernel
  have hsame := hall header isLoopName_a1 "a\x7ba1\x7d".toList
  rw [hcode, honce] at hsame
  simp at hsame

end Header

end Range

end JsfxSugar
