import JsfxSugar.Proofs.Enumeration.Signs

/-! Numbering the references of a text first and showing its counts afterwards comes to the same as
going through the text once, with references and counts as the tokens of one language. -/

namespace JsfxSugar.Enumeration

variable {t r rest : Text} {c : Char}

/-- A marker of a text in which no value is forced. -/
inductive Token where
  | reference (m : Reference)
  | count (m : Counting)
  deriving DecidableEq, Repr

namespace Token

variable {token : Token}

def source : Token → Text
  | reference m => m.source
  | count m => m.source

/-- Reads the longest name that a sign follows. With a name after the sign they are a reference, else
a count, to which a second sign belongs. -/
def read? (t : Text) : Option (Token × Text) := do
  let (group, t) ← Text.runBefore? isNameChar ['#'] t
  match Text.run? isNameChar t, Text.skip? ['#'] t with
  | some (suffix, t), _ => return (.reference ⟨group, suffix⟩, t)
  | none, some t => return (.count ⟨group, true⟩, t)
  | none, none => return (.count ⟨group, false⟩, t)

theorem eq_append_of_read? (h : read? t = some (token, r)) : t = token.source ++ r := by
  simp only [read?, Option.bind_eq_bind, Option.bind_eq_some_iff, Prod.exists, Option.pure_def] at h
  obtain ⟨group, s, hgroup, h⟩ := h
  rw [Text.eq_append_of_runBefore? hgroup]
  split at h
  · rename_i suffix s' hsuffix
    obtain ⟨rfl, rfl⟩ := Prod.mk.inj (Option.some.inj h)
    rw [Text.eq_append_of_run? hsuffix]
    simp [source, Reference.source]
  · rename_i s' _ hsign
    obtain ⟨rfl, rfl⟩ := Prod.mk.inj (Option.some.inj h)
    rw [Text.skip?_eq_some_iff.mp hsign]
    simp [source, Counting.source, Group.countSource]
  · obtain ⟨rfl, rfl⟩ := Prod.mk.inj (Option.some.inj h)
    simp [source, Counting.source, Group.countSource]

def pattern : Pattern Token where
  read? := read?
  source := source
  source_ne_nil token := by
    cases token with
    | reference m => exact Reference.pattern.source_ne_nil m
    | count m => exact Counting.pattern.source_ne_nil m
  eq_append_of_read? := eq_append_of_read?

/-- A token can be read just where a name is followed by its sign. -/
theorem read?_eq_none_iff :
    pattern.read? t = none ↔ ∀ name rest, IsName name → t ≠ name ++ '#' :: rest := by
  have hname : pattern.read? t = none ↔ Text.runBefore? isNameChar ['#'] t = none := by
    simp only [pattern, read?]
    cases Text.runBefore? isNameChar ['#'] t with
    | none => simp
    | some out =>
      simp only [Option.bind_eq_bind, Option.bind_some, Option.pure_def, reduceCtorEq, iff_false]
      split <;> simp
  rw [hname, Option.eq_none_iff_forall_ne_some, Prod.forall]
  simp only [ne_eq, runBefore?_sign_eq_some_iff, not_and']

theorem read?_reference_iff {m : Reference} :
    pattern.read? t = some (.reference m, r) ↔ Reference.pattern.read? t = some (m, r) := by
  simp only [pattern, Reference.pattern, read?, Reference.read?]
  cases Text.runBefore? isNameChar ['#'] t with
  | none => simp
  | some out =>
    obtain ⟨group, s⟩ := out
    simp only [Option.bind_eq_bind, Option.bind_some, Option.pure_def]
    cases Text.run? isNameChar s with
    | none => cases Text.skip? ['#'] s <;> simp
    | some out => simp

theorem read?_count_iff {m : Counting} : pattern.read? t = some (.count m, r) ↔
    Reference.pattern.read? t = none ∧ Counting.pattern.read? t = some (m, r) := by
  simp only [pattern, Reference.pattern, Counting.pattern, read?, Reference.read?, Counting.read?]
  cases Text.runBefore? isNameChar ['#'] t with
  | none => simp
  | some out =>
    obtain ⟨group, s⟩ := out
    simp only [Option.bind_eq_bind, Option.bind_some, Option.pure_def]
    cases Text.run? isNameChar s with
    | none => cases Text.skip? ['#'] s <;> simp
    | some out => simp

/-- A text that begins outside names begins with no token. -/
theorem read?_eq_none_of_startsOutside (h : Text.StartsOutside isNameChar t) :
    pattern.read? t = none := by
  rw [read?_eq_none_iff]
  rintro name rest hname rfl
  obtain ⟨c, name, rfl, hc⟩ := hname.exists_cons
  rw [List.cons_append, Text.startsOutside_cons, hc] at h
  cases h

theorem read?_reference_eq_none (h : pattern.read? t = none) : Reference.pattern.read? t = none := by
  apply Option.eq_none_iff_forall_ne_some.mpr
  rintro ⟨m, r⟩ hread
  rw [← read?_reference_iff, h] at hread
  cases hread

/-- The reference of a token that is one. -/
def reference? : Token → Option Reference
  | reference m => some m
  | count _ => none

/-- The count of a token that is one. -/
def count? : Token → Option Counting
  | reference _ => none
  | count m => some m

/-- A segment as the references alone see it. -/
def referenceSegments : Segment Token → List (Segment Reference)
  | .plain c => [.plain c]
  | .hit (.reference m) => [.hit m]
  | .hit (.count m) => m.source.map .plain

theorem segments_count_source {m : Counting} (h : pattern.read? t = some (.count m, r)) :
    Reference.pattern.segments t = m.source.map .plain ++ Reference.pattern.segments r := by
  obtain ⟨hnone, hread⟩ := read?_count_iff.mp h
  obtain ⟨rfl, hgroup, -⟩ := Counting.read?_eq_some_iff.mp hread
  obtain ⟨group, once⟩ := m
  cases once with
  | false =>
    have hsource : Counting.source ⟨group, false⟩ = group ++ ['#'] := rfl
    rw [hsource, List.append_assoc] at hnone ⊢
    have hstarts := Reference.startsOutside_of_read?_eq_none hgroup hnone
    exact Reference.segments_open hgroup.forall_mem hstarts
  | true =>
    have hsource : Counting.source ⟨group, true⟩ = (group ++ ['#']) ++ ['#'] := by
      simp [Counting.source, Group.countSource]
    -- The second sign, before which no name is left, is a segment of its own.
    have hsign : Reference.pattern.read? ('#' :: r) = none :=
      read?_reference_eq_none (read?_eq_none_of_startsOutside startsOutside_sign)
    rw [hsource, List.append_assoc, List.append_assoc, List.singleton_append, List.singleton_append,
      Reference.segments_open hgroup.forall_mem startsOutside_sign,
      Pattern.segments_of_read?_eq_none hsign]
    simp

/-- Taking tokens, one finds the same references. -/
theorem segments_reference (t : Text) :
    Reference.pattern.segments t = (pattern.segments t).flatMap referenceSegments := by
  induction t using pattern.scan_induction with
  | nil => simp
  | plain c t hc ih =>
    rw [Pattern.segments_of_read?_eq_none hc,
      Pattern.segments_of_read?_eq_none (read?_reference_eq_none hc), List.flatMap_cons, ← ih]
    rfl
  | hit t token r ht ih =>
    rw [Pattern.segments_of_read? ht, List.flatMap_cons, ← ih]
    cases token with
    | reference m =>
      rw [Pattern.segments_of_read? (read?_reference_iff.mp ht)]
      rfl
    | count m => exact segments_count_source ht

theorem hits_reference (t : Text) :
    Reference.pattern.hits t = (pattern.hits t).filterMap reference? := by
  apply Pattern.hits_of_segments_eq_flatMap (segments_reference t)
  rintro (c | m | m)
  · rfl
  · rfl
  · exact Pattern.filterMap_hit?_map_plain _

/-- What is written for a token while the references alone are numbered. -/
def numbered (u : Usage) : Token → Text
  | reference m => u.numbered m
  | count m => m.source

theorem substitute_reference (u : Usage) (t : Text) :
    Reference.pattern.substitute u.numbered t = pattern.substitute (numbered u) t := by
  rw [Pattern.substitute, Pattern.substitute, segments_reference, List.flatMap_assoc]
  apply List.flatMap_congr
  rintro (c | m | m) -
  · rfl
  · simp [referenceSegments, Segment.text, numbered]
  · exact Pattern.flatMap_text_map_plain _ _

/-- Where a name begins no token, no token begins further on in the name. -/
theorem read?_eq_none_of_cons (h : pattern.read? (c :: t) = none) (hc : isNameChar c = true) :
    pattern.read? t = none := by
  rw [read?_eq_none_iff] at h ⊢
  rintro name rest hname rfl
  exact h (c :: name) rest ⟨by simp, List.forall_mem_cons.mpr ⟨hc, hname.forall_mem⟩⟩ rfl

/-- Where no token begins, none begins once the tokens further on are replaced. -/
theorem read?_cons_substitute (h : pattern.read? (c :: t) = none) (written : Token → Text) :
    pattern.read? (c :: pattern.substitute written t) = none := by
  rw [read?_eq_none_iff]
  intro name
  -- Along the name: no token begins in it, so that all of it was there before anything was replaced.
  induction name generalizing c t with
  | nil => exact fun _ hname => absurd rfl hname.ne_nil
  | cons d name ih =>
    rintro rest hname heq
    obtain ⟨rfl, hrest⟩ := List.cons.inj heq
    obtain ⟨hc, hmem⟩ := List.forall_mem_cons.mp hname.forall_mem
    have hnone : pattern.read? t = none := read?_eq_none_of_cons h hc
    cases t with
    | nil => simp at hrest
    | cons e t =>
      rw [Pattern.substitute_of_read?_eq_none hnone] at hrest
      cases name with
      | nil =>
        obtain ⟨rfl, -⟩ := List.cons.inj hrest
        exact read?_eq_none_iff.mp h [c] t ⟨by simp, by simpa using hc⟩ rfl
      | cons d name => exact ih hnone rest ⟨by simp, hmem⟩ hrest

theorem read?_counting_eq_none (h : pattern.read? t = none) : Counting.pattern.read? t = none := by
  apply Option.eq_none_iff_forall_ne_some.mpr
  rintro ⟨m, r⟩ hread
  have hcount := read?_count_iff.mpr ⟨read?_reference_eq_none h, hread⟩
  rw [h] at hcount
  cases hcount

/-- A text that begins outside names begins with the same character once tokens are replaced. -/
theorem head?_substitute (h : Text.StartsOutside isNameChar t) (written : Token → Text) :
    (pattern.substitute written t).head? = t.head? := by
  cases t with
  | nil => rw [Pattern.substitute_nil]
  | cons c t =>
    rw [Pattern.substitute_of_read?_eq_none (read?_eq_none_of_startsOutside h)]
    rfl

/-- A count stays one when the tokens behind it are replaced. -/
theorem read?_count_append {m : Counting} (h : pattern.read? t = some (.count m, r))
    (written : Token → Text) : Counting.pattern.read? (m.source ++ pattern.substitute written r) =
      some (m, pattern.substitute written r) := by
  obtain ⟨hnone, hread⟩ := read?_count_iff.mp h
  obtain ⟨rfl, hgroup, hsign⟩ := Counting.read?_eq_some_iff.mp hread
  refine Counting.read?_eq_some_iff.mpr ⟨rfl, hgroup, fun honce => ?_⟩
  have hsource : m.source = m.group ++ ['#'] := by
    simp [Counting.source, Group.countSource, honce]
  rw [hsource, List.append_assoc] at hnone
  have hstarts : Text.StartsOutside isNameChar r :=
    Reference.startsOutside_of_read?_eq_none hgroup hnone
  rw [head?_substitute hstarts]
  exact hsign honce

/-- A segment as the counts see it once the references are numbered. -/
def countSegments (u : Usage) : Segment Token → List (Segment Counting)
  | .plain c => [.plain c]
  | .hit (.reference m) => (u.numbered m).map .plain
  | .hit (.count m) => [.hit m]

theorem segments_numbered_append {m : Reference} (u : Usage) (hgroup : IsName m.group)
    (hsuffix : IsName m.suffix) (s : Text) : Counting.pattern.segments (u.numbered m ++ s) =
      (u.numbered m).map .plain ++ Counting.pattern.segments s := by
  have hsign : '#' ∉ u.numbered m := by
    have hdigits := Text.not_mem_ofNat (c := '#') (by decide)
      (idOf (u.forced m.group) (u.unforced m.group) m.suffix)
    simp [Usage.numbered, Text.comment, hdigits, hgroup.sign_not_mem, hsuffix.sign_not_mem]
  exact Counting.segments_append_of_not_mem (endsOutside_append_comment _ _) hsign

/-- Numbering the references, one finds the counts of the tokens again and no others. -/
theorem segments_counting (u : Usage) (t : Text) :
    Counting.pattern.segments (pattern.substitute (numbered u) t) =
      (pattern.segments t).flatMap (countSegments u) := by
  induction t using pattern.scan_induction with
  | nil => simp
  | plain c t hc ih =>
    have hnone := read?_counting_eq_none (read?_cons_substitute hc (numbered u))
    rw [Pattern.substitute_of_read?_eq_none hc, Pattern.segments_of_read?_eq_none hnone,
      Pattern.segments_of_read?_eq_none hc, List.flatMap_cons, ← ih]
    rfl
  | hit t token r ht ih =>
    rw [Pattern.substitute_of_read? ht, Pattern.segments_of_read? ht, List.flatMap_cons, ← ih]
    cases token with
    | reference m =>
      obtain ⟨hgroup, hsuffix⟩ := Reference.isName_of_read? (read?_reference_iff.mp ht)
      exact segments_numbered_append u hgroup hsuffix _
    | count m => exact Pattern.segments_of_read? (read?_count_append ht _)

theorem hits_counting (u : Usage) (t : Text) :
    Counting.pattern.hits (pattern.substitute (numbered u) t) =
      (pattern.hits t).filterMap count? := by
  apply Pattern.hits_of_segments_eq_flatMap (segments_counting u t)
  rintro (c | m | m)
  · rfl
  · exact Pattern.filterMap_hit?_map_plain _
  · rfl

end Token

end JsfxSugar.Enumeration
