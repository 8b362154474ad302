import JsfxSugar.Dispatch.Parameter
import JsfxSugar.Pattern

/-! The markers by which a source declares dispatch groups, names their functions and calls them. -/

namespace JsfxSugar.Dispatch

def isNameChar (c : Char) : Bool :=
  c.isAlphanum || c = '_' || c = '.'

/-- The leading blanks and the name after them, and what follows. -/
def name? (t : Text) : Option (Text × Text × Text) :=
  (Text.run? isNameChar (t.dropWhile Text.isBlank)).map fun (name, r) =>
    (t.takeWhile Text.isBlank, name, r)

theorem eq_append_of_name? {t gap name r : Text} (h : name? t = some (gap, name, r)) :
    t = gap ++ (name ++ r) := by
  simp only [name?, Option.map_eq_some_iff, Prod.mk.injEq, Prod.exists] at h
  obtain ⟨run, s, hs, rfl, rfl, rfl⟩ := h
  rw [← Text.eq_append_of_run? hs, List.takeWhile_append_dropWhile]

/-- A name and the blanks around it. -/
structure Padded where
  before : Text
  name : Text
  after : Text
  deriving DecidableEq, Repr

namespace Padded

def source (p : Padded) : Text :=
  p.before ++ (p.name ++ p.after)

/-- The padded name at the front of a text, when `mark` comes next, and what follows the mark. -/
def read? (mark t : Text) : Option (Padded × Text) := do
  let (before, name, t) ← name? t
  let (after, t) ← Text.blanksBefore? mark t
  return (⟨before, name, after⟩, t)

theorem eq_append_of_read? {mark t r : Text} {p : Padded} (h : read? mark t = some (p, r)) :
    t = p.source ++ (mark ++ r) := by
  simp only [read?, Option.bind_eq_bind, Option.bind_eq_some_iff, Prod.exists, Option.pure_def,
    Option.some.injEq, Prod.mk.injEq] at h
  obtain ⟨before, name, t₁, h₁, after, t₂, h₂, rfl, rfl⟩ := h
  rw [eq_append_of_name? h₁, Text.eq_append_of_spanBefore? h₂]
  simp [source]

/-- A padded name is made of blanks and name characters. -/
theorem of_mem_source {mark t r : Text} {p : Padded} (h : read? mark t = some (p, r)) {c : Char}
    (hc : c ∈ p.source) : Text.isBlank c ∨ isNameChar c := by
  simp only [read?, name?, Option.bind_eq_bind, Option.bind_eq_some_iff, Prod.exists,
    Option.pure_def, Option.some.injEq, Prod.mk.injEq, Option.map_eq_some_iff,
    Text.blanksBefore?, Text.spanBefore?] at h
  obtain ⟨before, name, t₁, ⟨run, s, hrun, rfl, rfl, rfl⟩, after, t₂, ⟨r, hr, rfl, rfl⟩, rfl, rfl⟩ :=
    h
  obtain ⟨rfl, -, -⟩ := Text.eq_of_run? hrun
  simp only [source, List.mem_append] at hc
  rcases hc with hc | hc | hc
  · exact Or.inl (List.all_eq_true.mp List.all_takeWhile c hc)
  · exact Or.inr (List.all_eq_true.mp List.all_takeWhile c hc)
  · exact Or.inl (List.all_eq_true.mp List.all_takeWhile c hc)

end Padded

/-- The call site `{GROUP} FUNCTION`. -/
structure CallSite where
  group : Padded
  gap : Text
  function : Text
  deriving DecidableEq, Repr

namespace CallSite

def source (m : CallSite) : Text :=
  ['{'] ++ (m.group.source ++ (['}'] ++ (m.gap ++ m.function)))

def read? (t : Text) : Option (CallSite × Text) := do
  let t ← Text.skip? ['{'] t
  let (group, t) ← Padded.read? ['}'] t
  let (gap, function, t) ← name? t
  return (⟨group, gap, function⟩, t)

theorem eq_append_of_read? {t r : Text} {m : CallSite} (h : read? t = some (m, r)) :
    t = m.source ++ r := by
  simp only [read?, Option.bind_eq_bind, Option.bind_eq_some_iff, Prod.exists, Option.pure_def,
    Option.some.injEq, Prod.mk.injEq] at h
  obtain ⟨t₁, h₁, group, t₂, h₂, gap, function, t₃, h₃, rfl, rfl⟩ := h
  rw [Text.skip?_eq_some_iff.mp h₁, Padded.eq_append_of_read? h₂, eq_append_of_name? h₃]
  simp [source]

def pattern : Pattern CallSite where
  read? := read?
  source := source
  source_ne_nil m := by simp [source]
  eq_append_of_read? := eq_append_of_read?

end CallSite

/-- Whether a piece of a list declares a parameter: a name with at most one `*` after it. -/
def isParameter (raw : Text) : Bool :=
  let name := (Parameter.ofDeclared raw).name
  !name.isEmpty && name.all isNameChar

/-- Whether a list between parentheses is blank or declares parameters. -/
def isParameterList (list : Text) : Bool :=
  list.all Text.isBlank || (Text.pieces ',' list).all isParameter

/-- The characters of a parameter list. -/
def isListChar (c : Char) : Bool :=
  isNameChar c || Text.isBlank c || c = ',' || c = '*'

/-- The word that begins a declaration. -/
def keyword : Text := "function".toList

/-- The declaration `function {GROUP}(LIST)`. -/
structure Declaration where
  gap : Text
  group : Padded
  space : Text
  list : Text
  deriving DecidableEq, Repr

namespace Declaration

def source (m : Declaration) : Text :=
  keyword ++ (m.gap ++ (['{'] ++ (m.group.source ++ (['}'] ++ (m.space ++
    (['('] ++ (m.list ++ [')'])))))))

/-- The parameters in their order. -/
def parameters (m : Declaration) : List Parameter :=
  Parameter.parseList m.list

def read? (t : Text) : Option (Declaration × Text) := do
  let t ← Text.skip? keyword t
  let (gap, t) ← Text.blanksBefore? ['{'] t
  let (group, t) ← Padded.read? ['}'] t
  let (space, t) ← Text.blanksBefore? ['('] t
  let (list, t) ← Text.spanBefore? isListChar [')'] t
  if isParameterList list then return (⟨gap, group, space, list⟩, t) else none

theorem eq_append_of_read? {t r : Text} {m : Declaration} (h : read? t = some (m, r)) :
    t = m.source ++ r := by
  simp only [read?, Option.bind_eq_bind, Option.bind_eq_some_iff, Prod.exists, Option.pure_def] at h
  obtain ⟨t₁, h₁, gap, t₂, h₂, group, t₃, h₃, space, t₄, h₄, list, t₅, h₅, h⟩ := h
  split at h
  · simp only [Option.some.injEq, Prod.mk.injEq] at h
    obtain ⟨rfl, rfl⟩ := h
    rw [Text.skip?_eq_some_iff.mp h₁, Text.eq_append_of_spanBefore? h₂,
      Padded.eq_append_of_read? h₃, Text.eq_append_of_spanBefore? h₄,
      Text.eq_append_of_spanBefore? h₅]
    simp [source]
  · simp at h

def pattern : Pattern Declaration where
  read? := read?
  source := source
  source_ne_nil m := by simp [source]
  eq_append_of_read? := eq_append_of_read?

end Declaration

/-- The call `{GROUP: SELECTOR}(ARGUMENTS)` of a dispatcher. The selector ends at the first closing
brace, the arguments at the first closing parenthesis. -/
structure Shorthand where
  group : Padded
  selector : Text
  gap : Text
  arguments : Text
  deriving DecidableEq, Repr

namespace Shorthand

def source (m : Shorthand) : Text :=
  ['{'] ++ (m.group.source ++ ([':'] ++ (m.selector ++ (['}'] ++ (m.gap ++
    (['('] ++ (m.arguments ++ [')'])))))))

/-- The group at the front of a shorthand, and what follows its colon. -/
def group? (t : Text) : Option (Padded × Text) := do
  let t ← Text.skip? ['{'] t
  Padded.read? [':'] t

/-- The arguments after the brace of a shorthand, with the gap before them, and what follows. -/
def arguments? (t : Text) : Option (Text × Text × Text) := do
  let (gap, t) ← Text.blanksBefore? ['('] t
  let (arguments, t) ← Text.upTo? ')' t
  return (gap, arguments, t)

def read? (t : Text) : Option (Shorthand × Text) := do
  let (group, t) ← group? t
  let (selector, t) ← Text.upTo? '}' t
  let (gap, arguments, t) ← arguments? t
  return (⟨group, selector, gap, arguments⟩, t)

theorem eq_append_of_group? {t r : Text} {group : Padded} (h : group? t = some (group, r)) :
    t = ['{'] ++ (group.source ++ ([':'] ++ r)) := by
  simp only [group?, Option.bind_eq_bind, Option.bind_eq_some_iff] at h
  obtain ⟨t₁, h₁, h⟩ := h
  rw [Text.skip?_eq_some_iff.mp h₁, Padded.eq_append_of_read? h]

theorem eq_append_of_arguments? {t gap arguments r : Text}
    (h : arguments? t = some (gap, arguments, r)) :
    t = gap ++ (['('] ++ (arguments ++ ([')'] ++ r))) := by
  simp only [arguments?, Option.bind_eq_bind, Option.bind_eq_some_iff, Prod.exists,
    Option.pure_def, Option.some.injEq, Prod.mk.injEq] at h
  obtain ⟨gap, t₁, h₁, arguments, t₂, h₂, rfl, rfl, rfl⟩ := h
  rw [Text.eq_append_of_spanBefore? h₁, Text.eq_append_of_spanBefore? h₂]

theorem eq_append_of_read? {t r : Text} {m : Shorthand} (h : read? t = some (m, r)) :
    t = m.source ++ r := by
  simp only [read?, Option.bind_eq_bind, Option.bind_eq_some_iff, Prod.exists, Option.pure_def,
    Option.some.injEq, Prod.mk.injEq] at h
  obtain ⟨group, t₁, h₁, selector, t₂, h₂, gap, arguments, t₃, h₃, rfl, rfl⟩ := h
  rw [eq_append_of_group? h₁, Text.eq_append_of_spanBefore? h₂, eq_append_of_arguments? h₃]
  simp [source]

/-- Where a group is named and yet no marker begins, none begins before the next closing brace, for
it would have the same arguments; and none begins at all when it is the closing parenthesis that is
missing. -/
def quiet (t : Text) : Nat :=
  if (group? t).isNone then 0
  else
    match (Text.upTo? '}' t).bind fun (_, r) => Text.blanksBefore? ['('] r with
    | some _ => t.length
    | none => (t.tail.takeWhile (· ≠ '}')).length

/-- The name of a group holds no closing brace. -/
theorem dropWhile_of_group? {t r : Text} {group : Padded} (h : group? t = some (group, r)) :
    t.dropWhile (· ≠ '}') = r.dropWhile (· ≠ '}') := by
  simp only [group?, Option.bind_eq_bind, Option.bind_eq_some_iff] at h
  obtain ⟨t₁, h₁, h⟩ := h
  rw [Text.skip?_eq_some_iff.mp h₁, Padded.eq_append_of_read? h, ← List.append_assoc,
    ← List.append_assoc, List.dropWhile_append_of_pos]
  intro c hc
  simp only [List.mem_append, List.mem_singleton] at hc
  have hbrace : Text.isBlank '}' = false ∧ isNameChar '}' = false := by decide
  rcases hc with (rfl | hc) | rfl
  · decide
  · rcases Padded.of_mem_source h hc with hc | hc <;>
      exact decide_eq_true fun heq => by simp [heq, hbrace] at hc
  · decide

/-- Whether a shorthand begins is settled by its group and by what follows the brace. -/
theorem read?_isSome_iff {t : Text} :
    (read? t).isSome ↔ (group? t).isSome ∧
      ∃ r, Text.skip? ['}'] (t.dropWhile (· ≠ '}')) = some r ∧ (arguments? r).isSome := by
  cases hgroup : group? t with
  | none => simp [read?, hgroup]
  | some group =>
    rw [dropWhile_of_group? hgroup, ← Text.map_snd_upTo?]
    cases hselector : Text.upTo? '}' group.2 with
    | none => simp [read?, hgroup, hselector]
    | some selector =>
      cases harguments : arguments? selector.2 <;> simp [read?, hgroup, hselector, harguments]

/-- A shorthand holds a closing parenthesis. -/
theorem mem_of_isSome_read? {t : Text} (h : (read? t).isSome) : ')' ∈ t := by
  obtain ⟨m, hm⟩ := Option.isSome_iff_exists.mp h
  rw [eq_append_of_read? hm]
  simp [source]

theorem read?_drop_eq_none {c : Char} {t : Text} {k : Nat} (hnone : read? (c :: t) = none)
    (hk : k < quiet (c :: t)) : read? (t.drop k) = none := by
  rw [← Option.not_isSome_iff_eq_none] at hnone ⊢
  intro hsome
  unfold quiet at hk
  split at hk
  · simp at hk
  · rename_i hgroup
    rw [Bool.not_eq_true, Option.isNone_eq_false_iff] at hgroup
    have hc : c ≠ '}' := by
      rintro rfl
      simp [group?, Text.skip?] at hgroup
    have hcons : (c :: t).dropWhile (· ≠ '}') = t.dropWhile (· ≠ '}') := by simp [hc]
    obtain ⟨-, r, hr, hargs⟩ := read?_isSome_iff.mp hsome
    by_cases hlt : k < (t.takeWhile (· ≠ '}')).length
    · rw [Text.dropWhile_drop (Nat.le_of_lt hlt), ← hcons] at hr
      exact hnone (read?_isSome_iff.mpr ⟨hgroup, r, hr, hargs⟩)
    · split at hk
      · rename_i span hspan
        obtain ⟨⟨selector, s⟩, hselector, hgap⟩ := Option.bind_eq_some_iff.mp hspan
        have hs : ')' ∉ s := by
          intro hmem
          rw [Text.eq_append_of_spanBefore? hgap, List.mem_append, List.mem_append] at hmem
          have hrest : ')' ∉ span.2 := by
            rw [← Text.upTo?_eq_none_iff]
            refine Option.not_isSome_iff_eq_none.mp fun hupTo => hnone ?_
            rw [read?_isSome_iff, ← Text.map_snd_upTo?, hselector]
            refine ⟨hgroup, s, rfl, ?_⟩
            obtain ⟨arguments, harguments⟩ := Option.isSome_iff_exists.mp hupTo
            simp [arguments?, hgap, harguments]
          rcases hmem with hmem | hmem | hmem
          · rw [Text.eq_takeWhile_of_spanBefore? hgap] at hmem
            exact absurd (List.all_eq_true.mp List.all_takeWhile _ hmem) (by decide)
          · simp at hmem
          · exact hrest hmem
        have hcons : c :: t = selector ++ (['}'] ++ s) := Text.eq_append_of_spanBefore? hselector
        have hlen : selector.length ≤ k + 1 := by
          rw [Text.eq_takeWhile_of_spanBefore? hselector]
          simpa [hc] using hlt
        have hdrop : t.drop k = (['}'] ++ s).drop (k + 1 - selector.length) := by
          rw [← List.drop_succ_cons, hcons, List.drop_append, List.drop_eq_nil_of_le hlen,
            List.nil_append]
        have hmem := mem_of_isSome_read? hsome
        rw [hdrop] at hmem
        simpa [hs] using List.mem_of_mem_drop hmem
      · exact hlt hk

def pattern : Pattern Shorthand where
  read? := read?
  source := source
  quiet := quiet
  source_ne_nil m := by simp [source]
  eq_append_of_read? := eq_append_of_read?
  read?_drop_eq_none := read?_drop_eq_none

end Shorthand

end JsfxSugar.Dispatch
