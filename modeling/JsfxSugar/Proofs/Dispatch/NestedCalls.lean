import JsfxSugar.Proofs.Dispatch.Rewriting
import JsfxSugar.Proofs.Dispatch.Reading
import JsfxSugar.Proofs.Seam

/-! Calls of dispatchers with other calls among their arguments. Such a call is read up to the first
closing parenthesis only; but what is left of the arguments comes out as it is, and closes what was
opened. -/

namespace JsfxSugar

namespace Text

/-- The text without its blanks. -/
def squeezed (t : Text) : Text :=
  t.filter fun c => !isBlank c

/-- Parentheses that open and close in pairs, to any depth. -/
inductive Balanced : Text → Prop
  | nil : Balanced []
  | plain {c : Char} {t : Text} (not_open : c ≠ '(') (not_close : c ≠ ')') (rest : Balanced t) :
      Balanced (c :: t)
  | group {s t : Text} (inside : Balanced s) (rest : Balanced t) :
      Balanced ('(' :: (s ++ ')' :: t))

variable {s t : Text}

theorem squeezed_append (s t : Text) : (s ++ t).squeezed = s.squeezed ++ t.squeezed :=
  List.filter_append s t

@[simp]
theorem squeezed_nil : squeezed [] = [] :=
  rfl

theorem squeezed_cons_of_not_blank {c : Char} (h : isBlank c = false) (t : Text) :
    squeezed (c :: t) = c :: t.squeezed :=
  List.filter_cons_of_pos (by simp [h])

@[simp]
theorem squeezed_open (t : Text) : squeezed ('(' :: t) = '(' :: t.squeezed :=
  squeezed_cons_of_not_blank (by decide) t

@[simp]
theorem squeezed_close (t : Text) : squeezed (')' :: t) = ')' :: t.squeezed :=
  squeezed_cons_of_not_blank (by decide) t

@[simp]
theorem squeezed_comma (t : Text) : squeezed (',' :: t) = ',' :: t.squeezed :=
  squeezed_cons_of_not_blank (by decide) t

theorem squeezed_eq_nil (h : ∀ c ∈ t, isBlank c = true) : t.squeezed = [] := by
  rw [squeezed, List.filter_eq_nil_iff]
  intro c hc
  simp [h c hc]

/-- Trimming takes nothing but blanks. -/
theorem squeezed_trim (t : Text) : t.trim.squeezed = t.squeezed := by
  obtain ⟨front, back, ht, hfront, hback⟩ := exists_eq_trim t
  rw [ht, squeezed_append, squeezed_append, squeezed_eq_nil hfront, squeezed_eq_nil hback, ← ht,
    List.nil_append, List.append_nil]

theorem trim_eq_nil_iff : t.trim = [] ↔ ∀ c ∈ t, isBlank c = true := by
  constructor
  · intro h
    have hsqueezed : t.squeezed = [] := by
      rw [← squeezed_trim, h]
      rfl
    simpa [squeezed] using hsqueezed
  · exact fun h => trim_append h []

/-- What closes first was opened before. -/
theorem Balanced.open_mem (h : Balanced t) {front back : Text} (ht : t = front ++ ')' :: back) :
    '(' ∈ front := by
  induction h generalizing front with
  | nil => simp at ht
  | plain not_open not_close rest ih =>
    cases front with
    | nil => exact absurd (List.cons.inj ht).1 not_close
    | cons c front => exact List.mem_cons_of_mem c (ih (List.cons.inj ht).2)
  | group inside rest ihi ihr =>
    cases front with
    | nil => exact absurd (List.cons.inj ht).1 (by decide)
    | cons c front =>
      obtain ⟨rfl, -⟩ := List.cons.inj ht
      exact List.mem_cons_self

/-- Balanced arguments and the parenthesis after them, cut at the first parenthesis that closes. What
stands before the cut is blank only when the arguments are, and then the cut is at their end. -/
theorem Balanced.exists_cut (h : Balanced t) : ∃ front back,
    t ++ [')'] = front ++ ')' :: back ∧ ')' ∉ front ∧ front.all isBlank = t.all isBlank := by
  by_cases hmem : ')' ∈ t
  · obtain ⟨front, back, rfl, hfront⟩ := List.eq_append_cons_of_mem hmem
    refine ⟨front, back ++ [')'], by simp, hfront, ?_⟩
    have hopen : front.all isBlank = false :=
      List.all_eq_false.mpr ⟨'(', h.open_mem rfl, by decide⟩
    rw [List.all_append, hopen, Bool.false_and]
  · exact ⟨t, [], rfl, hmem, rfl⟩

end Text

namespace Dispatch

variable {before selector arguments after out : Text} {table table' : Table}

theorem Shorthand.resolve_append_of_not_mem {t u : Text} (h : '{' ∉ t) :
    pattern.resolve writeCall (t ++ u) table =
      (pattern.resolve writeCall u table).map (Prod.map (t ++ ·) id) :=
  Pattern.resolve_append_of_forall fun _ => read?_append_eq_none h

theorem writeCall_of_mem {m : Shorthand} (h : m.group.name ∈ table) :
    writeCall m table = .ok (m.written, table) := by
  obtain ⟨group, hgroup⟩ : ∃ group, table.demand m.group.name m.source = .ok group :=
    ⟨_, Table.demand_eq_ok_iff.mpr (Std.ExtTreeMap.getElem?_eq_some_getElem h)⟩
  exact bind_eq_ok_iff.mpr ⟨group, hgroup, rfl⟩

/-- The call `{GROUP:SELECTOR}(ARGUMENTS)`. -/
def shorthand (name selector arguments : Text) : Text :=
  ['{'] ++ name ++ [':'] ++ selector ++ ['}', '('] ++ arguments ++ [')']

/-- The call `GROUP(SELECTOR,ARGUMENTS)`, without the comma when the arguments are blank. -/
def plainCall (name selector arguments : Text) : Text :=
  let rest := if arguments.all Text.isBlank then [] else [','] ++ arguments
  name ++ ['('] ++ selector ++ rest ++ [')']

theorem squeezed_plainCall (name selector arguments : Text) :
    (plainCall name selector arguments).squeezed = name.squeezed ++ '(' :: (selector.squeezed ++
      ((if arguments.all Text.isBlank then [] else ',' :: arguments.squeezed) ++ [')'])) := by
  unfold plainCall
  split <;> simp [Text.squeezed_append]

/-- But for blanks, the call of a dispatcher is written out as a plain call. -/
theorem Shorthand.squeezed_written (m : Shorthand) :
    m.written.squeezed = (plainCall m.group.name m.selector m.arguments).squeezed := by
  have hblank : ∀ t, Text.squeezed (' ' :: t) = Text.squeezed t := fun t => rfl
  have htrim : m.arguments.trim.isEmpty = m.arguments.all Text.isBlank := by
    rw [Bool.eq_iff_iff, List.isEmpty_iff, Text.trim_eq_nil_iff, List.all_eq_true]
  rw [squeezed_plainCall]
  simp only [written, htrim]
  split <;> simp [Text.squeezed_append, Text.squeezed_trim, hblank]

/-- A call of a dispatcher comes out as a plain call, but for blanks, when the parentheses in its
arguments are balanced. What stands around it comes out as it does without the call. -/
theorem resolve_writeCall_balanced {source : Text} {d : Declaration}
    (hd : d ∈ Declaration.pattern.hits source) (hgroup : d.group.name ∈ table)
    (hbefore : '{' ∉ before) (hselector : '}' ∉ selector) (harguments : '{' ∉ arguments)
    (hbalanced : arguments.Balanced)
    (hafter : Shorthand.pattern.resolve writeCall after table = .ok (out, table')) :
    ∃ call, Shorthand.pattern.resolve writeCall
        (before ++ (shorthand d.group.name selector arguments ++ after)) table =
          .ok (before ++ (call ++ out), table') ∧
      call.squeezed = (plainCall d.group.name selector arguments).squeezed := by
  obtain ⟨hname, -⟩ := Declaration.isName_of_mem_hits hd
  obtain ⟨front, back, hcut, hfront, hblank⟩ := hbalanced.exists_cut
  have hplain : '{' ∉ back := by
    have hmem : '{' ∉ arguments ++ [')'] := by simp [harguments]
    rw [hcut] at hmem
    exact fun hback => hmem (by simp [hback])
  have hnogap : IsGap [] := List.forall_mem_nil _
  let m : Shorthand := ⟨⟨[], d.group.name, []⟩, selector, [], front⟩
  have hsource : shorthand d.group.name selector arguments ++ after =
      m.source ++ (back ++ after) := by
    have hclose : arguments ++ ')' :: after = front ++ ')' :: (back ++ after) := by
      simpa using congrArg (· ++ after) hcut
    simp [shorthand, Shorthand.source, Padded.source, m, hclose]
  have hread : Shorthand.pattern.read? (shorthand d.group.name selector arguments ++ after) =
      some (m, back ++ after) :=
    Shorthand.read?_eq_some_iff.mpr
      ⟨hsource, ⟨hnogap, hname, hnogap⟩, hselector, hnogap, hfront⟩
  refine ⟨m.written ++ back, ?_, ?_⟩
  · rw [Shorthand.resolve_append_of_not_mem hbefore, Pattern.resolve_of_read? hread,
      writeCall_of_mem hgroup]
    dsimp only
    rw [Shorthand.resolve_append_of_not_mem hplain, hafter]
    simp [Except.map]
  · -- What is left of the arguments, and the parenthesis after them, stands after the call.
    have hrest : arguments.squeezed ++ [')'] = front.squeezed ++ ')' :: Text.squeezed back := by
      simpa [Text.squeezed_append] using congrArg Text.squeezed hcut
    rw [Text.squeezed_append, Shorthand.squeezed_written, squeezed_plainCall, squeezed_plainCall,
      hblank]
    split
    · rename_i hall
      rw [Text.squeezed_eq_nil (List.all_eq_true.mp hall),
        Text.squeezed_eq_nil (List.all_eq_true.mp (hblank.trans hall))] at hrest
      simp [← (List.cons.inj hrest).2, m]
    · simp [← hrest, m]

/-- Arguments with a call within a call, in a shorthand before another one. -/
theorem resolve_writeCall_balanced_nested :
    let source : Text := "function {g}(a)".toList
    let d : Declaration := ⟨" ".toList, ⟨[], "g".toList, []⟩, [], "a".toList⟩
    let table : Table := (∅ : Table).insert d.group.name d.declared
    let before : Text := "y = ".toList
    let selector : Text := " s ".toList
    let arguments : Text := "a, f(b, h(c))".toList
    let after : Text := " + {g:t}()".toList
    d ∈ Declaration.pattern.hits source ∧ d.group.name ∈ table ∧
      ∃ out table' call, Shorthand.pattern.resolve writeCall after table = .ok (out, table') ∧
        Shorthand.pattern.resolve writeCall
          (before ++ (shorthand d.group.name selector arguments ++ after)) table =
            .ok (before ++ (call ++ out), table') ∧
        call.squeezed = (plainCall d.group.name selector arguments).squeezed := by
  intro source d table before selector arguments after
  have hd : d ∈ Declaration.pattern.hits source := by decide +kernel
  have hgroup : d.group.name ∈ table := Std.ExtTreeMap.mem_insert_self
  obtain ⟨⟨out, table'⟩, hafter⟩ :
      ∃ out, Shorthand.pattern.resolve writeCall after table = .ok out :=
    exists_eq_ok_of_isSome (by decide +kernel)
  have hinner : Text.Balanced "b, h(c)".toList := by
    refine .plain ?_ ?_ (.plain ?_ ?_ (.plain ?_ ?_ (.plain ?_ ?_
      (.group (.plain ?_ ?_ .nil) .nil)))) <;> decide
  have hbalanced : arguments.Balanced := by
    refine .plain ?_ ?_ (.plain ?_ ?_ (.plain ?_ ?_ (.plain ?_ ?_ (.group hinner .nil)))) <;> decide
  have hbefore : '{' ∉ before := by decide
  have hselector : '}' ∉ selector := by decide
  have harguments : '{' ∉ arguments := by decide
  obtain ⟨call, hcall, hsqueezed⟩ :=
    resolve_writeCall_balanced hd hgroup hbefore hselector harguments hbalanced hafter
  exact ⟨hd, hgroup, out, table', call, hafter, hcall, hsqueezed⟩

end Dispatch

end JsfxSugar
