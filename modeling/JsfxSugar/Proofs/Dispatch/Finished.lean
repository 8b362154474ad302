import JsfxSugar.Proofs.Dispatch.Leftover

/-! Writing out the dispatchers of a finished text once more. Every marker that is replaced takes one
brace away, so that a text comes through unchanged only when it has no markers. -/

namespace JsfxSugar.Dispatch

variable {t r : Text} {s : Synthesis}

theorem CallSite.count_source {m : CallSite} (h : CallSite.pattern.read? t = some (m, r)) :
    m.source.count '{' = 1 := by
  obtain ⟨-, hgroup, hgap, hfunction, -⟩ := CallSite.read?_eq_some_iff.mp h
  have hgroup : '{' ∉ m.group.source := hgroup.not_mem (by decide)
  have hgap : '{' ∉ m.gap := hgap.not_mem (by decide)
  have hfunction : '{' ∉ m.function := hfunction.not_mem (by decide)
  simp [source, List.count_eq_zero_of_not_mem, hgroup, hgap, hfunction]

theorem Declaration.count_source {d : Declaration} (h : Declaration.pattern.read? t = some (d, r)) :
    d.source.count '{' = 1 := by
  obtain ⟨hlead, htail⟩ := Declaration.brace_not_mem h
  rw [source_eq, List.count_append, List.count_cons_self, List.count_eq_zero_of_not_mem hlead,
    List.count_eq_zero_of_not_mem htail]

/-- Trimming leaves the braces of what a call is written with. -/
theorem Shorthand.count_source {m : Shorthand} (h : Shorthand.pattern.read? t = some (m, r)) :
    m.source.count '{' = m.written.count '{' + 1 := by
  obtain ⟨-, hgroup, -, hgap, -⟩ := Shorthand.read?_eq_some_iff.mp h
  have hname : '{' ∉ m.group.name := hgroup.name.not_mem (by decide)
  have hgroup : '{' ∉ m.group.source := hgroup.not_mem (by decide)
  have hgap : '{' ∉ m.gap := hgap.not_mem (by decide)
  have hsource : m.source.count '{' = 1 + m.selector.count '{' + m.arguments.count '{' := by
    simp only [source, List.count_append, List.count_eq_zero_of_not_mem hgroup,
      List.count_eq_zero_of_not_mem hgap]
    simp
    omega
  have hselector : m.selector.trim.count '{' = m.selector.count '{' := Text.count_trim (by decide)
  have harguments : m.arguments.trim.count '{' = m.arguments.count '{' := Text.count_trim (by decide)
  have hwritten : m.written.count '{' = m.selector.count '{' + m.arguments.count '{' := by
    rw [← hselector, ← harguments]
    unfold written
    simp only [List.count_append, List.count_eq_zero_of_not_mem hname]
    split
    · rename_i hempty
      rw [List.isEmpty_iff.mp hempty]
      simp
    · simp
  omega

/-- Every marker that is replaced takes one brace away. -/
theorem Synthesis.Writes.count_brace (h : s.Writes t) :
    t.count '{' = s.text.count '{' + (Shorthand.pattern.hits (declaredText s.table t)).length +
      (Declaration.pattern.hits (numberedText t)).length + (CallSite.pattern.hits t).length := by
  have hnumbered : t.count '{' =
      (numberedText t).count '{' + (CallSite.pattern.hits t).length := by
    apply Pattern.count_substitute
    intro m hm
    have hfunction := Pattern.forall_mem_hits (P := fun m : CallSite => IsName m.function)
      CallSite.isName_of_read? m hm
    have hsource : (CallSite.pattern.source m).count '{' = 1 :=
      Pattern.forall_mem_hits (P := fun m => (CallSite.pattern.source m).count '{' = 1)
        CallSite.count_source m hm
    have hbrace := CallSite.brace_not_mem_written (CallSite.pattern.hits t) hfunction
    rw [hsource, List.count_eq_zero_of_not_mem hbrace]
  have hdeclared : (numberedText t).count '{' = (declaredText s.table t).count '{' +
      (Declaration.pattern.hits (numberedText t)).length := by
    apply Pattern.count_substitute
    intro d hd
    obtain ⟨group, -, hdispatcher, hnamed⟩ := h.exists_dispatcher hd
    have hbrace : '{' ∉ group.dispatcher := hnamed.not_mem_dispatcher (by decide)
    have hsource : (Declaration.pattern.source d).count '{' = 1 :=
      Pattern.forall_mem_hits (P := fun d => (Declaration.pattern.source d).count '{' = 1)
        Declaration.count_source d hd
    rw [hsource, hdispatcher, List.count_eq_zero_of_not_mem hbrace]
  have hcalled : (declaredText s.table t).count '{' = s.text.count '{' +
      (Shorthand.pattern.hits (declaredText s.table t)).length := by
    rw [h.text_eq]
    exact Pattern.count_substitute (Pattern.forall_mem_hits Shorthand.count_source)
  omega

/-- A text in which nothing is declared or called. -/
structure Unmarked (t : Text) : Prop where
  declarations : Declaration.pattern.hits t = []
  calls : CallSite.pattern.hits t = []
  shorthands : Shorthand.pattern.hits t = []

theorem Unmarked.synthesize_eq (h : Unmarked t) : synthesize t = .ok ⟨t, ∅⟩ :=
  synthesize_of_hits_eq_nil h.declarations h.calls h.shorthands

/-- A text comes through unchanged exactly when it has no markers. -/
theorem unmarked_iff : Unmarked t ↔ ∃ s, synthesize t = .ok s ∧ s.text = t := by
  constructor
  · exact fun h => ⟨⟨t, ∅⟩, h.synthesize_eq, rfl⟩
  · rintro ⟨s, hs, htext⟩
    have hwrites := synthesize_writes hs
    have hcount := hwrites.count_brace
    rw [htext] at hcount
    have hcalls : CallSite.pattern.hits t = [] := List.length_eq_zero_iff.mp (by omega)
    have hdeclarations : Declaration.pattern.hits (numberedText t) = [] :=
      List.length_eq_zero_iff.mp (by omega)
    have hshorthands : Shorthand.pattern.hits (declaredText s.table t) = [] :=
      List.length_eq_zero_iff.mp (by omega)
    have hnumbered : numberedText t = t := Pattern.substitute_of_hits_eq_nil hcalls _
    have hdeclared : declaredText s.table t = t := by
      rw [declaredText, Pattern.substitute_of_hits_eq_nil hdeclarations, hnumbered]
    rw [hnumbered] at hdeclarations
    rw [hdeclared] at hshorthands
    exact ⟨hdeclarations, hcalls, hshorthands⟩

theorem Shorthand.brace_not_mem_written {m : Shorthand} (hname : IsName m.group.name)
    (hselector : '{' ∉ m.selector) (harguments : '{' ∉ m.arguments) : '{' ∉ m.written := by
  have hname : '{' ∉ m.group.name := hname.not_mem (by decide)
  have hselector : '{' ∉ m.selector.trim := fun h => hselector (m.selector.trim_isInfix.subset h)
  have harguments : '{' ∉ m.arguments.trim := fun h => harguments (m.arguments.trim_isInfix.subset h)
  unfold written
  split
  · simp [hname, hselector]
  · simp [hname, hselector, harguments]

/-- A finished text declares nothing. It names functions exactly where a call site stood right behind
a group of the source, or a call behind one when the dispatchers were written out; it holds calls only
where one stood within another. It comes through unchanged exactly when none of these is left. -/
theorem synthesize_synthesized (h : synthesize t = .ok s) :
    let declared := declaredText s.table t
    Declaration.pattern.hits s.text = [] ∧
    (CallSite.pattern.hits s.text = [] ↔
      NoneBehindGroup CallSite.pattern t ∧ NoneBehindGroup Shorthand.pattern declared) ∧
    ((∀ m ∈ Shorthand.pattern.hits declared, '{' ∉ m.selector ∧ '{' ∉ m.arguments) →
      Shorthand.pattern.hits s.text = []) ∧
    ((∃ again, synthesize s.text = .ok again ∧ again.text = s.text) ↔
      CallSite.pattern.hits s.text = [] ∧ Shorthand.pattern.hits s.text = []) := by
  intro declared
  have hwrites := synthesize_writes h
  have hdispatchers : ∀ d ∈ Declaration.pattern.hits (numberedText t),
      IsReplacement (d.written s.table) ∧ '{' ∉ d.written s.table ∧
        ∀ cls : Char → Bool, cls ';' = false → Text.EndsOutside cls (d.written s.table) := by
    intro d hd
    obtain ⟨group, -, hdispatcher, hnamed⟩ := hwrites.exists_dispatcher hd
    rw [hdispatcher]
    exact ⟨hnamed.isReplacement_dispatcher, hnamed.not_mem_dispatcher (by decide),
      fun cls hcls => group.endsOutside_dispatcher hcls⟩
  have hwritten : Declaration.pattern.hits declared = [] := by
    apply Declaration.hits_substitute_declaration
    intro d hd
    obtain ⟨hpiece, hbrace, hends⟩ := hdispatchers d hd
    exact ⟨hpiece, hbrace, hends _ (by decide)⟩
  have hdeclarations : Declaration.pattern.hits s.text = [] := by
    rw [hwrites.text_eq]
    exact Declaration.hits_substitute_shorthand hwritten
  refine ⟨hdeclarations, ?_, ?_, ?_⟩
  · rw [hwrites.text_eq, CallSite.hits_substitute_shorthand_eq_nil_iff, declaredText,
      CallSite.hits_substitute_declaration_eq_nil_iff, CallSite.hits_numberedText_eq_nil_iff]
    · rfl
    · intro d hd
      obtain ⟨hpiece, hbrace, hends⟩ := hdispatchers d hd
      exact ⟨hpiece, hbrace, hends _ (by decide)⟩
  · intro hnested
    rw [hwrites.text_eq]
    apply Shorthand.hits_substitute_eq_nil
    intro m hm
    obtain ⟨hselector, harguments⟩ := hnested m hm
    have hname := Pattern.forall_mem_hits (P := fun m : Shorthand => IsName m.group.name)
      Shorthand.isName_of_read? m hm
    exact Shorthand.brace_not_mem_written hname hselector harguments
  · rw [← unmarked_iff]
    exact ⟨fun hunmarked => ⟨hunmarked.calls, hunmarked.shorthands⟩,
      fun hnone => ⟨hdeclarations, hnone.1, hnone.2⟩⟩

/-- A source whose markers all stand between other words. -/
theorem synthesize_synthesized_voice :
    let t := "{g} f; {g: 1}(3); function {g}(a)".toList
    ∃ s, synthesize t = .ok s ∧ NoneBehindGroup CallSite.pattern t ∧
      NoneBehindGroup Shorthand.pattern (declaredText s.table t) ∧
      (Shorthand.pattern.hits (declaredText s.table t)).length = 1 ∧
      ∃ again, synthesize s.text = .ok again ∧ again.text = s.text := by
  intro t
  obtain ⟨s, hs⟩ : ∃ s, synthesize t = .ok s := exists_eq_ok_of_isSome (by decide +kernel)
  have hchecks : (synthesize t).toOption.map (fun s =>
      let ms := Shorthand.pattern.hits (declaredText s.table t)
      (ms.length, decide (∀ m ∈ ms, '{' ∉ m.selector ∧ '{' ∉ m.arguments),
        (CallSite.pattern.hits s.text).length)) = some (1, true, 0) := by decide +kernel
  rw [hs] at hchecks
  obtain ⟨hone, hrest⟩ := Prod.mk.inj (Option.some.inj hchecks)
  obtain ⟨hnested, hcalls⟩ := Prod.mk.inj hrest
  have hcalls : CallSite.pattern.hits s.text = [] := List.length_eq_zero_iff.mp hcalls
  obtain ⟨-, hseams, hshorthands, hagain⟩ := synthesize_synthesized hs
  obtain ⟨hbehind, hbehind'⟩ := hseams.mp hcalls
  exact ⟨s, hs, hbehind, hbehind', hone,
    hagain.mpr ⟨hcalls, hshorthands (of_decide_eq_true hnested)⟩⟩

/-- A call that stands among the arguments of another one is copied as it is, and its group is not
declared in the finished text. -/
theorem not_forall_synthesize_synthesized :
    ¬ ∀ (t : Text) (s : Synthesis), synthesize t = .ok s →
      CallSite.pattern.hits s.text = [] ∧ Shorthand.pattern.hits s.text = [] ∧
        ∃ again, synthesize s.text = .ok again ∧ again.text = s.text := by
  intro hall
  let t := "function {g}(a) x = {g: 1}({g: 2}(3));".toList
  obtain ⟨s, hs⟩ : ∃ s, synthesize t = .ok s := exists_eq_ok_of_isSome (by decide +kernel)
  have hleft : (synthesize t).toOption.map (fun s => (Shorthand.pattern.hits s.text).length) =
      some 1 := by decide +kernel
  obtain ⟨-, hnone, -⟩ := hall t s hs
  rw [hs] at hleft
  have hlength : (Shorthand.pattern.hits s.text).length = 1 := Option.some.inj hleft
  rw [hnone] at hlength
  exact absurd hlength (by decide)

end JsfxSugar.Dispatch
