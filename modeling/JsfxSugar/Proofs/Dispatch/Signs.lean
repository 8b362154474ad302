import JsfxSugar.Proofs.Dispatch.Rewriting
import JsfxSugar.Proofs.Signs

/-! Writing out dispatchers brings no number sign behind a character that had none. -/

namespace JsfxSugar.Dispatch

variable {t : Text} {s : Synthesis} {group : Group} {cls : Char → Bool}

theorem IsName.sign_not_mem {name : Text} (h : IsName name) : '#' ∉ name :=
  h.not_mem (by decide)

theorem CallSite.sealed_written (calls : List CallSite) {m : CallSite} (h : IsName m.function)
    (hcls : cls '/' = false) : Text.Sealed cls (m.written calls) :=
  Text.sealed_append_comment (Text.not_mem_ofNat (by decide) _) h.sign_not_mem hcls

theorem Group.Named.sealed_dispatcher (h : group.Named) (hcls : cls ';' = false) :
    Text.Sealed cls group.dispatcher := by
  have hsign : '#' ∉ group.dispatcher := h.not_mem_dispatcher (by decide)
  obtain ⟨body, hbody⟩ := group.exists_dispatcher_eq
  obtain ⟨front, hne, hfront⟩ : ∃ front, front ≠ [] ∧ group.dispatcher = front ++ [';'] := by
    refine ⟨keyword ++ ' ' :: (group.name ++ '(' :: (group.signature ++ ')' :: body)), by simp, ?_⟩
    simp only [hbody, List.append_assoc, List.cons_append]
  rw [hfront] at hsign ⊢
  have hsign' : '#' ∉ front := fun hmem => hsign (List.mem_append_left [';'] hmem)
  apply Text.sealed_concat hne ?_ (Text.noSignAfter_of_not_mem hsign') hcls (by decide)
  exact fun hhead => hsign' (List.mem_of_head? hhead)

/-- Trimming what a call is written with leaves its blanks, commas and parentheses between its
parts. -/
theorem Shorthand.sealed_written {m : Shorthand} (hname : IsName m.group.name)
    (hsource : Text.NoSignAfter cls m.source) (hopen : cls '(' = false) (hspace : cls ' ' = false)
    (hclose : cls ')' = false) : Text.Sealed cls m.written := by
  have hselector : Text.NoSignAfter cls m.selector.trim :=
    hsource.of_isInfix (m.selector.trim_isInfix.trans m.selector_isInfix_source)
  have harguments : Text.NoSignAfter cls m.arguments.trim :=
    hsource.of_isInfix (m.arguments.trim_isInfix.trans m.arguments_isInfix_source)
  have hcall : Text.NoSignAfter cls (m.group.name ++ ['(']) := by
    apply Text.noSignAfter_of_not_mem
    simp [hname.sign_not_mem]
  have hfirst : Text.NoSignAfter cls (m.group.name ++ ['('] ++ m.selector.trim) :=
    Text.noSignAfter_append.mpr
      ⟨hcall, hselector, fun _ => Text.endsOutside_concat.mpr hopen⟩
  have hrest : Text.NoSignAfter cls ([',', ' '] ++ m.arguments.trim) := by
    refine Text.noSignAfter_append.mpr ⟨Text.noSignAfter_of_not_mem (by decide), harguments, ?_⟩
    intro _
    exact (Text.endsOutside_concat (t := [','])).mpr hspace
  obtain ⟨c, name, heq, hc⟩ := hname.exists_cons
  have hhead : c ≠ '#' := by
    rintro rfl
    revert hc
    decide
  apply Text.sealed_concat (by simp [heq]) (by simp [heq, hhead]) ?_ hclose (by decide)
  split
  · rw [List.append_nil]
    exact hfirst
  · exact Text.noSignAfter_append.mpr ⟨hfirst, hrest, by simp⟩

/-- Writing out dispatchers brings no sign behind a character of a class, when none of the characters
that are written last belongs to the class. -/
theorem noSignAfter_synthesize (hcls : ['(', ' ', ')', '/', ';'].any cls = false)
    (ht : Text.NoSignAfter cls t) (h : synthesize t = .ok s) : Text.NoSignAfter cls s.text := by
  have hcls : ∀ c ∈ ['(', ' ', ')', '/', ';'], cls c = false := by simpa using hcls
  have hwrites := synthesize_writes h
  have hnumbered : Text.NoSignAfter cls (numberedText t) := by
    apply Pattern.noSignAfter_substitute ht
    intro m hm
    have hfunction := Pattern.forall_mem_hits (P := fun m : CallSite => IsName m.function)
      CallSite.isName_of_read? m hm
    exact CallSite.sealed_written _ hfunction (hcls '/' (by simp))
  have hdeclared : Text.NoSignAfter cls (declaredText s.table t) := by
    apply Pattern.noSignAfter_substitute hnumbered
    intro m hm
    obtain ⟨group, -, hdispatcher, hnamed⟩ := hwrites.exists_dispatcher hm
    rw [hdispatcher]
    exact hnamed.sealed_dispatcher (hcls ';' (by simp))
  rw [hwrites.text_eq]
  apply Pattern.noSignAfter_substitute hdeclared
  intro m hm
  have hname := Pattern.forall_mem_hits (P := fun m : Shorthand => IsName m.group.name)
    Shorthand.isName_of_read? m hm
  have hsource := hdeclared.of_isInfix (Pattern.source_isInfix_of_mem_hits hm)
  exact Shorthand.sealed_written hname hsource (hcls '(' (by simp)) (hcls ' ' (by simp))
    (hcls ')' (by simp))

/-- A text without braces has no dispatchers to write out. -/
theorem synthesize_of_not_mem (h : '{' ∉ t) : synthesize t = .ok ⟨t, ∅⟩ := by
  apply synthesize_of_hits_eq_nil
  · exact Pattern.hits_eq_nil_of_not_mem h fun m => by simp [Declaration.pattern, Declaration.source]
  · exact Pattern.hits_eq_nil_of_not_mem h fun m => by simp [CallSite.pattern, CallSite.source]
  · exact Pattern.hits_eq_nil_of_not_mem h fun m => by simp [Shorthand.pattern, Shorthand.source]

end JsfxSugar.Dispatch
