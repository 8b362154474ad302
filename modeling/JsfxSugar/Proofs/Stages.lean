import JsfxSugar.Proofs.Dispatch.Signs
import JsfxSugar.Proofs.Enumeration.Signs
import JsfxSugar.Proofs.Range.Rescan
import JsfxSugar.Run

/-! The stages one after the other. A stage writes no markers of the stages before it, so that a
finished text without braces has nothing left for any of them. -/

namespace JsfxSugar

variable {source : Text} {run : Run}

theorem Run.step_eq_ok_iff {stage : Stage} {next : Run} : run.step stage = .ok next ↔
    ∃ after, run.advance stage = .ok after ∧
      next = { after with stages := run.stages ++ [stage] } := by
  unfold step
  cases run.advance stage with
  | error fault => simp
  | ok after => simp [eq_comm]

/-- Only the ranges of a source are unrolled. -/
theorem Run.upTo_ranges_eq_ok_iff : Run.upTo .ranges source = .ok run ↔
    ∃ u, Range.unroll source = .ok u ∧ run = { text := u, stages := [.ranges] } := by
  simp only [Run.upTo, Stage.required, List.foldlM_cons, List.foldlM_nil, bind_eq_ok_iff,
    Run.step_eq_ok_iff, Run.advance]
  constructor
  · rintro ⟨first, ⟨_, ⟨u, hu, hfirst⟩, rfl⟩, hlast⟩
    obtain rfl := Except.ok.inj hfirst
    obtain rfl := Except.ok.inj hlast
    exact ⟨u, hu, rfl⟩
  · rintro ⟨u, hu, rfl⟩
    exact ⟨_, ⟨_, ⟨u, hu, rfl⟩, rfl⟩, rfl⟩

/-- The ranges of a source are unrolled and its enumerations are numbered. -/
theorem Run.upTo_enumerations_eq_ok_iff : Run.upTo .enumerations source = .ok run ↔
    ∃ u n, Range.unroll source = .ok u ∧ Enumeration.number u = .ok n ∧
      run = { text := n.text, warnings := n.table.warnings, enumerations := n.table,
              stages := [.ranges, .enumerations] } := by
  simp only [Run.upTo, Stage.required, List.foldlM_cons, List.foldlM_nil, bind_eq_ok_iff,
    Run.step_eq_ok_iff, Run.advance]
  constructor
  · rintro ⟨first, ⟨_, ⟨u, hu, hfirst⟩, rfl⟩, second, ⟨_, ⟨n, hn, hsecond⟩, rfl⟩, hlast⟩
    obtain rfl := Except.ok.inj hfirst
    obtain rfl := Except.ok.inj hsecond
    obtain rfl := Except.ok.inj hlast
    exact ⟨u, n, hu, hn, rfl⟩
  · rintro ⟨u, n, hu, hn, rfl⟩
    exact ⟨_, ⟨_, ⟨u, hu, rfl⟩, rfl⟩, _, ⟨_, ⟨n, hn, rfl⟩, rfl⟩, rfl⟩

/-- A source goes through all stages when each of them succeeds on what the one before it wrote. -/
theorem desugar_eq_ok_iff : desugar source = .ok run ↔
    ∃ u n s, Range.unroll source = .ok u ∧ Enumeration.number u = .ok n ∧
      Dispatch.synthesize n.text = .ok s ∧
      run = { text := s.text, warnings := n.table.warnings, enumerations := n.table,
              dispatch := s.table, stages := [.ranges, .enumerations, .dispatch] } := by
  simp only [desugar, Run.upTo, Stage.required, List.foldlM_cons, List.foldlM_nil, bind_eq_ok_iff,
    Run.step_eq_ok_iff, Run.advance]
  constructor
  · rintro ⟨first, ⟨_, ⟨u, hu, hfirst⟩, rfl⟩, second, ⟨_, ⟨n, hn, hsecond⟩, rfl⟩,
      third, ⟨_, ⟨s, hs, hthird⟩, rfl⟩, hlast⟩
    obtain rfl := Except.ok.inj hfirst
    obtain rfl := Except.ok.inj hsecond
    obtain rfl := Except.ok.inj hthird
    obtain rfl := Except.ok.inj hlast
    exact ⟨u, n, s, hu, hn, hs, rfl⟩
  · rintro ⟨u, n, s, hu, hn, hs, rfl⟩
    exact ⟨_, ⟨_, ⟨u, hu, rfl⟩, rfl⟩, _, ⟨_, ⟨n, hn, rfl⟩, rfl⟩, _, ⟨_, ⟨s, hs, rfl⟩, rfl⟩, rfl⟩

/-- Numbering and writing out dispatchers bring about no mark of a range block, and writing out
dispatchers brings no sign behind a name. So no sign stands behind a name in the end; and when no
brace is left either, the text comes through all stages as it is, with nothing found in it. -/
theorem desugar_introduces_no_markers :
    (∀ t : Text, ¬ Range.Mark.stray.source <:+: t →
      (∀ n, Enumeration.number t = .ok n → ¬ Range.Mark.stray.source <:+: n.text) ∧
      ∀ s, Dispatch.synthesize t = .ok s → ¬ Range.Mark.stray.source <:+: s.text) ∧
    (∀ t s, Text.NoSignAfter Enumeration.isNameChar t → Dispatch.synthesize t = .ok s →
      Text.NoSignAfter Enumeration.isNameChar s.text) ∧
    ∀ source run, desugar source = .ok run →
      Text.NoSignAfter Enumeration.isNameChar run.text ∧
      ('{' ∉ run.text → desugar run.text =
        .ok { text := run.text, stages := [.ranges, .enumerations, .dispatch] }) := by
  refine ⟨?_, ?_, ?_⟩
  · intro t ht
    rw [← noSignAfter_brace_iff] at ht
    constructor
    · intro n hn
      exact noSignAfter_brace_iff.mp (Enumeration.noSignAfter_brace_number ht hn)
    · intro s hs
      exact noSignAfter_brace_iff.mp (Dispatch.noSignAfter_synthesize (by decide) ht hs)
  · intro t s ht hs
    exact Dispatch.noSignAfter_synthesize (by decide) ht hs
  · intro source run hrun
    obtain ⟨u, n, s, -, hn, hs, rfl⟩ := desugar_eq_ok_iff.mp hrun
    have hsign : Text.NoSignAfter Enumeration.isNameChar s.text :=
      Dispatch.noSignAfter_synthesize (by decide) (Enumeration.noSignAfter_number hn) hs
    refine ⟨hsign, fun hbrace => ?_⟩
    have hmarks : Range.Mark.pattern.hits s.text = [] := by
      apply Pattern.hits_eq_nil_of_not_mem hbrace
      intro mark
      cases mark <;> simp [Range.Mark.pattern, Range.Mark.source, Range.Opening.source]
    exact desugar_eq_ok_iff.mpr ⟨s.text, ⟨s.text, ∅⟩, ⟨s.text, ∅⟩,
      Range.unroll_of_hits_eq_nil hmarks, Enumeration.number_of_noSignAfter hsign,
      Dispatch.synthesize_of_not_mem hbrace, rfl⟩

/-- A source with a range, an enumeration, and a group that is called. -/
theorem desugar_introduces_no_markers_voices :
    let source := "{#i=1,2}v#i {#}v# {g} f; {g: 1}(v#); function {g}(x)".toList
    let plain := "v#a {g} f; function {g}(x)".toList
    (∃ run, desugar source = .ok run ∧ Text.NoSignAfter Enumeration.isNameChar run.text ∧
      '{' ∉ run.text ∧ desugar run.text =
        .ok { text := run.text, stages := [.ranges, .enumerations, .dispatch] }) ∧
    (∃ n s, Enumeration.number plain = .ok n ∧ Dispatch.synthesize n.text = .ok s ∧
      ¬ Range.Mark.stray.source <:+: n.text ∧ ¬ Range.Mark.stray.source <:+: s.text ∧
      Text.NoSignAfter Enumeration.isNameChar s.text) := by
  intro source plain
  obtain ⟨hmarks, hsigns, hruns⟩ := desugar_introduces_no_markers
  constructor
  · obtain ⟨run, hrun⟩ : ∃ run, desugar source = .ok run :=
      exists_eq_ok_of_isSome (by decide +kernel)
    obtain ⟨hsign, hagain⟩ := hruns source run hrun
    have hbrace : ((desugar source).toOption.map fun run => decide ('{' ∈ run.text)) =
        some false := by decide +kernel
    rw [hrun] at hbrace
    have hbrace : '{' ∉ run.text := of_decide_eq_false (Option.some.inj hbrace)
    exact ⟨run, hrun, hsign, hbrace, hagain hbrace⟩
  · obtain ⟨n, hn⟩ : ∃ n, Enumeration.number plain = .ok n :=
      exists_eq_ok_of_isSome (by decide +kernel)
    have htext : (Enumeration.number plain).toOption.map (·.text) =
        some "0/*v:a*/ {g} f; function {g}(x)".toList := by decide +kernel
    rw [hn] at htext
    have htext : n.text = "0/*v:a*/ {g} f; function {g}(x)".toList := Option.some.inj htext
    obtain ⟨s, hs⟩ : ∃ s, Dispatch.synthesize n.text = .ok s := by
      rw [htext]
      exact exists_eq_ok_of_isSome (by decide +kernel)
    have hplain : ¬ Range.Mark.stray.source <:+: plain := by decide +kernel
    have hnumbered := (hmarks plain hplain).1 n hn
    have hnosign : Text.NoSignAfter Enumeration.isNameChar n.text :=
      Enumeration.noSignAfter_number hn
    exact ⟨n, s, hn, hs, hnumbered, (hmarks n.text hnumbered).2 s hs, hsigns _ s hnosign hs⟩

end JsfxSugar
