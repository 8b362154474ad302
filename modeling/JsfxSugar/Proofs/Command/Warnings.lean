import JsfxSugar.Proofs.Command.Execution
import JsfxSugar.Proofs.Command.Flags
import JsfxSugar.Proofs.Enumeration.Uncounted

/-! Warnings that are denied: a run that has any ends with one and writes nothing, and a run that has
none is the same as without the flag. -/

namespace JsfxSugar.Command

variable {request : Request} {dir : Directory} {source : Text} {stage : Stage} {run : Run}

/-- What a run through the stages warns of is what the numbering of the unrolled source does. -/
theorem warnings_of_upTo {u : Text} {n : Enumeration.Numbering} (hstage : stage ≠ .ranges)
    (hu : Range.unroll source = .ok u) (hn : Enumeration.number u = .ok n)
    (hrun : Run.upTo stage source = .ok run) : run.warnings = n.table.warnings := by
  cases stage with
  | ranges => exact absurd rfl hstage
  | enumerations =>
    obtain ⟨u', n', hu', hn', rfl⟩ := Run.upTo_enumerations_eq_ok_iff.mp hrun
    obtain rfl := Except.ok.inj (hu.symm.trans hu')
    obtain rfl := Except.ok.inj (hn.symm.trans hn')
    rfl
  | dispatch =>
    obtain ⟨u', n', s, hu', hn', -, rfl⟩ := desugar_eq_ok_iff.mp hrun
    obtain rfl := Except.ok.inj (hu.symm.trans hu')
    obtain rfl := Except.ok.inj (hn.symm.trans hn')
    rfl

namespace Request

/-- The banner does not hang on whether warnings are denied. -/
theorem written_without (request : Request) (run : Run) :
    (request.without .denyWarnings).written run = request.written run := by
  simp [written, without]

/-- A run that has nothing to warn of reports the same when warnings are not denied. -/
theorem report_without (hstage : request.product.lastStage? = some stage)
    (hrun : Run.upTo stage source = .ok run) (hnone : run.warnings = []) :
    (request.without .denyWarnings).report source = request.report source := by
  have hstage' : (request.without .denyWarnings).product.lastStage? = some stage := hstage
  unfold report
  rw [hstage, hstage']
  dsimp only
  rw [hrun]
  simp [hnone, written_without]

/-- A run ends with one when its source comes to no output. -/
theorem execute_of_output_eq_none (hread : dir.read request.input = .ok source)
    (hnone : (request.report source).output = none) :
    (request.execute dir).exit = 1 ∧ (request.execute dir).directory = dir := by
  rw [execute_eq, hread]
  dsimp only
  rw [hnone]
  exact ⟨rfl, rfl⟩

theorem exit_ne_one_of_output_eq_some {text : Text} (hread : dir.read request.input = .ok source)
    (hsome : (request.report source).output = some text) : (request.execute dir).exit ≠ 1 := by
  rw [execute_eq, hread]
  dsimp only
  rw [hsome]
  dsimp only
  split <;> simp

/-- Where warnings are denied, a run ends with one for its warnings only. -/
theorem exit_eq_one_iff (hdeny : .denyWarnings ∈ request.flags)
    (hstage : request.product.lastStage? = some stage)
    (hread : dir.read request.input = .ok source) (hrun : Run.upTo stage source = .ok run) :
    (request.execute dir).exit = 1 ∧ (request.execute dir).directory = dir ↔ run.warnings ≠ [] := by
  constructor
  · rintro ⟨hexit, -⟩ hnone
    have houtput := (output_eq_some_iff hstage).mpr ⟨run, hrun, fun _ => hnone, rfl⟩
    exact exit_ne_one_of_output_eq_some hread houtput hexit
  · intro hsome
    refine execute_of_output_eq_none hread (Option.eq_none_iff_forall_ne_some.mpr ?_)
    intro text houtput
    obtain ⟨other, hother, hallowed, -⟩ := (output_eq_some_iff hstage).mp houtput
    obtain rfl := Except.ok.inj (hrun.symm.trans hother)
    exact hsome (hallowed hdeny)

/-- A run that has nothing to warn of goes the same way when warnings are not denied. -/
theorem execute_without (hstage : request.product.lastStage? = some stage)
    (hread : dir.read request.input = .ok source) (hrun : Run.upTo stage source = .ok run)
    (hnone : run.warnings = []) :
    (request.without .denyWarnings).execute dir = request.execute dir := by
  have hread' : dir.read (request.without .denyWarnings).input = .ok source := hread
  rw [execute_eq, execute_eq, hread, hread']
  dsimp only
  rw [report_without hstage hrun hnone]
  rfl

end Request

/-- A source whose enumerations can be numbered is warned of for each of its groups once that is not
counted in the text in which its references are numbered, in the order of the bytes of the names.
Where warnings are denied, a run on such a source through its stages ends with one and leaves the
directory as it was when there is a warning, and does what it does without the flag when there is
none. -/
theorem warnings_exact {t : Text} {n : Enumeration.Numbering} (h : Enumeration.number t = .ok n) :
    (∃ (u : Text) (names : List Text), Enumeration.numberReferences t = .ok u ∧
      n.table.warnings = names.map Enumeration.Table.uncounted ∧
      names.Pairwise (·.bytes < ·.bytes) ∧
      ∀ name, name ∈ names ↔ name ∈ n.table ∧ ¬ Enumeration.Counted name u) ∧
    ∀ (arguments : List Text) (dir : Directory) (request : Request) (source : Text) (stage : Stage)
      (run : Run), Invocation.ofArguments arguments = .run request →
      .denyWarnings ∈ request.flags → request.product ∈ [.jsfx, .enumerations, .symbols] →
      request.product.lastStage? = some stage → dir.read request.input = .ok source →
      Range.unroll source = .ok t → Run.upTo stage source = .ok run →
        let outcome := execute arguments dir
        (outcome.exit = 1 ∧ outcome.directory = dir ↔ n.table.warnings ≠ []) ∧
        (n.table.warnings = [] →
          outcome = execute (arguments.erase Flag.denyWarnings.argument) dir) := by
  refine ⟨Enumeration.exists_warnings_eq h, ?_⟩
  intro arguments dir request source stage run hrequest hdeny hproduct hstage hread hunroll hrun
  have hwarned : stage ≠ .ranges := by
    rintro rfl
    cases hemit : request.product <;> simp [hemit, Product.lastStage?] at hstage hproduct
  rw [← warnings_of_upTo hwarned hunroll h hrun]
  rw [execute_eq, execute_eq, hrequest, Invocation.ofArguments_erase hrequest hdeny]
  refine ⟨request.exit_eq_one_iff hdeny hstage hread hrun, fun hnone => ?_⟩
  exact (request.execute_without hstage hread hrun hnone).symm

/-- A source with a group that is counted once and two that are not, one of which has a forced value
only; and a source with nothing to warn of. -/
theorem warnings_exact_two_sources :
    let warned : Text := "v#a v## k#b(3) m#c".toList
    let clean : Text := "v#a v#".toList
    let dir (source : Text) : Directory :=
      ⟨[({ names := [['a']] }, .file (String.ofList source).toUTF8)]⟩
    let arguments : List Text := [['a'], "--deny-warnings".toList, "--emit=enums".toList, ['b']]
    (∃ (n : Enumeration.Numbering) (u : Text) (names : List Text),
      Enumeration.number warned = .ok n ∧ Enumeration.numberReferences warned = .ok u ∧
        n.table.warnings = names.map Enumeration.Table.uncounted ∧
        names.Pairwise (·.bytes < ·.bytes) ∧
        ∀ name, name ∈ names ↔ name ∈ n.table ∧ ¬ Enumeration.Counted name u) ∧
    (execute arguments (dir warned)).exit = 1 ∧
    (execute arguments (dir warned)).directory = dir warned ∧
    execute arguments (dir clean) =
      execute [['a'], "--emit=enums".toList, ['b']] (dir clean) := by
  intro warned clean dir arguments
  let request : Request :=
    { input := ['a'], output := ['b'], product := .enumerations, flags := [.denyWarnings] }
  have hrequest : Invocation.ofArguments arguments = .run request := by decide
  have hread : ∀ source, (dir source).read ['a'] = .ok source := fun source =>
    Directory.read_eq_ok_iff.mpr ⟨{ names := [['a']] }, _, rfl, rfl, fromUTF8?_toUTF8 _⟩
  have hplain : ∀ source ∈ [warned, clean], Range.unroll source = .ok source := by
    intro source hsource
    apply Range.unroll_of_hits_eq_nil
    revert source
    decide +kernel
  obtain ⟨n, hn⟩ : ∃ n, Enumeration.number warned = .ok n :=
    exists_eq_ok_of_isSome (by decide +kernel)
  obtain ⟨n', hn'⟩ : ∃ n, Enumeration.number clean = .ok n :=
    exists_eq_ok_of_isSome (by decide +kernel)
  have hwarned : n.table.warnings ≠ [] := by
    have hlength : (Enumeration.number warned).toOption.map (·.table.warnings.length) = some 2 := by
      decide +kernel
    rw [hn] at hlength
    intro hnone
    simp [Except.toOption, hnone] at hlength
  have hclean : n'.table.warnings = [] := by
    have hlength : (Enumeration.number clean).toOption.map (·.table.warnings.length) = some 0 := by
      decide +kernel
    rw [hn'] at hlength
    exact List.length_eq_zero_iff.mp (Option.some.inj hlength)
  obtain ⟨⟨u, names, hu, hnames⟩, hruns⟩ := warnings_exact hn
  obtain ⟨-, hruns'⟩ := warnings_exact hn'
  have hdenied := (hruns arguments (dir warned) request warned .enumerations _ hrequest (by decide)
    (by decide) rfl (hread warned) (hplain warned (by simp))
    (Run.upTo_enumerations_eq_ok_iff.mpr ⟨_, _, hplain warned (by simp), hn, rfl⟩)).1.mpr hwarned
  have hsame := (hruns' arguments (dir clean) request clean .enumerations _ hrequest (by decide)
    (by decide) rfl (hread clean) (hplain clean (by simp))
    (Run.upTo_enumerations_eq_ok_iff.mpr ⟨_, _, hplain clean (by simp), hn', rfl⟩)).2 hclean
  have herase : arguments.erase Flag.denyWarnings.argument =
      [['a'], "--emit=enums".toList, ['b']] := by decide
  rw [herase] at hsame
  exact ⟨⟨n, u, names, hn, hu, hnames⟩, hdenied.1, hdenied.2, hsame⟩

end JsfxSugar.Command
