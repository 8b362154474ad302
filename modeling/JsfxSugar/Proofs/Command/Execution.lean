import JsfxSugar.Command.Execution
import JsfxSugar.Proofs.Command.Directory
import JsfxSugar.Proofs.Stages

/-! Carrying out a command line is all or nothing: a run that fails leaves every file as it was, and
one that succeeds has written the whole text that was asked for, and nothing else. -/

namespace JsfxSugar.Command

variable {request : Request} {source text : Text} {dir : Directory} {stage : Stage}

/-- The whole text of a product of a source, with what there is to warn of. -/
inductive Product.Gives (flags : List Flag) (source : Text) :
    Product → Text → List Diagnostic → Prop
  | jsfx {u : Text} {n : Enumeration.Numbering} {s : Dispatch.Synthesis}
      (unrolled : Range.unroll source = .ok u) (numbered : Enumeration.number u = .ok n)
      (synthesized : Dispatch.synthesize n.text = .ok s) (bannered : .noBanner ∉ flags) :
      Gives flags source .jsfx (banner ++ ['\n'] ++ s.text) n.table.warnings
  | bare {u : Text} {n : Enumeration.Numbering} {s : Dispatch.Synthesis}
      (unrolled : Range.unroll source = .ok u) (numbered : Enumeration.number u = .ok n)
      (synthesized : Dispatch.synthesize n.text = .ok s) (plain : .noBanner ∈ flags) :
      Gives flags source .jsfx s.text n.table.warnings
  | ranges {u : Text} (unrolled : Range.unroll source = .ok u) : Gives flags source .ranges u []
  | enumerations {u : Text} {n : Enumeration.Numbering}
      (unrolled : Range.unroll source = .ok u) (numbered : Enumeration.number u = .ok n) :
      Gives flags source .enumerations n.text n.table.warnings
  | symbols {u : Text} {n : Enumeration.Numbering} {s : Dispatch.Synthesis}
      (unrolled : Range.unroll source = .ok u) (numbered : Enumeration.number u = .ok n)
      (synthesized : Dispatch.synthesize n.text = .ok s) :
      Gives flags source .symbols (Symbols.ofTables n.table s.table).json.text n.table.warnings
  | buildInfo : Gives flags source .buildInfo (Provenance.ofSource source).json.text []

/-- A run that can be carried out in a directory: what it reads and writes, what it warns of, and
where its output goes. -/
structure Request.Completes (request : Request) (dir : Directory) (source text : Text)
    (warnings : List Diagnostic) (location : Location) : Prop where
  input : dir.read request.input = .ok source
  gives : request.product.Gives request.flags source text warnings
  allowed : .denyWarnings ∈ request.flags → warnings = []
  output : dir.locate request.output = .ok location
  place : dir.node? location ≠ some .folder

/-- A run through the stages has an output when they succeed and no warning forbids it. -/
theorem Request.output_eq_some_iff (hstage : request.product.lastStage? = some stage) :
    (request.report source).output = some text ↔ ∃ run, Run.upTo stage source = .ok run ∧
      (.denyWarnings ∈ request.flags → run.warnings = []) ∧ text = request.written run := by
  unfold report
  rw [hstage]
  dsimp only
  cases hrun : Run.upTo stage source with
  | error failure =>
    constructor
    · intro h
      cases h
    · rintro ⟨run, hok, -⟩
      cases hok
  | ok run =>
    dsimp only
    by_cases hdenied : .denyWarnings ∈ request.flags ∧ run.warnings ≠ []
    · rw [if_pos hdenied]
      constructor
      · intro h
        cases h
      · rintro ⟨other, hother, hallowed, -⟩
        obtain rfl := Except.ok.inj hother
        exact absurd (hallowed hdenied.1) hdenied.2
    · rw [if_neg hdenied]
      constructor
      · intro h
        refine ⟨run, rfl, fun hdeny => ?_, (Option.some.inj h).symm⟩
        by_contra hwarnings
        exact hdenied ⟨hdeny, hwarnings⟩
      · rintro ⟨other, hother, -, rfl⟩
        obtain rfl := Except.ok.inj hother
        rfl

/-- What a report puts out is the product that was asked for. -/
theorem Request.output_eq_some_iff_gives : (request.report source).output = some text ↔
    ∃ warnings, request.product.Gives request.flags source text warnings ∧
      (.denyWarnings ∈ request.flags → warnings = []) := by
  obtain ⟨input, output, product, flags⟩ := request
  cases product with
  | jsfx =>
    rw [output_eq_some_iff rfl]
    constructor
    · rintro ⟨run, hrun, hallowed, rfl⟩
      obtain ⟨u, n, s, hu, hn, hs, rfl⟩ := desugar_eq_ok_iff.mp hrun
      refine ⟨n.table.warnings, ?_, hallowed⟩
      by_cases hbanner : .noBanner ∈ flags
      · rw [written, if_pos hbanner]
        exact .bare hu hn hs hbanner
      · rw [written, if_neg hbanner]
        exact .jsfx hu hn hs hbanner
    · rintro ⟨warnings, hgives, hallowed⟩
      cases hgives with
      | jsfx hu hn hs hbanner =>
        refine ⟨_, desugar_eq_ok_iff.mpr ⟨_, _, _, hu, hn, hs, rfl⟩, hallowed, ?_⟩
        rw [written, if_neg hbanner]
      | bare hu hn hs hbanner =>
        refine ⟨_, desugar_eq_ok_iff.mpr ⟨_, _, _, hu, hn, hs, rfl⟩, hallowed, ?_⟩
        rw [written, if_pos hbanner]
  | ranges =>
    rw [output_eq_some_iff rfl]
    constructor
    · rintro ⟨run, hrun, hallowed, rfl⟩
      obtain ⟨u, hu, rfl⟩ := Run.upTo_ranges_eq_ok_iff.mp hrun
      exact ⟨[], .ranges hu, hallowed⟩
    · rintro ⟨warnings, hgives, hallowed⟩
      cases hgives with
      | ranges hu => exact ⟨_, Run.upTo_ranges_eq_ok_iff.mpr ⟨_, hu, rfl⟩, hallowed, rfl⟩
  | enumerations =>
    rw [output_eq_some_iff rfl]
    constructor
    · rintro ⟨run, hrun, hallowed, rfl⟩
      obtain ⟨u, n, hu, hn, rfl⟩ := Run.upTo_enumerations_eq_ok_iff.mp hrun
      exact ⟨n.table.warnings, .enumerations hu hn, hallowed⟩
    · rintro ⟨warnings, hgives, hallowed⟩
      cases hgives with
      | enumerations hu hn =>
        exact ⟨_, Run.upTo_enumerations_eq_ok_iff.mpr ⟨_, _, hu, hn, rfl⟩, hallowed, rfl⟩
  | symbols =>
    rw [output_eq_some_iff rfl]
    constructor
    · rintro ⟨run, hrun, hallowed, rfl⟩
      obtain ⟨u, n, s, hu, hn, hs, rfl⟩ := desugar_eq_ok_iff.mp hrun
      exact ⟨n.table.warnings, .symbols hu hn hs, hallowed⟩
    · rintro ⟨warnings, hgives, hallowed⟩
      cases hgives with
      | symbols hu hn hs =>
        exact ⟨_, desugar_eq_ok_iff.mpr ⟨_, _, _, hu, hn, hs, rfl⟩, hallowed, rfl⟩
  | buildInfo =>
    constructor
    · intro h
      obtain rfl := Option.some.inj h
      exact ⟨[], .buildInfo, fun _ => rfl⟩
    · rintro ⟨warnings, hgives, -⟩
      cases hgives with
      | buildInfo => rfl

/-- A run either ends with zero, when all of it succeeds and the output is written, or leaves the
directory as it was. -/
theorem Request.execute_cases (request : Request) (dir : Directory) :
    (∃ source text after, dir.read request.input = .ok source ∧
      (request.report source).output = some text ∧ dir.write request.output text = .ok after ∧
      (request.execute dir).exit = 0 ∧ (request.execute dir).directory = after) ∨
    (request.execute dir).exit ≠ 0 ∧ (request.execute dir).directory = dir := by
  rw [execute_eq]
  cases hread : dir.read request.input with
  | error e => exact Or.inr ⟨Nat.succ_ne_zero 1, rfl⟩
  | ok source =>
    simp only
    cases houtput : (request.report source).output with
    | none => exact Or.inr ⟨Nat.succ_ne_zero 0, rfl⟩
    | some text =>
      simp only
      cases hwrite : dir.write request.output text with
      | error e => exact Or.inr ⟨Nat.succ_ne_zero 1, rfl⟩
      | ok after => exact Or.inl ⟨source, text, after, rfl, houtput, hwrite, rfl, rfl⟩

/-- A run ends with zero exactly when it can be carried out. -/
theorem Request.exit_eq_zero_iff (request : Request) (dir : Directory) :
    (request.execute dir).exit = 0 ↔
      ∃ source text warnings location, request.Completes dir source text warnings location := by
  constructor
  · intro hexit
    rcases request.execute_cases dir with ⟨source, text, after, hread, houtput, hwrite, -⟩ | ⟨hne, -⟩
    · obtain ⟨warnings, hgives, hallowed⟩ := output_eq_some_iff_gives.mp houtput
      obtain ⟨location, hlocate, hplace, -⟩ := Directory.write_eq_ok_iff.mp hwrite
      exact ⟨source, text, warnings, location, hread, hgives, hallowed, hlocate, hplace⟩
    · exact absurd hexit hne
  · rintro ⟨source, text, warnings, location, hcompletes⟩
    have houtput := output_eq_some_iff_gives.mpr ⟨warnings, hcompletes.gives, hcompletes.allowed⟩
    have hwrite : dir.write request.output text =
        .ok (dir.put location (.file (String.ofList text).toUTF8)) :=
      Directory.write_eq_ok_iff.mpr ⟨location, hcompletes.output, hcompletes.place, rfl⟩
    rw [execute_eq, hcompletes.input]
    dsimp only
    rw [houtput]
    dsimp only
    rw [hwrite]

/-- What a run leaves when it is carried out: its text at the path of its output, and everything else
as it was. -/
theorem Request.Completes.directory {warnings : List Diagnostic} {location : Location}
    (h : request.Completes dir source text warnings location) :
    (request.execute dir).directory.read request.output = .ok text ∧
      ∀ other, other ≠ location → (request.execute dir).directory.node? other = dir.node? other := by
  have hexit := (request.exit_eq_zero_iff dir).mpr ⟨source, text, warnings, location, h⟩
  rcases request.execute_cases dir with
    ⟨source', text', after, hread, houtput, hwrite, -, hafter⟩ | ⟨hne, -⟩
  · obtain rfl : source = source' := Except.ok.inj (h.input.symm.trans hread)
    have hgives := output_eq_some_iff_gives.mpr ⟨warnings, h.gives, h.allowed⟩
    obtain rfl : text = text' := Option.some.inj (hgives.symm.trans houtput)
    obtain ⟨htext, location', hlocate, hothers⟩ := Directory.read_of_write hwrite
    obtain rfl : location = location' := Except.ok.inj (h.output.symm.trans hlocate)
    rw [hafter]
    exact ⟨htext, hothers⟩
  · exact absurd hexit hne

/-- A command line that ends with another code than zero leaves the directory as it was, and so does
one that asks for no run. A run ends with zero exactly when its input can be read, the product that it
asks for can be made of it, no warning is denied, and no folder is in the way of the output. Then the
whole product stands at the path of the output, also when that is the path of the input, and every
other place is as it was. -/
theorem execute_all_or_nothing (arguments : List Text) (dir : Directory) :
    let outcome := execute arguments dir
    (outcome.exit ≠ 0 → outcome.directory = dir) ∧
    ((∀ request, Invocation.ofArguments arguments ≠ .run request) → outcome.directory = dir) ∧
    ∀ request, Invocation.ofArguments arguments = .run request →
      (outcome.exit = 0 ↔ ∃ source text warnings location,
        request.Completes dir source text warnings location) ∧
      ∀ source text warnings location, request.Completes dir source text warnings location →
        outcome.directory.read request.output = .ok text ∧
          ∀ other, other ≠ location → outcome.directory.node? other = dir.node? other := by
  rw [execute_eq]
  cases Invocation.ofArguments arguments with
  | run request =>
    refine ⟨fun hexit => ?_, fun hnone => absurd rfl (hnone request), ?_⟩
    · rcases request.execute_cases dir with ⟨_, _, _, -, -, -, hzero, -⟩ | ⟨-, hsame⟩
      · exact absurd hzero hexit
      · exact hsame
    · intro other hother
      obtain rfl := Invocation.run.inj hother
      exact ⟨request.exit_eq_zero_iff dir, fun _ _ _ _ hcompletes => hcompletes.directory⟩
  | version => exact ⟨fun _ => rfl, fun _ => rfl, fun _ hrun => by cases hrun⟩
  | help => exact ⟨fun _ => rfl, fun _ => rfl, fun _ hrun => by cases hrun⟩
  | refused => exact ⟨fun _ => rfl, fun _ => rfl, fun _ hrun => by cases hrun⟩

/-- A file that is worked on in its place, and a run whose input is missing. -/
theorem execute_all_or_nothing_in_place :
    let source := "v#a v# {g} f; {g: 1}(2); function {g}(x)".toList
    let dir : Directory := ⟨[({ names := [['a']] }, .file (String.ofList source).toUTF8)]⟩
    (∃ n s, Enumeration.number source = .ok n ∧ Dispatch.synthesize n.text = .ok s ∧
      (execute [['a'], ['a']] dir).exit = 0 ∧
      (execute [['a'], ['a']] dir).directory.read ['a'] = .ok (banner ++ ['\n'] ++ s.text)) ∧
    (execute [['b'], ['a']] dir).exit ≠ 0 ∧ (execute [['b'], ['a']] dir).directory = dir := by
  intro source dir
  obtain ⟨-, -, hruns⟩ := execute_all_or_nothing [['a'], ['a']] dir
  obtain ⟨hfailed, -, -⟩ := execute_all_or_nothing [['b'], ['a']] dir
  let request : Request := { input := ['a'], output := ['a'] }
  let location : Location := { names := [['a']] }
  have hrequest : Invocation.ofArguments [['a'], ['a']] = .run request := by decide
  have hlocate : dir.locate ['a'] = .ok location := by decide
  have hnode : dir.node? location = some (.file (String.ofList source).toUTF8) := rfl
  have hread : dir.read ['a'] = .ok source :=
    Directory.read_eq_ok_iff.mpr ⟨location, _, hlocate, hnode, fromUTF8?_toUTF8 _⟩
  have hranges : Range.unroll source = .ok source := by
    apply Range.unroll_of_hits_eq_nil
    decide +kernel
  obtain ⟨s, hstages⟩ : ∃ s, (do Dispatch.synthesize (← Enumeration.number source).text) = .ok s :=
    exists_eq_ok_of_isSome (by decide +kernel)
  obtain ⟨n, hn, hs⟩ := bind_eq_ok_iff.mp hstages
  have hallowed : .denyWarnings ∈ request.flags → n.table.warnings = [] := by
    intro hdenied
    cases hdenied
  have hplace : dir.node? location ≠ some .folder := by simp [hnode]
  have hcompletes : request.Completes dir source (banner ++ ['\n'] ++ s.text) n.table.warnings
      location := ⟨hread, .jsfx hranges hn hs (by decide), hallowed, hlocate, hplace⟩
  obtain ⟨hexit, hwritten⟩ := hruns request hrequest
  refine ⟨⟨n, s, hn, hs, hexit.mpr ⟨_, _, _, _, hcompletes⟩, (hwritten _ _ _ _ hcompletes).1⟩, ?_⟩
  have hmissing : (execute [['b'], ['a']] dir).exit ≠ 0 := by
    decide
  exact ⟨hmissing, hfailed hmissing⟩

end JsfxSugar.Command
