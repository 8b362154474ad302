import JsfxSugar.Dispatch.Synthesis
import JsfxSugar.Enumeration.Numbering
import JsfxSugar.Range.Unrolling
import JsfxSugar.Stage

/-! Running a source through the stages. -/

namespace JsfxSugar

/-- A text with what the stages have found on the way. -/
structure Run where
  text : Text
  warnings : List Diagnostic := []
  enumerations : Enumeration.Table := ∅
  dispatch : Dispatch.Table := ∅
  stages : List Stage := []

/-- The stage that ended a run, and why. -/
structure Failure where
  stage : Stage
  fault : Fault
  deriving DecidableEq, Repr

def Failure.message (failure : Failure) : Text :=
  failure.stage.name ++ [':', ' '] ++ failure.fault.message

namespace Run

/-- The work of a stage on the text of a run. -/
def advance (run : Run) : Stage → Except Fault Run
  | .ranges => do
    let text ← Range.unroll run.text
    return { run with text }
  | .enumerations => do
    let numbering ← Enumeration.number run.text
    return { run with
      text := numbering.text
      enumerations := numbering.table
      warnings := run.warnings ++ numbering.table.warnings }
  | .dispatch => do
    let synthesis ← Dispatch.synthesize run.text
    return { run with text := synthesis.text, dispatch := synthesis.table }

/-- Takes a run through one more stage. -/
def step (run : Run) (stage : Stage) : Except Failure Run :=
  match run.advance stage with
  | .ok next => .ok { next with stages := run.stages ++ [stage] }
  | .error fault => .error ⟨stage, fault⟩

/-- Takes a source through all stages up to the last one given. -/
def upTo (last : Stage) (source : Text) : Except Failure Run :=
  last.required.foldlM step { text := source }

end Run

/-- Takes a source through every stage. -/
def desugar (source : Text) : Except Failure Run :=
  Run.upTo .dispatch source

end JsfxSugar
