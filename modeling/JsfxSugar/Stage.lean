import JsfxSugar.Text.Basic

/-! The stages that a source passes through. -/

namespace JsfxSugar

/-- Ranges are unrolled first, since they may spell out markers of the other stages; dispatchers come
last, since their ids may be enumerated. -/
inductive Stage where
  | ranges
  | enumerations
  | dispatch
  deriving DecidableEq, Repr

namespace Stage

def name : Stage → Text
  | ranges => "expand_sequences".toList
  | enumerations => "allocate_enums".toList
  | dispatch => "synthesize_dispatch".toList

/-- The stages whose text a stage works on. -/
def inputs : Stage → List Stage
  | ranges => []
  | enumerations => [ranges]
  | dispatch => [enumerations]

/-- What holds of the text after a stage. -/
def invariant : Stage → Text
  | ranges => "every closed, well-formed range block unrolled".toList
  | enumerations => "enum references and counts replaced by numeric literals".toList
  | dispatch => "declarations replaced by balanced dispatchers".toList

/-- The stages up to a stage, in their order. -/
def required : Stage → List Stage
  | ranges => [ranges]
  | enumerations => [ranges, enumerations]
  | dispatch => [ranges, enumerations, dispatch]

theorem mem_required_self (stage : Stage) : stage ∈ stage.required := by
  cases stage <;> decide

/-- Every stage comes after its inputs. -/
theorem required_eq_append (stage : Stage) :
    stage.required = stage.inputs.flatMap required ++ [stage] := by
  cases stage <;> rfl

end Stage

end JsfxSugar
