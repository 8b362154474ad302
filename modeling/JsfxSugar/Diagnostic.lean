import JsfxSugar.Text.Basic

/-! Diagnostics: what a user is told, and how it is laid out. -/

namespace JsfxSugar

inductive Severity where
  | error
  | warning
  deriving DecidableEq, Repr

def Severity.name : Severity → Text
  | error => "error".toList
  | warning => "warning".toList

/-- A message with its severity, and where there are such, a stable code and a hint at the remedy. -/
structure Diagnostic where
  severity : Severity
  message : Text
  code : Option Text := none
  hint : Option Text := none
  deriving DecidableEq, Repr

/-- Severity, code in brackets, message; the hint on a line of its own. -/
def Diagnostic.display (d : Diagnostic) : Text :=
  let code := d.code.elim [] fun code => '[' :: code ++ [']']
  let hint := d.hint.elim [] fun hint => "\n  hint: ".toList ++ hint
  d.severity.name ++ code ++ ": ".toList ++ d.message ++ hint

end JsfxSugar
