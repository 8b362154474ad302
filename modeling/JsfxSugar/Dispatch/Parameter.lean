import JsfxSugar.Text.Blank
import JsfxSugar.Text.Decimal

/-! Formal parameters of a dispatcher. -/

namespace JsfxSugar.Dispatch

/-- The name of the selector, the first parameter of every dispatcher. -/
def selectorName : Text := "function_id".toList

/-- A parameter; one that is passed by reference carries a `*` in the signature. -/
structure Parameter where
  name : Text
  byReference : Bool
  deriving DecidableEq, Repr

/-- Whether a name is `arg` with decimal digits after it. -/
def isNumbered (name : Text) : Bool :=
  match Text.skip? "arg".toList name with
  | some digits => !digits.isEmpty && digits.all Char.isDigit
  | none => false

namespace Parameter

/-- A declared parameter as name and mark: the blanks around it are dropped, then one `*` at its
end. -/
def ofDeclared (raw : Text) : Parameter :=
  let raw := raw.trim
  if raw.getLast? = some '*' then ⟨raw.dropLast, true⟩ else ⟨raw, false⟩

/-- The parameter at a position. Numbered names and the name of the selector give way to the
numbered name of that position, so that no two of them clash. -/
def atIndex (raw : Text) (index : Nat) : Parameter :=
  let declared := ofDeclared raw
  if isNumbered declared.name || declared.name = selectorName then
    { declared with name := "arg".toList ++ Text.ofNat index }
  else declared

/-- The parameter as the signature shows it. -/
def formal (p : Parameter) : Text :=
  if p.byReference then p.name ++ ['*'] else p.name

/-- The parameters of a list with commas; a blank list has none. -/
def parseList (list : Text) : List Parameter :=
  if list.all Text.isBlank then []
  else (Text.pieces ',' list).mapIdx fun index raw => atIndex raw index

end Parameter

end JsfxSugar.Dispatch
