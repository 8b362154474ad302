import JsfxSugar.Text.Decimal

/-! JSON values, laid out over several lines. -/

namespace JsfxSugar

inductive Json where
  | string (t : Text)
  | number (n : Nat)
  | array (items : List Json)
  | object (fields : List (Text × Json))

namespace Json

/-- A hexadecimal digit, in lower case. -/
def hexDigit (n : Nat) : Char :=
  (Nat.digitChar n).toLower

/-- A character as it stands within quotes. Quote, backslash and the control characters below the
blank are escaped, the usual ones by a letter. -/
def escape (c : Char) : Text :=
  match c with
  | '"' => ['\\', '"']
  | '\\' => ['\\', '\\']
  | '\x08' => ['\\', 'b']
  | '\x0c' => ['\\', 'f']
  | '\n' => ['\\', 'n']
  | '\r' => ['\\', 'r']
  | '\t' => ['\\', 't']
  | _ =>
    if c.toNat < 0x20 then ['\\', 'u', '0', '0', hexDigit (c.toNat / 16), hexDigit (c.toNat % 16)]
    else [c]

def quote (t : Text) : Text :=
  ['"'] ++ t.flatMap escape ++ ['"']

/-- A new line, two blanks in for each level. -/
def newline (level : Nat) : Text :=
  '\n' :: List.replicate (2 * level) ' '

mutual

/-- The value laid out from a level on, before the text that comes after it: every item and field
has a line of its own. -/
def render (level : Nat) (after : Text) : Json → Text
  | string t => quote t ++ after
  | number n => Text.ofNat n ++ after
  | array [] => '[' :: ']' :: after
  | array (item :: rest) =>
    '[' :: renderItems (level + 1) (newline level ++ ']' :: after) (item :: rest)
  | object [] => '{' :: '}' :: after
  | object (field :: rest) =>
    '{' :: renderFields (level + 1) (newline level ++ '}' :: after) (field :: rest)

/-- The items with commas between them. -/
def renderItems (level : Nat) (after : Text) : List Json → Text
  | [] => after
  | [item] => newline level ++ render level after item
  | item :: rest => newline level ++ render level (',' :: renderItems level after rest) item

/-- The fields with commas between them. -/
def renderFields (level : Nat) (after : Text) : List (Text × Json) → Text
  | [] => after
  | [(name, value)] => newline level ++ (quote name ++ ':' :: ' ' :: render level after value)
  | (name, value) :: rest =>
    newline level ++ (quote name ++
      ':' :: ' ' :: render level (',' :: renderFields level after rest) value)

end

/-- The text of a value. -/
def text (value : Json) : Text :=
  value.render 0 []

end Json

end JsfxSugar
