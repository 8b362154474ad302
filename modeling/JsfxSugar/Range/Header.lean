import JsfxSugar.Fault
import JsfxSugar.Pattern.Literal
import JsfxSugar.Text.Blank
import JsfxSugar.Text.Decimal

/-! The opening of a range block, as it is written and as it is meant. -/

namespace JsfxSugar.Range

def isNameStart (c : Char) : Bool :=
  c.isAlpha || c = '_'

def isNameChar (c : Char) : Bool :=
  c.isAlphanum || c = '_' || c = '.'

/-- The loop name at the front of a text. -/
def name? : Text → Option (Text × Text)
  | [] => none
  | c :: t =>
    if isNameStart c then some (c :: t.takeWhile isNameChar, t.dropWhile isNameChar) else none

theorem eq_append_of_name? {t name r : Text} (h : name? t = some (name, r)) : t = name ++ r := by
  cases t with
  | nil => simp [name?] at h
  | cons c t =>
    simp only [name?] at h
    split at h
    · simp only [Option.some.injEq, Prod.mk.injEq] at h
      obtain ⟨rfl, rfl⟩ := h
      simp
    · simp at h

/-- The integer literal at the front of a text: digits, with at most a minus sign before them. -/
def integer? (t : Text) : Option (Text × Text) :=
  match Text.skip? ['-'] t with
  | some t => (Text.run? Char.isDigit t).map fun (digits, r) => ('-' :: digits, r)
  | none => Text.run? Char.isDigit t

theorem eq_append_of_integer? {t literal r : Text} (h : integer? t = some (literal, r)) :
    t = literal ++ r := by
  unfold integer? at h
  split at h
  · rename_i s hs
    simp only [Option.map_eq_some_iff, Prod.mk.injEq, Prod.exists] at h
    obtain ⟨digits, r', hrun, rfl, rfl⟩ := h
    rw [Text.skip?_eq_some_iff.mp hs, Text.eq_append_of_run? hrun]
    rfl
  · exact Text.eq_append_of_run? h

/-- The opening `{#NAME=FIRST,LAST}` with its bounds as they are written. -/
structure Opening where
  name : Text
  first : Text
  last : Text
  deriving DecidableEq, Repr

namespace Opening

def source (opening : Opening) : Text :=
  ['{', '#'] ++ (opening.name ++ (['='] ++ (opening.first ++ ([','] ++ (opening.last ++ ['}'])))))

def read? (t : Text) : Option (Opening × Text) := do
  let t ← Text.skip? ['{', '#'] t
  let (name, t) ← name? t
  let t ← Text.skip? ['='] t
  let (first, t) ← integer? t
  let t ← Text.skip? [','] t
  let (last, t) ← integer? t
  let t ← Text.skip? ['}'] t
  return (⟨name, first, last⟩, t)

theorem eq_append_of_read? {t r : Text} {opening : Opening} (h : read? t = some (opening, r)) :
    t = opening.source ++ r := by
  simp only [read?, Option.bind_eq_bind, Option.bind_eq_some_iff, Prod.exists, Option.pure_def,
    Option.some.injEq, Prod.mk.injEq] at h
  obtain ⟨t₁, h₁, name, t₂, h₂, t₃, h₃, first, t₄, h₄, t₅, h₅, last, t₆, h₆, t₇, h₇, rfl, rfl⟩ := h
  rw [Text.skip?_eq_some_iff.mp h₁, eq_append_of_name? h₂, Text.skip?_eq_some_iff.mp h₃,
    eq_append_of_integer? h₄, Text.skip?_eq_some_iff.mp h₅, eq_append_of_integer? h₆,
    Text.skip?_eq_some_iff.mp h₇]
  simp [source]

end Opening

/-- The bound that a literal stands for, if it is a 64-bit integer. -/
def bound? (literal : Text) : Option Int :=
  match Text.skip? ['-'] literal with
  | some digits => (Text.toNatUpTo? (UInt64.size / 2) digits).map fun n => -(n : Int)
  | none => (Text.toNatUpTo? (UInt64.size / 2 - 1) literal).map fun n => (n : Int)

/-- A block unrolls to at most this many copies. -/
def maxCopies : Nat := 1048576

/-- A loop name and the bounds it runs between, both included; it runs down when `stop` is the
lower one. -/
structure Header where
  name : Text
  start : Int
  stop : Int
  deriving DecidableEq, Repr

namespace Opening

/-- The opening with its bounds checked. Of two bad bounds the first is reported; a range that is
too long is put down to its last bound. -/
def header (opening : Opening) : Except Fault Header :=
  match bound? opening.first, bound? opening.last with
  | none, _ => .error (.rangeBound opening.name opening.first)
  | some _, none => .error (.rangeBound opening.name opening.last)
  | some start, some stop =>
    if (start - stop).natAbs < maxCopies then .ok ⟨opening.name, start, stop⟩
    else .error (.rangeBound opening.name opening.last)

end Opening

namespace Header

/-- The header at the front of a text, with its length in bytes. -/
def parse (t : Text) : Except Fault (Option (Header × Nat)) :=
  match Opening.read? t with
  | none => .ok none
  | some (opening, _) =>
    opening.header.map fun header => some (header, opening.source.byteLength)

/-- The loop values in their order. -/
def values (header : Header) : List Int :=
  let offsets := List.range ((header.start - header.stop).natAbs + 1)
  if header.start ≤ header.stop then offsets.map fun (i : Nat) => header.start + i
  else offsets.map fun (i : Nat) => header.start - i

/-- The body for one loop value: the value stands for the name in braces, then for the name. -/
def copy (header : Header) (body : Text) (value : Int) : Text :=
  let number := Text.ofInt value
  (body.replaceAll ('{' :: header.name ++ ['}']) number).replaceAll header.name number

/-- The body, without its leading blanks, once for each loop value. -/
def unroll (header : Header) (body : Text) : Text :=
  header.values.flatMap (header.copy body.trimStart)

end Header

end JsfxSugar.Range
