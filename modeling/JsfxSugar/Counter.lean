/-! Counters that hand out ids in order. -/

namespace JsfxSugar

namespace Counter

/-- The largest total that a counter can show. -/
def limit : Nat := UInt64.size - 1

end Counter

/-- Hands out ids in ascending order. The next id is also the number of ids that lie below it. -/
structure Counter where
  next : Nat := 0
  next_le : next ≤ Counter.limit := by decide
  deriving DecidableEq, Repr

namespace Counter

/-- A counter whose first id is the given one. -/
def ofNext (first : Nat) (h : first ≤ limit := by decide) : Counter where
  next := first
  next_le := h

@[simp] theorem next_ofNext {first : Nat} (h : first ≤ limit) : (ofNext first h).next = first := rfl

/-- The next id and the counter after it; none when the total could no longer be shown. -/
def take? (counter : Counter) : Option (Nat × Counter) :=
  if h : counter.next < limit then some (counter.next, ofNext (counter.next + 1) h)
  else none

theorem take?_of_lt {counter : Counter} (h : counter.next < limit) :
    counter.take? = some (counter.next, ofNext (counter.next + 1) h) := dif_pos h

/-- Moves the counter up to `floor`, never down. -/
def skipTo (counter : Counter) (floor : Nat) (h : floor ≤ limit) : Counter where
  next := max counter.next floor
  next_le := Nat.max_le.mpr ⟨counter.next_le, h⟩

@[simp] theorem next_skipTo (counter : Counter) {floor : Nat} (h : floor ≤ limit) :
    (counter.skipTo floor h).next = max counter.next floor := rfl

/-- One use of a counter. -/
inductive Step where
  | take
  | skipTo (floor : Nat) (h : floor ≤ limit)

/-- Takes a step; the id is the one that was taken. A failed one changes nothing. -/
def step (counter : Counter) : Step → Option Nat × Counter
  | .take =>
    match counter.take? with
    | some (id, counter) => (some id, counter)
    | none => (none, counter)
  | .skipTo floor h => (none, counter.skipTo floor h)

end Counter

end JsfxSugar
