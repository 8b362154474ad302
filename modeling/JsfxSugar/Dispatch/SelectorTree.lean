/-! Balanced trees of comparisons that find a function id. -/

namespace JsfxSugar.Dispatch

/-- The id that stands for no function. -/
def noFunction : Nat := 0

/-- A decision by comparing a selector with thresholds: it goes to `below` when it is less. -/
inductive SelectorTree where
  | leaf (id : Nat)
  | branch (threshold : Nat) (below above : SelectorTree)
  deriving DecidableEq, Repr

namespace SelectorTree

/-- The tree over ids in ascending order. The first half, the longer one if they differ, lies below
the threshold, which is the first id of the second half. -/
def ofIds (ids : List Nat) : SelectorTree :=
  if h : 2 ≤ ids.length then
    have middle : (ids.length + 1) / 2 < ids.length := by omega
    branch ids[(ids.length + 1) / 2]
      (ofIds (ids.take ((ids.length + 1) / 2))) (ofIds (ids.drop ((ids.length + 1) / 2)))
  else leaf (ids.headD noFunction)
termination_by ids.length
decreasing_by
  · simp only [List.length_take]
    omega
  · simp only [List.length_drop]
    omega

/-- The number of comparisons on the longest path. -/
def depth : SelectorTree → Nat
  | leaf _ => 0
  | branch _ below above => 1 + max below.depth above.depth

/-- The id that a selector is led to. -/
def select : SelectorTree → Nat → Nat
  | leaf id, _ => id
  | branch threshold below above, selector =>
    if selector < threshold then below.select selector else above.select selector

/-- The ids from left to right. -/
def ids : SelectorTree → List Nat
  | leaf id => [id]
  | branch _ below above => below.ids ++ above.ids

end SelectorTree

end JsfxSugar.Dispatch
