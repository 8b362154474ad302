import JsfxSugar.Text.Basic
import Std.Data.ExtTreeMap.Lemmas

/-! Tables from names to values, in name order. -/

namespace JsfxSugar

/-- A finite map from names, its entries in code point order of the names. Tables that hold the same
entries are equal, in whatever order these were put in. -/
abbrev NameTable (α : Type) := Std.ExtTreeMap Text α

namespace Text

theorem compare_char_eq_lt_iff {c d : Char} : compare c d = .lt ↔ c < d := by
  by_cases hlt : c < d
  · simp [compare, compareOfLessAndEq, hlt]
  · by_cases heq : c = d <;> simp [compare, compareOfLessAndEq, hlt, heq]

theorem compare_eq_lt_iff {s t : Text} : compare s t = .lt ↔ s < t := by
  induction s generalizing t with
  | nil => cases t <;> simp
  | cons c s ih =>
    cases t with
    | nil => simp
    | cons d t =>
      simp only [List.compare_cons_cons, Ordering.then_eq_lt, List.cons_lt_cons_iff, ih,
        compare_char_eq_lt_iff, Std.compare_eq_iff_eq]

end Text

namespace NameTable

variable {α : Type}

/-- The names stand in their order, each once. -/
theorem pairwise_lt_keys (table : NameTable α) : table.keys.Pairwise (· < ·) :=
  table.ordered_keys.imp Text.compare_eq_lt_iff.mp

theorem getElem?_insert (table : NameTable α) (name other : Text) (a : α) :
    (table.insert name a)[other]? = if other = name then some a else table[other]? := by
  simp only [Std.ExtTreeMap.getElem?_insert, Std.compare_eq_iff_eq, @eq_comm _ name]

end NameTable

end JsfxSugar
