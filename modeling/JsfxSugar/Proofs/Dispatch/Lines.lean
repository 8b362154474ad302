import JsfxSugar.Proofs.Dispatch.Conditional

/-! The lines of a selector tree that is laid out. Each of them begins with a tab for every comparison
around it, however often it was moved further in; and all of them together read back as the tree. -/

namespace JsfxSugar.Dispatch

/-- A line with its tabs. -/
def tabbed (line : Nat × Text) : Text :=
  List.replicate line.1 '\t' ++ line.2

namespace SelectorTree

/-- The line that begins a comparison. -/
def opening (selector : Text) (threshold : Nat) : Text :=
  ['('] ++ selector ++ [' ', '<', ' '] ++ Text.ofNat threshold ++ [' ', '?']

/-- The lines of a tree without their tabs, each with the number of comparisons around it, where
`depth` comparisons enclose the tree and `lead` stands before it on its first line. -/
def lines (selector : Text) (call : Nat → Text) : Nat → Text → SelectorTree → List (Nat × Text)
  | depth, lead, leaf id => [(depth, lead ++ leafText call id)]
  | depth, lead, branch threshold below above =>
    (depth, lead ++ opening selector threshold) ::
      (below.lines selector call (depth + 1) [] ++
        (above.lines selector call (depth + 1) [':', ' '] ++ [(depth, [')'])]))

variable {selector lead : Text} {call : Nat → Text}

theorem newline_not_mem_opening (hselector : '\n' ∉ selector) (threshold : Nat) :
    '\n' ∉ opening selector threshold := by
  have hnumber := Text.not_mem_ofNat (c := '\n') (by decide) threshold
  simp [opening, hselector, hnumber]

/-- A tree that is laid out at a depth is made of its lines at that depth. -/
theorem pieces_layoutAt (hselector : '\n' ∉ selector) (hcall : ∀ id, OneLine (call id))
    (hlead : '\n' ∉ lead) (depth : Nat) (tree : SelectorTree) :
    Text.pieces '\n' (tabbed (depth, lead ++ tree.layoutAt selector call depth)) =
      (tree.lines selector call depth lead).map tabbed := by
  induction tree generalizing depth lead with
  | leaf id =>
    have hleaf := (oneLine_leafText hcall id).newline
    rw [layoutAt, lines, List.map_singleton]
    apply Text.pieces_of_not_mem
    simp [tabbed, hlead, hleaf]
  | branch threshold below above ihb iha =>
    have hfirst : '\n' ∉ tabbed (depth, lead ++ opening selector threshold) := by
      simp [tabbed, hlead, newline_not_mem_opening hselector]
    have hlast : '\n' ∉ tabbed (depth, [')']) := by
      simp [tabbed]
    have hlayout : tabbed (depth, lead ++ (branch threshold below above).layoutAt selector call depth) =
        tabbed (depth, lead ++ opening selector threshold) ++ '\n' ::
          (tabbed (depth + 1, [] ++ below.layoutAt selector call (depth + 1)) ++ '\n' ::
            (tabbed (depth + 1, [':', ' '] ++ above.layoutAt selector call (depth + 1)) ++ '\n' ::
              tabbed (depth, [')']))) := by
      simp [tabbed, layoutAt, line, opening]
    rw [hlayout, Text.pieces_append_cons, Text.pieces_append_cons, Text.pieces_append_cons,
      Text.pieces_of_not_mem hfirst, Text.pieces_of_not_mem hlast, ihb (by simp), iha (by simp), lines]
    simp

/-- But for its tabs no line begins with a blank. -/
theorem startsOutside_of_mem_lines (hcall : ∀ id, OneLine (call id))
    (hlead : lead.StartsOutside Text.isBlank) {depth : Nat} {tree : SelectorTree}
    {line : Nat × Text} (hline : line ∈ tree.lines selector call depth lead) :
    line.2.StartsOutside Text.isBlank := by
  have hsign : ∀ {c : Char} (t : Text), Text.isBlank c = false →
      Text.StartsOutside Text.isBlank (c :: t) := fun _ => Text.startsOutside_cons.mpr
  induction tree generalizing depth lead with
  | leaf id =>
    obtain rfl := List.mem_singleton.mp hline
    exact hlead.append (oneLine_leafText hcall id).start
  | branch threshold below above ihb iha =>
    rw [lines, List.mem_cons, List.mem_append, List.mem_append, List.mem_singleton] at hline
    rcases hline with rfl | hline | hline | rfl
    · exact hlead.append (hsign _ (by decide))
    · exact ihb Text.startsOutside_nil hline
    · exact iha (hsign _ (by decide)) hline
    · exact hsign _ (by decide)

/-- A tree that is laid out reads back as the tree, with its thresholds and the texts of its leaves.
Moving the expressions of a comparison further in, one comparison after the other, comes to the
layout that carries the depth: each line begins with as many tabs as comparisons enclose it, and not
with one more. -/
theorem layout_reads_back (hselector : '\n' ∉ selector) (hcall : ∀ id, OneLine (call id))
    (hparen : ∀ id, (call id).head? ≠ some '(') (tree : SelectorTree) :
    Conditional.ofText? selector (tree.layout selector call) = some (tree.conditional call) ∧
    tree.layout selector call = tree.layoutAt selector call 0 ∧
    Text.pieces '\n' (tree.layout selector call) = (tree.lines selector call 0 []).map tabbed ∧
    ∀ line ∈ tree.lines selector call 0 [], line.2.StartsOutside Text.isBlank := by
  have hlayout := layout_eq_layoutAt hselector hcall tree
  refine ⟨?_, hlayout, ?_, fun line => startsOutside_of_mem_lines hcall Text.startsOutside_nil⟩
  · rw [hlayout]
    exact Conditional.ofText?_layoutAt hcall hparen 0 tree (List.forall_mem_nil _)
  · rw [hlayout]
    exact pieces_layoutAt hselector hcall List.not_mem_nil 0 tree

/-- Two functions: the tabs of the lines, and what is read. -/
theorem layout_reads_back_two_functions :
    let selector := "id".toList
    let call (id : Nat) : Text := 'f' :: (Text.ofNat id ++ ['(', ')'])
    let tree := branch 2 (branch 1 (leaf 0) (leaf 1)) (leaf 2)
    '\n' ∉ selector ∧ (∀ id, OneLine (call id)) ∧ (∀ id, (call id).head? ≠ some '(') ∧
      tree.layout selector call =
        "(id < 2 ?\n\t(id < 1 ?\n\t\t0\n\t\t: f1()\n\t)\n\t: f2()\n)".toList ∧
      Conditional.ofText? selector (tree.layout selector call) =
        some (.choice 2 (.choice 1 (.value ['0']) (.value "f1()".toList)) (.value "f2()".toList)) ∧
      (Text.pieces '\n' (tree.layout selector call)).map (·.takeWhile (· = '\t')) =
        [0, 1, 2, 2, 1, 1, 0].map (List.replicate · '\t') := by
  intro selector call tree
  have hselector : '\n' ∉ selector := by decide
  have hcall : ∀ id, OneLine (call id) := by
    intro id
    have hnumber := Text.not_mem_ofNat (c := '\n') (by decide) id
    have hconcat : call id = ('f' :: (Text.ofNat id ++ ['('])) ++ [')'] := by simp [call]
    refine ⟨by simp [call], by simp [call, hnumber], Text.startsOutside_cons.mpr (by decide), ?_⟩
    rw [hconcat, Text.endsOutside_concat]
    decide
  have hparen : ∀ id, (call id).head? ≠ some '(' := by simp [call]
  obtain ⟨hread, -, hlines, -⟩ := layout_reads_back hselector hcall hparen tree
  refine ⟨hselector, hcall, hparen, by decide +kernel, hread, ?_⟩
  rw [hlines]
  decide +kernel

end SelectorTree

end JsfxSugar.Dispatch
