import JsfxSugar.Dispatch.SelectorTree
import JsfxSugar.Text.Blank
import JsfxSugar.Text.Decimal

/-! Selector trees as nested conditional expressions. -/

namespace JsfxSugar.Dispatch

/-- Puts a character before a text, and a tab after it where it ends a line. -/
def indented (after : Text) (c : Char) : Text :=
  if c = '\n' then '\n' :: '\t' :: after else c :: after

/-- Trimmed code on a line of its own, every line of it one tab further in, before the text that
comes after it. -/
def nestBefore (after code : Text) : Text :=
  '\n' :: '\t' :: (code.trimStart.reverse.dropWhile Text.isBlank).foldl indented after

def nest (code : Text) : Text :=
  nestBefore [] code

theorem foldl_indented (after t : Text) :
    t.reverse.foldl indented after =
      (t.flatMap fun c => if c = '\n' then ['\n', '\t'] else [c]) ++ after := by
  rw [List.foldl_reverse]
  induction t with
  | nil => rfl
  | cons c t ih =>
    rw [List.foldr_cons, ih, List.flatMap_cons, indented]
    split <;> simp

theorem nest_eq (code : Text) :
    nest code =
      ['\n', '\t'] ++ code.trim.flatMap fun c => if c = '\n' then ['\n', '\t'] else [c] := by
  have h := foldl_indented [] code.trim
  simp only [Text.trim, Text.trimEnd, List.reverse_reverse, List.append_nil] at h
  simp [nest, nestBefore, h, Text.trim, Text.trimEnd]

theorem nestBefore_eq (after code : Text) : nestBefore after code = nest code ++ after := by
  have h := foldl_indented after code.trim
  simp only [Text.trim, Text.trimEnd, List.reverse_reverse] at h
  rw [nest_eq, nestBefore, h]
  simp [Text.trim, Text.trimEnd]

/-- The tree as an expression that compares `selector`; `call` writes the leaves that stand for a
function. -/
def SelectorTree.layout (selector : Text) (call : Nat → Text) : SelectorTree → Text
  | leaf id => if id = noFunction then ['0'] else call id
  | branch threshold below above =>
    '(' :: selector ++ (' ' :: '<' :: ' ' :: Text.ofNat threshold ++ (' ' :: '?' ::
      nestBefore (nestBefore ['\n', ')'] (':' :: ' ' :: above.layout selector call))
        (below.layout selector call)))

theorem SelectorTree.layout_branch (selector : Text) (call : Nat → Text) (threshold : Nat)
    (below above : SelectorTree) :
    (branch threshold below above).layout selector call =
      ['('] ++ selector ++ [' ', '<', ' '] ++ Text.ofNat threshold ++ [' ', '?'] ++
        nest (below.layout selector call) ++ nest ([':', ' '] ++ above.layout selector call) ++
        ['\n', ')'] := by
  simp [layout, nestBefore_eq]

end JsfxSugar.Dispatch
