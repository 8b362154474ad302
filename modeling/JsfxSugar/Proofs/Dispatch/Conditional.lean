import JsfxSugar.Dispatch.SelectorTree.Layout
import JsfxSugar.Proofs.Text

/-! Nested conditional expressions as they are read off a text, and the layout of a selector tree as
one: it reads back as the tree, whatever the depth at which it is laid out. -/

namespace JsfxSugar.Dispatch

/-- An expression that compares one selector with thresholds. -/
inductive Conditional where
  | value (text : Text)
  | choice (threshold : Nat) (below above : Conditional)
  deriving DecidableEq, Repr

namespace Conditional

/-- The text of the value that a selector is led to. -/
def eval : Conditional → Nat → Text
  | value text, _ => text
  | choice threshold below above, selector =>
    if selector < threshold then below.eval selector else above.eval selector

def isLayout (c : Char) : Bool :=
  c = '\n' || c = '\t'

/-- The threshold of the comparison `(SELECTOR < NUMBER ?` at the front of a text. -/
def comparison? (selector t : Text) : Option (Nat × Text) := do
  let t ← Text.skip? (['('] ++ selector ++ [' ', '<', ' ']) t
  let (digits, t) ← Text.run? Char.isDigit t
  let t ← Text.skip? [' ', '?'] t
  return (Text.toNat digits, t)

/-- Reads an expression with fewer than so many comparisons inside one another. A parenthesis begins
a comparison, and any other text is a value up to the end of its line. -/
def read? (selector : Text) : Nat → Text → Option (Conditional × Text)
  | 0, _ => none
  | levels + 1, t =>
    let t := t.dropWhile isLayout
    if t.head? = some '(' then do
      let (threshold, t) ← comparison? selector t
      let (below, t) ← read? selector levels t
      let t ← Text.skip? [':', ' '] (t.dropWhile isLayout)
      let (above, t) ← read? selector levels t
      let t ← Text.skip? [')'] (t.dropWhile isLayout)
      return (choice threshold below above, t)
    else (Text.run? (· ≠ '\n') t).map fun (text, t) => (value text, t)

/-- The expression that a text is, from its first character to its last. -/
def ofText? (selector t : Text) : Option Conditional :=
  match read? selector t.length t with
  | some (expression, []) => some expression
  | _ => none

end Conditional

namespace SelectorTree

/-- The text of a leaf. -/
def leafText (call : Nat → Text) (id : Nat) : Text :=
  if id = noFunction then ['0'] else call id

/-- The tree as an expression. -/
def conditional (call : Nat → Text) : SelectorTree → Conditional
  | leaf id => .value (leafText call id)
  | branch threshold below above =>
    .choice threshold (below.conditional call) (above.conditional call)

theorem eval_conditional (call : Nat → Text) (tree : SelectorTree) (n : Nat) :
    (tree.conditional call).eval n = leafText call (tree.select n) := by
  induction tree with
  | leaf id => rfl
  | branch threshold below above ihb iha =>
    simp only [conditional, Conditional.eval, select]
    split
    · exact ihb
    · exact iha

/-- A new line with so many tabs. -/
def line (depth : Nat) : Text :=
  '\n' :: List.replicate depth '\t'

/-- The layout of a tree where `depth` comparisons enclose it. -/
def layoutAt (selector : Text) (call : Nat → Text) : Nat → SelectorTree → Text
  | _, leaf id => leafText call id
  | depth, branch threshold below above =>
    ['('] ++ selector ++ [' ', '<', ' '] ++ Text.ofNat threshold ++ [' ', '?'] ++
      line (depth + 1) ++ below.layoutAt selector call (depth + 1) ++
      line (depth + 1) ++ [':', ' '] ++ above.layoutAt selector call (depth + 1) ++
      line depth ++ [')']

end SelectorTree

/-- Text on a single line with no blanks around it. -/
structure OneLine (t : Text) : Prop where
  ne_nil : t ≠ []
  newline : '\n' ∉ t
  start : t.StartsOutside Text.isBlank
  stop : t.EndsOutside Text.isBlank

/-- The text with every line but the first one tab further in. -/
def indent (t : Text) : Text :=
  t.flatMap fun c => if c = '\n' then ['\n', '\t'] else [c]

theorem indent_append (s t : Text) : indent (s ++ t) = indent s ++ indent t := by
  simp [indent]

theorem indent_of_not_mem {t : Text} (h : '\n' ∉ t) : indent t = t := by
  induction t with
  | nil => rfl
  | cons c t ih =>
    have hc : c ≠ '\n' := fun he => h (by simp [he])
    have ht := ih fun hmem => h (List.mem_cons_of_mem c hmem)
    rw [indent] at ht ⊢
    rw [List.flatMap_cons, ht, if_neg hc]
    rfl

namespace SelectorTree

variable {selector : Text} {call : Nat → Text}

theorem indent_line (depth : Nat) : indent (line depth) = line (depth + 1) := by
  have htabs : indent (List.replicate depth '\t') = List.replicate depth '\t' :=
    indent_of_not_mem (by simp [List.mem_replicate])
  rw [line, line, List.replicate_succ, indent, List.flatMap_cons, ← indent, htabs]
  rfl

theorem oneLine_zero : OneLine ['0'] :=
  ⟨by simp, by decide, by simp [Text.StartsOutside, Text.isBlank, Text.blankRanges],
    by simp [Text.EndsOutside, Text.isBlank, Text.blankRanges]⟩

theorem oneLine_leafText (hcall : ∀ id, OneLine (call id)) (id : Nat) :
    OneLine (leafText call id) := by
  unfold leafText
  split
  · exact oneLine_zero
  · exact hcall id

theorem head?_leafText_ne (hparen : ∀ id, (call id).head? ≠ some '(') (id : Nat) :
    (leafText call id).head? ≠ some '(' := by
  unfold leafText
  split
  · decide
  · exact hparen id

/-- Indenting a layout is the same as laying the tree out one comparison further in. -/
theorem indent_layoutAt (hselector : '\n' ∉ selector) (hcall : ∀ id, OneLine (call id))
    (depth : Nat) (tree : SelectorTree) :
    indent (tree.layoutAt selector call depth) = tree.layoutAt selector call (depth + 1) := by
  induction tree generalizing depth with
  | leaf id => exact indent_of_not_mem (oneLine_leafText hcall id).newline
  | branch threshold below above ihb iha =>
    have hnumber := indent_of_not_mem (Text.not_mem_ofNat (c := '\n') (by decide) threshold)
    simp only [layoutAt, indent_append, indent_line, ihb, iha, indent_of_not_mem hselector, hnumber]
    rfl

theorem startsOutside_layoutAt (hcall : ∀ id, OneLine (call id)) (depth : Nat)
    (tree : SelectorTree) : (tree.layoutAt selector call depth).StartsOutside Text.isBlank := by
  cases tree with
  | leaf id => exact (oneLine_leafText hcall id).start
  | branch threshold below above =>
    simp only [layoutAt, List.append_assoc, List.cons_append, Text.startsOutside_cons]
    decide

theorem endsOutside_layoutAt (hcall : ∀ id, OneLine (call id)) (depth : Nat)
    (tree : SelectorTree) : (tree.layoutAt selector call depth).EndsOutside Text.isBlank := by
  cases tree with
  | leaf id => exact (oneLine_leafText hcall id).stop
  | branch threshold below above =>
    rw [layoutAt, Text.endsOutside_concat]
    decide

theorem layoutAt_ne_nil (hcall : ∀ id, OneLine (call id)) (depth : Nat) (tree : SelectorTree) :
    tree.layoutAt selector call depth ≠ [] := by
  cases tree with
  | leaf id => exact (oneLine_leafText hcall id).ne_nil
  | branch threshold below above => simp [layoutAt]

/-- What is nested in a layout is laid out one comparison further in. -/
theorem nest_layoutAt (hselector : '\n' ∉ selector) (hcall : ∀ id, OneLine (call id))
    (depth : Nat) (tree : SelectorTree) :
    nest (tree.layoutAt selector call depth) =
      ['\n', '\t'] ++ tree.layoutAt selector call (depth + 1) := by
  rw [nest_eq, ← indent_layoutAt hselector hcall, Text.trim_eq_self
    (startsOutside_layoutAt hcall depth tree) (endsOutside_layoutAt hcall depth tree), indent]

theorem nest_colon_layoutAt (hselector : '\n' ∉ selector) (hcall : ∀ id, OneLine (call id))
    (depth : Nat) (tree : SelectorTree) :
    nest ([':', ' '] ++ tree.layoutAt selector call depth) =
      ['\n', '\t'] ++ ([':', ' '] ++ tree.layoutAt selector call (depth + 1)) := by
  have hstop : Text.EndsOutside Text.isBlank ([':', ' '] ++ tree.layoutAt selector call depth) :=
    (Text.endsOutside_append (layoutAt_ne_nil hcall depth tree)).mpr
      (endsOutside_layoutAt hcall depth tree)
  rw [nest_eq, ← indent_layoutAt hselector hcall, Text.trim_eq_self _ hstop, ← indent,
    indent_append]
  · rfl
  · rw [List.cons_append, Text.startsOutside_cons]
    decide

/-- Indenting at each comparison comes to a layout that carries the depth. -/
theorem layout_eq_layoutAt (hselector : '\n' ∉ selector) (hcall : ∀ id, OneLine (call id))
    (tree : SelectorTree) : tree.layout selector call = tree.layoutAt selector call 0 := by
  induction tree with
  | leaf id => rfl
  | branch threshold below above ihb iha =>
    rw [layout_branch, ihb, iha, nest_layoutAt hselector hcall,
      nest_colon_layoutAt hselector hcall]
    simp [layoutAt, line]

end SelectorTree

namespace Conditional

variable {selector rest : Text}

theorem isLayout_eq_false_of_isBlank {c : Char} (h : Text.isBlank c = false) :
    isLayout c = false := by
  rw [isLayout, Bool.or_eq_false_iff, decide_eq_false_iff_not, decide_eq_false_iff_not]
  constructor
  · rintro rfl
    revert h
    decide
  · rintro rfl
    revert h
    decide

theorem comparison?_append (selector : Text) (threshold : Nat) (r : Text) :
    comparison? selector
      (['('] ++ (selector ++ ([' ', '<', ' '] ++ (Text.ofNat threshold ++ ([' ', '?'] ++ r))))) =
        some (threshold, r) := by
  have hdigits : ∀ c ∈ Text.ofNat threshold, c.isDigit = true :=
    fun c => Text.isDigit_of_mem_ofNat
  have hstop : Text.StartsOutside Char.isDigit ([' ', '?'] ++ r) := by
    rw [List.cons_append, Text.startsOutside_cons]
    decide
  rw [← List.append_assoc, ← List.append_assoc]
  simp only [comparison?, Text.skip?_append, Option.bind_eq_bind, Option.bind_some,
    Text.run?_append (Text.ofNat_ne_nil threshold) hdigits hstop, Text.toNat_ofNat,
    Option.pure_def]

/-- The layout before an expression is passed over. -/
theorem read?_append_layout {s : Text} (hs : ∀ c ∈ s, isLayout c = true) (levels : Nat)
    (t : Text) : read? selector levels (s ++ t) = read? selector levels t := by
  cases levels with
  | zero => rfl
  | succ levels => rw [read?, read?, List.dropWhile_append_of_pos hs]

theorem isLayout_of_mem_line {depth : Nat} :
    ∀ c ∈ SelectorTree.line depth, isLayout c = true := by
  intro c hc
  rcases List.mem_cons.mp hc with rfl | hc
  · decide
  · rw [List.eq_of_mem_replicate hc]
    decide

theorem read?_of_head?_ne {levels : Nat} {t : Text} (hlayout : t.StartsOutside isLayout)
    (hhead : t.head? ≠ some '(') : read? selector (levels + 1) t =
      (Text.run? (· ≠ '\n') t).map fun (text, t) => (value text, t) := by
  simp only [read?, Text.dropWhile_of_startsOutside hlayout]
  exact if_neg hhead

/-- A comparison is read when its two expressions are. -/
theorem read?_choice {levels : Nat} (threshold : Nat) {below above : Conditional} {s t u r : Text}
    (hbelow : read? selector levels t = some (below, s ++ ([':', ' '] ++ u)))
    (habove : read? selector levels u = some (above, r ++ ([')'] ++ rest)))
    (hs : ∀ c ∈ s, isLayout c = true) (hr : ∀ c ∈ r, isLayout c = true) :
    read? selector (levels + 1)
      (['('] ++ (selector ++ ([' ', '<', ' '] ++ (Text.ofNat threshold ++ ([' ', '?'] ++ t))))) =
        some (choice threshold below above, rest) := by
  have hcolon := Text.dropWhile_append_of_startsOutside (r := [':', ' '] ++ u) hs
    (Text.startsOutside_cons.mpr rfl)
  have hclose := Text.dropWhile_append_of_startsOutside (r := [')'] ++ rest) hr
    (Text.startsOutside_cons.mpr rfl)
  have hopen : ∀ t, (['('] ++ t).dropWhile isLayout = ['('] ++ t := fun t => rfl
  simp only [read?, hopen]
  refine (if_pos rfl).trans ?_
  simp only [comparison?_append, hbelow, habove, hcolon, hclose, Text.skip?_append,
    Option.bind_eq_bind, Option.bind_some, Option.pure_def]

/-- A layout reads back as the tree, in front of anything that does not go on with its last line. -/
theorem read?_layoutAt {call : Nat → Text} (hcall : ∀ id, OneLine (call id))
    (hparen : ∀ id, (call id).head? ≠ some '(') {tree : SelectorTree} {levels depth : Nat}
    {rest : Text} (hlevels : tree.depth < levels) (hrest : rest.StartsOutside (· ≠ '\n')) :
    read? selector levels (tree.layoutAt selector call depth ++ rest) =
      some (tree.conditional call, rest) := by
  induction tree generalizing levels depth rest with
  | leaf id =>
    obtain ⟨levels, rfl⟩ : ∃ l, levels = l + 1 := ⟨levels - 1, by omega⟩
    have hline := SelectorTree.oneLine_leafText hcall id
    have hlayout : Text.StartsOutside isLayout (SelectorTree.leafText call id ++ rest) := by
      rw [Text.startsOutside_append hline.ne_nil]
      exact fun c hc => isLayout_eq_false_of_isBlank (hline.start c hc)
    have hhead : (SelectorTree.leafText call id ++ rest).head? ≠ some '(' := by
      rw [List.head?_append, Option.or_of_isSome (by simpa using hline.ne_nil)]
      exact SelectorTree.head?_leafText_ne hparen id
    have hrun : ∀ c ∈ SelectorTree.leafText call id, decide (c ≠ '\n') = true := by
      intro c hc
      refine decide_eq_true ?_
      rintro rfl
      exact hline.newline hc
    rw [SelectorTree.layoutAt, read?_of_head?_ne hlayout hhead,
      Text.run?_append hline.ne_nil hrun hrest]
    rfl
  | branch threshold below above ihb iha =>
    obtain ⟨levels, rfl⟩ : ∃ l, levels = l + 1 := ⟨levels - 1, by omega⟩
    simp only [SelectorTree.depth] at hlevels
    have hline : ∀ depth r, Text.StartsOutside (· ≠ '\n') (SelectorTree.line depth ++ r) := by
      intro depth r
      rw [SelectorTree.line, List.cons_append, Text.startsOutside_cons]
      rfl
    have habove : read? selector levels (above.layoutAt selector call (depth + 1) ++
        (SelectorTree.line depth ++ ([')'] ++ rest))) =
          some (above.conditional call, SelectorTree.line depth ++ ([')'] ++ rest)) :=
      iha (by omega) (hline depth _)
    have hbelow : read? selector levels (SelectorTree.line (depth + 1) ++
        (below.layoutAt selector call (depth + 1) ++ (SelectorTree.line (depth + 1) ++
          ([':', ' '] ++ (above.layoutAt selector call (depth + 1) ++
            (SelectorTree.line depth ++ ([')'] ++ rest))))))) =
          some (below.conditional call, SelectorTree.line (depth + 1) ++
            ([':', ' '] ++ (above.layoutAt selector call (depth + 1) ++
              (SelectorTree.line depth ++ ([')'] ++ rest))))) := by
      rw [read?_append_layout isLayout_of_mem_line]
      exact ihb (by omega) (hline (depth + 1) _)
    have hchoice := read?_choice threshold hbelow habove isLayout_of_mem_line isLayout_of_mem_line
    simpa [SelectorTree.layoutAt, SelectorTree.conditional] using hchoice

theorem depth_lt_length_layoutAt (selector : Text) {call : Nat → Text}
    (hcall : ∀ id, OneLine (call id)) (depth : Nat) (tree : SelectorTree) :
    tree.depth < (tree.layoutAt selector call depth).length := by
  induction tree generalizing depth with
  | leaf id => exact List.length_pos_iff.mpr (SelectorTree.oneLine_leafText hcall id).ne_nil
  | branch threshold below above ihb iha =>
    have hb := ihb (depth + 1)
    have ha := iha (depth + 1)
    simp only [SelectorTree.depth, SelectorTree.layoutAt, List.length_append, List.length_cons,
      List.length_nil]
    omega

/-- Read as a whole, a layout is the tree. -/
theorem ofText?_layoutAt {call : Nat → Text} (hcall : ∀ id, OneLine (call id))
    (hparen : ∀ id, (call id).head? ≠ some '(') (depth : Nat) (tree : SelectorTree) {s : Text}
    (hs : ∀ c ∈ s, isLayout c = true) :
    ofText? selector (s ++ tree.layoutAt selector call depth) = some (tree.conditional call) := by
  have hlevels : tree.depth < (s ++ tree.layoutAt selector call depth).length := by
    rw [List.length_append]
    have := depth_lt_length_layoutAt selector hcall depth tree
    omega
  have hread : read? selector (s ++ tree.layoutAt selector call depth).length
      (tree.layoutAt selector call depth ++ []) = some (tree.conditional call, []) :=
    read?_layoutAt hcall hparen hlevels Text.startsOutside_nil
  rw [List.append_nil] at hread
  rw [ofText?, read?_append_layout hs, hread]

end Conditional

end JsfxSugar.Dispatch
