import JsfxSugar.Range.Mark
import Mathlib.Data.List.Infix

/-! What the marks of a text mean. A close belongs to the nearest opening on its left that no other
close belongs to, so the closes that match nothing all stand before the openings that match
nothing. -/

namespace JsfxSugar.Range

/-- A mark begins wherever its first two characters stand, and nowhere else. -/
theorem Mark.isSome_read?_iff {t : Text} :
    (pattern.read? t).isSome ↔ stray.source <+: t := by
  constructor
  · intro hsome
    obtain ⟨⟨mark, r⟩, hread⟩ := Option.isSome_iff_exists.mp hsome
    rw [pattern.eq_append_of_read? hread]
    cases mark with
    | close => exact ⟨'}' :: r, rfl⟩
    | opening opening => exact ⟨_, (List.append_assoc _ _ _).symm⟩
    | stray => exact List.prefix_append _ _
  · rintro ⟨r, rfl⟩
    show (Mark.read? _).isSome
    unfold Mark.read?
    split
    · rfl
    · split
      · rfl
      · rw [source, Text.skip?_append]
        rfl

/-- Text in which every opening has its close, one piece after the other. -/
inductive Body where
  | empty
  | plain (before : Body) (c : Char)
  | stray (before : Body)
  | block (before : Body) (opening : Opening) (inner : Body)
  deriving DecidableEq

/-- The fault of an opening whose bounds are bad. -/
def Opening.fault? (opening : Opening) : Option Fault :=
  match opening.header with
  | .ok _ => none
  | .error fault => some fault

/-- A block as it is written, with another text for its body. -/
def Opening.verbatim (opening : Opening) (inner : Text) : Text :=
  opening.source ++ inner ++ Mark.close.source

/-- What a block with a body comes to, when the body may be unrolled. -/
def Opening.unrolled (opening : Opening) (inner : Text) : Text :=
  match opening.header with
  | .ok header => header.unroll inner
  | .error _ => opening.verbatim inner

namespace Body

/-- Whether a block around the text is left as it is: a stray mark stands in the text, or a block
that is itself left as it is. -/
def kept : Body → Bool
  | empty => false
  | plain before _ => before.kept
  | stray _ => true
  | block before _ inner => before.kept || inner.kept

/-- The text that the pieces come to. -/
def value : Body → Text
  | empty => []
  | plain before c => before.value ++ [c]
  | stray before => before.value ++ Mark.stray.source
  | block before opening inner =>
    before.value ++
      if inner.kept then opening.verbatim inner.value else opening.unrolled inner.value

/-- The fault at the close of a block: its copies would hold a mark again. -/
def closeFault? (opening : Opening) (inner : Body) : Option Fault :=
  match opening.header with
  | .ok header =>
    if ¬ inner.kept ∧ Mark.stray.source <:+: header.unroll inner.value then
      some (.reopening header.name)
    else none
  | .error _ => none

/-- The characters and the marks from left to right, each with the fault that it gives rise to. -/
def tokens : Body → List (Segment Mark × Option Fault)
  | empty => []
  | plain before c => before.tokens ++ [(.plain c, none)]
  | stray before => before.tokens ++ [(.hit .stray, none)]
  | block before opening inner =>
    before.tokens ++ [(.hit (.opening opening), opening.fault?)] ++ inner.tokens ++
      [(.hit .close, closeFault? opening inner)]

end Body

/-- A whole text: some bodies each with a close after it that matches nothing, then some bodies each
with an opening after it that matches nothing (the last of them first), then the last body. -/
structure Outline where
  closed : List Body := []
  outer : List (Body × Opening) := []
  inner : Body := .empty
  deriving DecidableEq

namespace Outline

def tokens (o : Outline) : List (Segment Mark × Option Fault) :=
  o.closed.flatMap (fun body => body.tokens ++ [(.hit .close, none)]) ++
    o.outer.reverse.flatMap (fun (body, opening) =>
      body.tokens ++ [(.hit (.opening opening), opening.fault?)]) ++
    o.inner.tokens

/-- The characters and marks of the text. -/
def segments (o : Outline) : List (Segment Mark) :=
  o.tokens.map (·.1)

/-- The faults of the text, in the order of the marks that give rise to them. -/
def faults (o : Outline) : List Fault :=
  o.tokens.filterMap (·.2)

/-- The text that the bodies come to, where marks that match nothing stand for themselves. -/
def value (o : Outline) : Text :=
  o.closed.flatMap (fun body => body.value ++ Mark.close.source) ++
    o.outer.reverse.flatMap (fun (body, opening) => body.value ++ opening.source) ++
    o.inner.value

/-- The outline of a text that goes on by one more character or mark. -/
def push (o : Outline) : Segment Mark → Outline
  | .plain c => { o with inner := .plain o.inner c }
  | .hit .stray => { o with inner := .stray o.inner }
  | .hit (.opening opening) => { o with outer := (o.inner, opening) :: o.outer, inner := .empty }
  | .hit .close =>
    match o.outer with
    | [] => { o with closed := o.closed ++ [o.inner], inner := .empty }
    | (before, opening) :: outer => { o with outer, inner := .block before opening o.inner }

/-- The fault that the next character or mark gives rise to. -/
def pushFault? (o : Outline) : Segment Mark → Option Fault
  | .hit (.opening opening) => opening.fault?
  | .hit .close => o.outer.head?.bind fun (_, opening) => Body.closeFault? opening o.inner
  | _ => none

theorem tokens_push (o : Outline) (seg : Segment Mark) :
    (o.push seg).tokens = o.tokens ++ [(seg, o.pushFault? seg)] := by
  cases seg with
  | plain c => simp [push, tokens, pushFault?, Body.tokens]
  | hit mark =>
    cases mark with
    | stray => simp [push, tokens, pushFault?, Body.tokens]
    | opening opening => simp [push, tokens, pushFault?, Body.tokens]
    | close =>
      obtain ⟨closed, outer, inner⟩ := o
      cases outer with
      | nil => simp [push, tokens, pushFault?, Body.tokens]
      | cons frame outer => simp [push, tokens, pushFault?, Body.tokens]

theorem segments_push (o : Outline) (seg : Segment Mark) :
    (o.push seg).segments = o.segments ++ [seg] := by
  simp [segments, tokens_push]

theorem faults_push (o : Outline) (seg : Segment Mark) :
    (o.push seg).faults = o.faults ++ (o.pushFault? seg).toList := by
  cases h : o.pushFault? seg <;> simp [faults, tokens_push, h]

theorem segments_foldl_push (o : Outline) (segs : List (Segment Mark)) :
    (segs.foldl push o).segments = o.segments ++ segs := by
  induction segs generalizing o with
  | nil => simp
  | cons seg segs ih => simp [ih, segments_push]

theorem faults_isPrefix_foldl_push (o : Outline) (segs : List (Segment Mark)) :
    o.faults <+: (segs.foldl push o).faults := by
  induction segs generalizing o with
  | nil => exact List.prefix_rfl
  | cons seg segs ih =>
    have hpush : o.faults <+: (o.push seg).faults := by
      rw [faults_push]
      exact List.prefix_append _ _
    exact hpush.trans (ih (o.push seg))

/-- The outline of characters and marks. -/
def ofSegments (segs : List (Segment Mark)) : Outline :=
  segs.foldl push {}

/-- Every text has an outline. -/
theorem segments_ofSegments (segs : List (Segment Mark)) : (ofSegments segs).segments = segs :=
  segments_foldl_push {} segs

/-- A body leaves what is open around it alone. -/
theorem foldl_push_body (closed : List Body) (outer : List (Body × Opening)) (body : Body) :
    (body.tokens.map (·.1)).foldl push ⟨closed, outer, .empty⟩ = ⟨closed, outer, body⟩ := by
  induction body generalizing outer with
  | empty => rfl
  | plain before c ih => simp [Body.tokens, ih, push]
  | stray before ih => simp [Body.tokens, ih, push]
  | block before opening inner ihb ihi => simp [Body.tokens, ihb, ihi, push]

theorem foldl_push_closed (start closed : List Body) :
    ((closed.flatMap fun body => body.tokens ++ [(.hit .close, none)]).map (·.1)).foldl push
      ⟨start, [], .empty⟩ = ⟨start ++ closed, [], .empty⟩ := by
  induction closed generalizing start with
  | nil => simp
  | cons body closed ih => simp [foldl_push_body, push, ih]

theorem foldl_push_outer (closed : List Body) (outer : List (Body × Opening)) :
    ((outer.reverse.flatMap fun (body, opening) =>
      body.tokens ++ [(.hit (.opening opening), opening.fault?)]).map (·.1)).foldl push
        ⟨closed, [], .empty⟩ = ⟨closed, outer, .empty⟩ := by
  induction outer with
  | nil => rfl
  | cons frame outer ih =>
    obtain ⟨body, opening⟩ := frame
    simp [ih, foldl_push_body, push]

/-- A text has no other outline. -/
theorem ofSegments_segments (o : Outline) : ofSegments o.segments = o := by
  obtain ⟨closed, outer, inner⟩ := o
  rw [ofSegments, segments, tokens, List.map_append, List.map_append, List.foldl_append,
    List.foldl_append, foldl_push_closed, List.nil_append, foldl_push_outer, foldl_push_body]

end Outline

end JsfxSugar.Range
