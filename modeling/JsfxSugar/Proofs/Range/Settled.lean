import JsfxSugar.Proofs.Range.Nesting

/-! The texts that unrolling leaves as they are: those without faults in which every block is left as
it is. -/

namespace JsfxSugar.Range

section Pieces

variable {pieces : List (Text × Text)} {ahead : Text}

/-- What the pieces come to does not run behind the pieces: the piece that would make up for it lies
within its replacement. -/
theorem flatMap_snd_ne_append (h : ∀ x ∈ pieces, x.1 = x.2 ∨ ¬ x.1 <:+: x.2) (hne : ahead ≠ []) :
    pieces.flatMap (·.2) ≠ ahead ++ pieces.flatMap (·.1) := by
  induction pieces generalizing ahead with
  | nil => simpa using Ne.symm hne
  | cons x pieces ih =>
    obtain ⟨hx, hpieces⟩ := List.forall_mem_cons.mp h
    have hlong : ∀ more, x.2 ≠ ahead ++ x.1 ++ more := by
      intro more heq
      rcases hx with hsame | hinfix
      · have hlength := congrArg List.length heq
        have hpos := List.length_pos_iff.mpr hne
        rw [← hsame] at hlength
        simp only [List.length_append] at hlength
        omega
      · exact hinfix ⟨ahead, more, heq.symm⟩
    intro heq
    rw [List.flatMap_cons, List.flatMap_cons, ← List.append_assoc] at heq
    rcases List.append_eq_append_iff.mp heq with ⟨rest, hrest, hvalue⟩ | ⟨more, hmore, -⟩
    · apply ih hpieces ?_ hvalue
      rintro rfl
      exact hlong [] (by simpa using hrest.symm)
    · exact hlong more hmore

/-- Pieces come to the same text as they are only when each does, where no piece that is replaced lies
within its replacement. -/
theorem forall_eq_of_flatMap_eq (h : ∀ x ∈ pieces, x.1 = x.2 ∨ ¬ x.1 <:+: x.2)
    (heq : pieces.flatMap (·.2) = pieces.flatMap (·.1)) : ∀ x ∈ pieces, x.1 = x.2 := by
  induction pieces with
  | nil => simp
  | cons x pieces ih =>
    obtain ⟨hx, hpieces⟩ := List.forall_mem_cons.mp h
    rw [List.flatMap_cons, List.flatMap_cons] at heq
    rcases hx with hsame | hinfix
    · rw [hsame] at heq
      exact List.forall_mem_cons.mpr ⟨hsame, ih hpieces (List.append_cancel_left heq)⟩
    · rcases List.append_eq_append_iff.mp heq with ⟨ahead, hahead, hvalue⟩ | ⟨more, hmore, -⟩
      · refine absurd hvalue (flatMap_snd_ne_append hpieces ?_)
        rintro rfl
        exact hinfix (by simp [hahead])
      · exact absurd ⟨[], more, hmore.symm⟩ hinfix

end Pieces

namespace Body

/-- The blocks of a body, each as its opening and the body inside it. -/
def blocks : Body → List (Opening × Body)
  | empty => []
  | plain before _ => before.blocks
  | stray before => before.blocks
  | block before opening inner => before.blocks ++ (opening, inner) :: inner.blocks

def faults (body : Body) : List Fault :=
  body.tokens.filterMap (·.2)

/-- The text of a body as it is written. -/
def text (body : Body) : Text :=
  (body.tokens.map (·.1)).flatMap (Segment.text Mark.source)

/-- The pieces of a body as they are written, each with the text that it comes to. A block that is
unrolled is one piece, and so is each mark of a block that is left as it is. -/
def pieces : Body → List (Text × Text)
  | empty => []
  | plain before c => before.pieces ++ [([c], [c])]
  | stray before => before.pieces ++ [(Mark.stray.source, Mark.stray.source)]
  | block before opening inner =>
    before.pieces ++
      if inner.kept then
        (opening.source, opening.source) :: inner.pieces ++ [(Mark.close.source, Mark.close.source)]
      else [(opening.verbatim inner.text, opening.unrolled inner.value)]

theorem text_block (before : Body) (opening : Opening) (inner : Body) :
    (block before opening inner).text = before.text ++ opening.verbatim inner.text := by
  simp [text, tokens, Segment.text, Mark.source, Opening.verbatim]

theorem flatMap_fst_pieces (body : Body) : body.pieces.flatMap (·.1) = body.text := by
  induction body with
  | empty => rfl
  | plain before c ih => simp [pieces, ih, text, tokens, Segment.text]
  | stray before ih => simp [pieces, ih, text, tokens, Segment.text]
  | block before opening inner ihb ihi =>
    rw [text_block, pieces, List.flatMap_append, ihb]
    split <;> simp [ihi, Opening.verbatim]

theorem flatMap_snd_pieces (body : Body) : body.pieces.flatMap (·.2) = body.value := by
  induction body with
  | empty => rfl
  | plain before c ih => simp [pieces, ih, value]
  | stray before ih => simp [pieces, ih, value]
  | block before opening inner ihb ihi =>
    rw [value, pieces, List.flatMap_append, ihb]
    split <;> simp [ihi, Opening.verbatim]

theorem faults_block {before inner : Body} {opening : Opening}
    (h : (block before opening inner).faults = []) :
    before.faults = [] ∧ opening.fault? = none ∧ inner.faults = [] ∧
      closeFault? opening inner = none := by
  simp only [faults, tokens, List.filterMap_append, List.append_eq_nil_iff] at h
  obtain ⟨⟨⟨hbefore, hopening⟩, hinner⟩, hclose⟩ := h
  refine ⟨hbefore, ?_, hinner, ?_⟩
  · cases hfault : opening.fault? with
    | none => rfl
    | some fault => simp [hfault] at hopening
  · cases hfault : closeFault? opening inner with
    | none => rfl
    | some fault => simp [hfault] at hclose

/-- What a block without faults is unrolled to holds no mark. -/
theorem not_isInfix_unrolled {opening : Opening} {inner : Body} (hopening : opening.fault? = none)
    (hclose : closeFault? opening inner = none) (hkept : inner.kept = false) :
    ¬ Mark.stray.source <:+: opening.unrolled inner.value := by
  unfold Opening.fault? at hopening
  split at hopening
  · rename_i header hheader
    simpa [closeFault?, Opening.unrolled, hheader, hkept] using hclose
  · simp at hopening

theorem isInfix_verbatim (opening : Opening) (t : Text) :
    Mark.stray.source <:+: opening.verbatim t := by
  refine ⟨opening.source ++ t, ['}'], ?_⟩
  simp [Opening.verbatim, Mark.source]

theorem eq_or_not_isInfix_of_mem_pieces {body : Body} (h : body.faults = []) :
    ∀ x ∈ body.pieces, x.1 = x.2 ∨ ¬ x.1 <:+: x.2 := by
  induction body with
  | empty => simp [pieces]
  | plain before c ih =>
    have hbefore : before.faults = [] := by simpa [faults, tokens] using h
    intro x hx
    rcases List.mem_append.mp hx with hx | hx
    · exact ih hbefore x hx
    · rw [List.mem_singleton.mp hx]
      exact Or.inl rfl
  | stray before ih =>
    have hbefore : before.faults = [] := by simpa [faults, tokens] using h
    intro x hx
    rcases List.mem_append.mp hx with hx | hx
    · exact ih hbefore x hx
    · rw [List.mem_singleton.mp hx]
      exact Or.inl rfl
  | block before opening inner ihb ihi =>
    obtain ⟨hbefore, hopening, hinner, hclose⟩ := faults_block h
    intro x hx
    rcases List.mem_append.mp hx with hx | hx
    · exact ihb hbefore x hx
    · cases hkept : inner.kept with
      | true =>
        rw [if_pos hkept, List.cons_append, List.mem_cons, List.mem_append,
          List.mem_singleton] at hx
        rcases hx with rfl | hx | rfl
        · exact Or.inl rfl
        · exact ihi hinner x hx
        · exact Or.inl rfl
      | false =>
        rw [if_neg (by simp [hkept]), List.mem_singleton] at hx
        right
        rintro hinfix
        rw [hx] at hinfix
        have hmark := (isInfix_verbatim opening inner.text).trans hinfix
        exact not_isInfix_unrolled hopening hclose hkept hmark

/-- The pieces of a body without faults come to themselves exactly when no block in it is unrolled. -/
theorem forall_mem_pieces_eq_iff {body : Body} (h : body.faults = []) :
    (∀ x ∈ body.pieces, x.1 = x.2) ↔ ∀ b ∈ body.blocks, b.2.kept = true := by
  induction body with
  | empty => simp [pieces, blocks]
  | plain before c ih =>
    have hbefore : before.faults = [] := by simpa [faults, tokens] using h
    simpa [pieces, blocks, or_imp, forall_and] using ih hbefore
  | stray before ih =>
    have hbefore : before.faults = [] := by simpa [faults, tokens] using h
    simpa [pieces, blocks, or_imp, forall_and] using ih hbefore
  | block before opening inner ihb ihi =>
    obtain ⟨hbefore, hopening, hinner, hclose⟩ := faults_block h
    rw [pieces, blocks, List.forall_mem_append, List.forall_mem_append, ihb hbefore,
      List.forall_mem_cons, ← ihi hinner]
    apply and_congr_right
    intro _
    cases hkept : inner.kept with
    | true => simp [or_imp, forall_and]
    | false =>
      have hmark := isInfix_verbatim opening inner.text
      have hnone := not_isInfix_unrolled hopening hclose hkept
      simp only [Bool.false_eq_true, if_false, List.forall_mem_singleton, false_and, iff_false]
      intro heq
      exact hnone (heq ▸ hmark)

end Body

namespace Outline

variable {o : Outline}

/-- The bodies of a text between the marks that match nothing. -/
def bodies (o : Outline) : List Body :=
  o.closed ++ o.outer.reverse.map (·.1) ++ [o.inner]

/-- The blocks of a text, those inside other blocks too. -/
def blocks (o : Outline) : List (Opening × Body) :=
  o.bodies.flatMap Body.blocks

/-- The text of an outline as it is written. -/
def text (o : Outline) : Text :=
  o.segments.flatMap (Segment.text Mark.source)

def pieces (o : Outline) : List (Text × Text) :=
  o.closed.flatMap (fun body => body.pieces ++ [(Mark.close.source, Mark.close.source)]) ++
    o.outer.reverse.flatMap (fun (body, opening) =>
      body.pieces ++ [(opening.source, opening.source)]) ++
    o.inner.pieces

theorem flatMap_fst_pieces (o : Outline) : o.pieces.flatMap (·.1) = o.text := by
  simp only [pieces, text, segments, tokens, List.flatMap_append, List.map_append,
    List.flatMap_assoc, List.map_flatMap, Body.flatMap_fst_pieces, Body.text,
    List.flatMap_singleton, List.map_cons, List.map_nil, Segment.text, Mark.source]

theorem flatMap_snd_pieces (o : Outline) : o.pieces.flatMap (·.2) = o.value := by
  simp only [pieces, value, List.flatMap_append, List.flatMap_assoc, Body.flatMap_snd_pieces,
    List.flatMap_singleton]

theorem faults_eq_nil_iff : o.faults = [] ↔
    (∀ body ∈ o.bodies, body.faults = []) ∧ ∀ frame ∈ o.outer, frame.2.fault? = none := by
  simp only [faults, tokens, bodies, List.filterMap_append, List.append_eq_nil_iff,
    List.filterMap_flatMap, List.flatMap_eq_nil_iff, List.forall_mem_append, List.forall_mem_map,
    List.forall_mem_singleton, List.mem_reverse, List.filterMap_cons, List.filterMap_nil]
  constructor
  · rintro ⟨⟨hclosed, houter⟩, hinner⟩
    refine ⟨⟨⟨fun body hbody => (hclosed body hbody).1, fun frame hframe => ?_⟩, hinner⟩, ?_⟩
    · exact (houter frame hframe).1
    · intro frame hframe
      have hopening := (houter frame hframe).2
      cases hfault : frame.2.fault? with
      | none => rfl
      | some fault => simp [hfault] at hopening
  · rintro ⟨⟨⟨hclosed, houter⟩, hinner⟩, hopenings⟩
    refine ⟨⟨fun body hbody => ⟨hclosed body hbody, trivial⟩, ?_⟩, hinner⟩
    intro frame hframe
    exact ⟨houter frame hframe, by simp [hopenings frame hframe]⟩

theorem forall_mem_pieces_iff {P : Text × Text → Prop} (hP : ∀ s, P (s, s)) :
    (∀ x ∈ o.pieces, P x) ↔ ∀ body ∈ o.bodies, ∀ x ∈ body.pieces, P x := by
  simp only [pieces, bodies, List.forall_mem_append, List.forall_mem_flatMap,
    List.forall_mem_singleton, List.forall_mem_map, hP, and_true]

/-- A text that is at fault nowhere, and in which every block is left as it is. -/
structure Settled (o : Outline) : Prop where
  faults : o.faults = []
  kept : ∀ block ∈ o.blocks, block.2.kept = true

/-- A text without faults comes to itself exactly when no block in it is unrolled. -/
theorem value_eq_text_iff (h : o.faults = []) :
    o.value = o.text ↔ ∀ block ∈ o.blocks, block.2.kept = true := by
  have hbodies := (faults_eq_nil_iff.mp h).1
  have hpieces : (∀ x ∈ o.pieces, x.1 = x.2) ↔ ∀ block ∈ o.blocks, block.2.kept = true := by
    rw [forall_mem_pieces_iff fun _ => rfl, blocks, List.forall_mem_flatMap]
    exact forall₂_congr fun body hbody => Body.forall_mem_pieces_eq_iff (hbodies body hbody)
  rw [← hpieces, ← flatMap_fst_pieces, ← flatMap_snd_pieces]
  constructor
  · intro heq
    apply forall_eq_of_flatMap_eq ?_ heq
    rw [forall_mem_pieces_iff fun _ => Or.inl rfl]
    intro body hbody
    exact Body.eq_or_not_isInfix_of_mem_pieces (hbodies body hbody)
  · intro heq
    rw [List.flatMap_def, List.flatMap_def, List.map_congr_left heq]

/-- The outline of a text. -/
def ofText (t : Text) : Outline :=
  ofSegments (Mark.pattern.segments t)

theorem text_ofText (t : Text) : (ofText t).text = t := by
  rw [text, ofText, segments_ofSegments]
  exact Mark.pattern.flatMap_text_segments t

end Outline

/-- Unrolling a text comes to the value of its outline, or to the first of its faults. -/
theorem unroll_eq (t : Text) :
    unroll t = match (Outline.ofText t).faults with
      | [] => .ok (Outline.ofText t).value
      | fault :: _ => .error fault :=
  foldlM_step (.ground .empty) rfl _

theorem unroll_eq_ok_iff {t u : Text} :
    unroll t = .ok u ↔ (Outline.ofText t).faults = [] ∧ u = (Outline.ofText t).value := by
  rw [unroll_eq]
  cases (Outline.ofText t).faults <;> simp [eq_comm]

/-- Unrolling leaves a text as it is exactly when it leaves every block in it as it is. -/
theorem unroll_eq_self_iff {t : Text} : unroll t = .ok t ↔ (Outline.ofText t).Settled := by
  rw [unroll_eq_ok_iff]
  constructor
  · rintro ⟨hfaults, hvalue⟩
    refine ⟨hfaults, (Outline.value_eq_text_iff hfaults).mp ?_⟩
    rw [← hvalue, Outline.text_ofText]
  · rintro ⟨hfaults, hkept⟩
    refine ⟨hfaults, ?_⟩
    rw [(Outline.value_eq_text_iff hfaults).mpr hkept, Outline.text_ofText]

end JsfxSugar.Range
