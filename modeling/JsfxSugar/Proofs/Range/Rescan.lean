import JsfxSugar.Proofs.Range.Grammar
import JsfxSugar.Proofs.Range.Settled
import JsfxSugar.Proofs.Seam

/-! Unrolling a text that was unrolled before. What is left of the marks of the source is left as it
is; the text changes again only where its seams form marks that the source did not have. -/

namespace JsfxSugar.Range

namespace Body

/-- The body that goes on with plain text. -/
def append (body : Body) (t : Text) : Body :=
  t.foldl plain body

@[simp] theorem kept_append (body : Body) (t : Text) : (body.append t).kept = body.kept := by
  induction t generalizing body with
  | nil => rfl
  | cons c t ih => exact ih (body.plain c)

@[simp] theorem blocks_append (body : Body) (t : Text) : (body.append t).blocks = body.blocks := by
  induction t generalizing body with
  | nil => rfl
  | cons c t ih => exact ih (body.plain c)

theorem tokens_append (body : Body) (t : Text) :
    (body.append t).tokens = body.tokens ++ t.map fun c => (.plain c, none) := by
  induction t generalizing body with
  | nil => simp [append]
  | cons c t ih =>
    show ((body.plain c).append t).tokens = _
    rw [ih, tokens, List.map_cons, List.append_assoc, List.singleton_append]

theorem text_append (body : Body) (t : Text) : (body.append t).text = body.text ++ t := by
  simp [text, tokens_append, List.flatMap_map, Segment.text]

theorem faults_append (body : Body) (t : Text) : (body.append t).faults = body.faults := by
  simp [faults, tokens_append, List.filterMap_map]

/-- What is left of a body: its blocks that are unrolled have become plain text. -/
def settle : Body → Body
  | empty => empty
  | plain before c => plain before.settle c
  | stray before => stray before.settle
  | block before opening inner =>
    if inner.kept then block before.settle opening inner.settle
    else before.settle.append (opening.unrolled inner.value)

@[simp] theorem kept_settle (body : Body) : body.settle.kept = body.kept := by
  induction body with
  | empty => rfl
  | plain before c ih => exact ih
  | stray before ih => rfl
  | block before opening inner ihb ihi =>
    cases hkept : inner.kept <;> simp [settle, kept, hkept, ihb, ihi]

theorem text_settle (body : Body) : body.settle.text = body.value := by
  induction body with
  | empty => rfl
  | plain before c ih =>
    rw [value, ← ih]
    simp [settle, text, tokens, Segment.text]
  | stray before ih =>
    rw [value, ← ih]
    simp [settle, text, tokens, Segment.text]
  | block before opening inner ihb ihi =>
    rw [settle, value, ← ihb]
    split
    · rw [text_block, ihi]
    · rw [text_append]

theorem kept_of_mem_blocks_settle (body : Body) :
    ∀ block ∈ body.settle.blocks, block.2.kept = true := by
  induction body with
  | empty => simp [settle, blocks]
  | plain before c ih => exact ih
  | stray before ih => exact ih
  | block before opening inner ihb ihi =>
    rw [settle]
    split
    · rename_i hkept
      rw [blocks, List.forall_mem_append, List.forall_mem_cons]
      exact ⟨ihb, (kept_settle inner).trans hkept, ihi⟩
    · rw [blocks_append]
      exact ihb

theorem closeFault?_of_kept (opening : Opening) {inner : Body} (h : inner.kept = true) :
    closeFault? opening inner = none := by
  unfold closeFault?
  split <;> simp [h]

theorem faults_settle {body : Body} (h : body.faults = []) : body.settle.faults = [] := by
  induction body with
  | empty => rfl
  | plain before c ih =>
    have hbefore : before.faults = [] := by simpa [faults, tokens] using h
    simpa [settle, faults, tokens] using ih hbefore
  | stray before ih =>
    have hbefore : before.faults = [] := by simpa [faults, tokens] using h
    simpa [settle, faults, tokens] using ih hbefore
  | block before opening inner ihb ihi =>
    obtain ⟨hbefore, hopening, hinner, -⟩ := faults_block h
    have hsettle := ihb hbefore
    rw [settle]
    split
    · rename_i hkept
      have hnone := closeFault?_of_kept opening ((kept_settle inner).trans hkept)
      have hrest := ihi hinner
      simp only [faults] at hsettle hrest
      simp [faults, tokens, hopening, hnone, hsettle, hrest]
    · rw [faults_append]
      exact hsettle

/-- No mark is left but those that were there. -/
theorem mem_tokens_of_mem_settle {mark : Mark} {body : Body}
    (h : .hit mark ∈ body.settle.tokens.map (·.1)) : .hit mark ∈ body.tokens.map (·.1) := by
  induction body with
  | empty => exact h
  | plain before c ih =>
    simp only [settle, tokens, List.map_append, List.mem_append] at h ⊢
    exact h.imp_left ih
  | stray before ih =>
    simp only [settle, tokens, List.map_append, List.mem_append] at h ⊢
    exact h.imp_left ih
  | block before opening inner ihb ihi =>
    rw [settle] at h
    split at h
    · simp only [tokens, List.map_append, List.mem_append] at h ⊢
      exact h.imp_left (Or.imp (Or.imp_left ihb) ihi)
    · simp only [tokens_append, tokens, List.map_append, List.mem_append] at h ⊢
      rcases h with h | h
      · exact Or.inl (Or.inl (Or.inl (ihb h)))
      · simp at h

end Body

namespace Outline

variable {o : Outline}

/-- What is left of a text once it is unrolled. -/
def settle (o : Outline) : Outline where
  closed := o.closed.map Body.settle
  outer := o.outer.map fun (body, opening) => (body.settle, opening)
  inner := o.inner.settle

theorem text_settle (o : Outline) : o.settle.text = o.value := by
  simp [← flatMap_fst_pieces, pieces, settle, value, List.flatMap_map, Body.flatMap_fst_pieces,
    Body.text_settle, List.flatMap_append, List.flatMap_assoc, ← List.map_reverse]

theorem bodies_settle (o : Outline) : o.settle.bodies = o.bodies.map Body.settle := by
  simp [bodies, settle, Function.comp_def]

theorem settled_settle (h : o.faults = []) : o.settle.Settled := by
  obtain ⟨hbodies, hopenings⟩ := faults_eq_nil_iff.mp h
  constructor
  · rw [faults_eq_nil_iff, bodies_settle]
    refine ⟨List.forall_mem_map.mpr fun body hbody => Body.faults_settle (hbodies body hbody), ?_⟩
    exact List.forall_mem_map.mpr hopenings
  · rw [blocks, bodies_settle, List.flatMap_map, List.forall_mem_flatMap]
    intro body _
    exact body.kept_of_mem_blocks_settle

/-- No mark is left but those that were there. -/
theorem mem_segments_of_mem_settle {mark : Mark} (h : .hit mark ∈ o.settle.segments) :
    .hit mark ∈ o.segments := by
  simp only [segments, tokens, settle, List.map_append, List.map_flatMap, List.flatMap_map,
    ← List.map_reverse, List.mem_append, List.mem_flatMap] at h ⊢
  rcases h with (⟨body, hbody, h⟩ | ⟨frame, hframe, h⟩) | h
  · exact Or.inl (Or.inl ⟨body, hbody, h.imp_left Body.mem_tokens_of_mem_settle⟩)
  · exact Or.inl (Or.inr ⟨frame, hframe, h.imp_left Body.mem_tokens_of_mem_settle⟩)
  · exact Or.inr (Body.mem_tokens_of_mem_settle h)

end Outline

section Reading

variable {t r u : Text}

/-- An opening is read as itself, whatever comes after it. -/
theorem Opening.read?_append {opening : Opening} (h : Opening.read? t = some (opening, r))
    (u : Text) : Opening.read? (opening.source ++ u) = some (opening, u) :=
  read?_eq_some_iff.mpr ⟨rfl, (read?_eq_some_iff.mp h).2⟩

namespace Mark

theorem read?_close (u : Text) : pattern.read? (close.source ++ u) = some (close, u) := by
  show read? (close.source ++ u) = _
  rw [read?, source, Text.skip?_append]

theorem read?_opening {opening : Opening} (h : pattern.read? t = some (.opening opening, r))
    (u : Text) : pattern.read? (opening.source ++ u) = some (.opening opening, u) := by
  have hread : read? t = some (.opening opening, r) := h
  unfold read? at hread
  split at hread
  · simp at hread
  · rename_i hclose
    split at hread
    · rename_i other s hopening
      simp only [Option.some.injEq, Prod.mk.injEq, Mark.opening.injEq] at hread
      obtain ⟨rfl, rfl⟩ := hread
      have hskip : Text.skip? ['{', '#', '}'] (other.source ++ u) = none := by
        rw [Opening.eq_append_of_read? hopening] at hclose
        cases hname : other.name with
        | nil => simp [Opening.source, hname, Text.skip?]
        | cons c name => simpa [Opening.source, hname, Text.skip?] using hclose
      show read? (other.source ++ u) = _
      rw [read?, hskip, Opening.read?_append hopening]
    · simp at hread

/-- A stray mark is one before which neither a close nor an opening can be read. -/
theorem read?_stray_iff : pattern.read? (stray.source ++ u) = some (stray, u) ↔
    u.head? ≠ some '}' ∧ Opening.read? (stray.source ++ u) = none := by
  have hclose : Text.skip? ['{', '#', '}'] (stray.source ++ u) = Text.skip? ['}'] u := by
    simp [source, Text.skip?]
  show read? (stray.source ++ u) = _ ↔ _
  rw [read?, hclose]
  cases u with
  | nil => simp [Text.skip?, source, Opening.read?, name?]
  | cons c u =>
    by_cases hc : c = '}'
    · simp [Text.skip?, hc]
    · cases hopening : Opening.read? (stray.source ++ c :: u) with
      | none => simp [Text.skip?, source, hc, Ne.symm hc]
      | some opening => simp [Text.skip?, hc, Ne.symm hc]

end Mark

end Reading

/-- Nowhere does a character form a mark with the text after it, nor does a stray mark become
another one. -/
structure Outline.Seamless (o : Outline) : Prop where
  plain : ∀ after, .plain '{' :: after <:+ o.segments →
    (after.flatMap (Segment.text Mark.source)).head? ≠ some '#'
  stray : ∀ after, .hit .stray :: after <:+ o.segments →
    (after.flatMap (Segment.text Mark.source)).head? ≠ some '}' ∧
      Opening.read? (Mark.stray.source ++ after.flatMap (Segment.text Mark.source)) = none

namespace Outline

variable {o : Outline} {t u : Text}

theorem ofText_eq_iff : ofText t = o ↔ Mark.pattern.segments t = o.segments := by
  constructor
  · rintro rfl
    exact (segments_ofSegments _).symm
  · intro h
    rw [ofText, h, ofSegments_segments]

/-- An outline whose openings can be read is the outline of its text exactly when it has no seams. -/
theorem ofText_text_eq_iff (h : ∀ opening, .hit (.opening opening) ∈ o.segments →
    ∃ t r, Mark.pattern.read? t = some (.opening opening, r)) :
    ofText o.text = o ↔ o.Seamless := by
  rw [ofText_eq_iff, text]
  refine Pattern.segments_flatMap_text_iff.trans ⟨fun hstands => ⟨?_, ?_⟩, fun hseams => ?_⟩
  · intro after hafter hhead
    have hnone : Mark.pattern.read? ('{' :: after.flatMap (Segment.text Mark.source)) = none :=
      hstands _ after hafter
    obtain ⟨rest, hrest⟩ := List.head?_eq_some_iff.mp hhead
    have hsome : (Mark.pattern.read? ('{' :: after.flatMap (Segment.text Mark.source))).isSome :=
      Mark.isSome_read?_iff.mpr ⟨rest, by simp [Mark.source, hrest]⟩
    simp [hnone] at hsome
  · intro after hafter
    exact Mark.read?_stray_iff.mp (hstands _ after hafter)
  · intro seg after hafter
    cases seg with
    | plain c =>
      show Mark.pattern.read? _ = none
      rw [← Option.not_isSome_iff_eq_none, Mark.isSome_read?_iff]
      rintro ⟨rest, hrest⟩
      simp only [Mark.source, List.cons_append, List.nil_append, List.cons.injEq] at hrest
      obtain ⟨rfl, hrest⟩ := hrest
      exact hseams.plain after hafter (congrArg List.head? hrest).symm
    | hit mark =>
      cases mark with
      | close => exact Mark.read?_close _
      | opening opening =>
        obtain ⟨t, r, hread⟩ := h opening (hafter.subset List.mem_cons_self)
        exact Mark.read?_opening hread _
      | stray => exact Mark.read?_stray_iff.mpr (hseams.stray after hafter)

end Outline

/-- A text without marks is left as it is. -/
theorem unroll_of_hits_eq_nil {t : Text} (h : Mark.pattern.hits t = []) : unroll t = .ok t := by
  have houtline : Outline.ofText t = { inner := Body.empty.append t } := by
    rw [Outline.ofText_eq_iff, Pattern.segments_of_hits_eq_nil h]
    simp [Outline.segments, Outline.tokens, Body.tokens_append, Body.tokens]
  have hfaults : (Body.empty.append t).faults = [] := Body.faults_append .empty t
  rw [unroll_eq_self_iff, houtline]
  constructor
  · simp [Outline.faults_eq_nil_iff, Outline.bodies, hfaults]
  · simp [Outline.blocks, Outline.bodies, Body.blocks]

/-- What unrolling leaves of a text is left as it is. The unrolled text is that again, and unrolling
it changes nothing, where no seam forms a mark; where seams do form marks, the text stays only if
its new outline is one of those that are left as they are. -/
theorem unroll_unrolled {t u : Text} (h : unroll t = .ok u) :
    let left := (Outline.ofText t).settle
    u = left.text ∧ left.Settled ∧ (Outline.ofText u = left ↔ left.Seamless) ∧
      (unroll u = .ok u ↔ (Outline.ofText u).Settled) ∧
      (left.Seamless → unroll u = .ok u) := by
  intro left
  obtain ⟨hfaults, hvalue⟩ := unroll_eq_ok_iff.mp h
  have htext : u = left.text := hvalue.trans (Outline.text_settle _).symm
  have hsettled : left.Settled := Outline.settled_settle hfaults
  have hread : Outline.ofText u = left ↔ left.Seamless := by
    rw [htext]
    apply Outline.ofText_text_eq_iff
    intro opening hopening
    have hhit : Mark.opening opening ∈ Mark.pattern.hits t := by
      have hmem := Outline.mem_segments_of_mem_settle hopening
      rw [Outline.ofText, Outline.segments_ofSegments] at hmem
      exact List.mem_filterMap.mpr ⟨_, hmem, rfl⟩
    exact Pattern.forall_mem_hits (P := fun mark => ∃ t r, Mark.pattern.read? t = some (mark, r))
      (fun hread => ⟨_, _, hread⟩) _ hhit
  refine ⟨htext, hsettled, hread, unroll_eq_self_iff, fun hseams => ?_⟩
  rw [unroll_eq_self_iff, hread.mpr hseams]
  exact hsettled

/-- A block that is unrolled after marks that match nothing. -/
theorem unroll_unrolled_after_marks :
    let t := "{#?} {#} {#i=1,2}i{#}".toList
    ∃ u, unroll t = .ok u ∧ (Outline.ofText t).settle.Seamless ∧ unroll u = .ok u := by
  intro t
  obtain ⟨u, hu⟩ : ∃ u, unroll t = .ok u := exists_eq_ok_of_isSome (by decide +kernel)
  obtain ⟨rfl, -, hread, -, hagain⟩ := unroll_unrolled hu
  have hsame : Outline.ofText (Outline.ofText t).settle.text = (Outline.ofText t).settle := by
    decide +kernel
  have hseams := hread.mp hsame
  exact ⟨_, hu, hseams, hagain hseams⟩

/-- An unrolled block makes the number for a half-written opening before it, and the text after it
is unrolled only by running again. -/
theorem not_forall_unroll_unrolled :
    ¬ ∀ t u : Text, unroll t = .ok u → unroll u = .ok u := by
  intro hall
  have hfirst : (unroll "{#j=1,{#k=1,1}2{#}}x{#}".toList).toOption =
      some "{#j=1,2}x{#}".toList := by decide +kernel
  obtain ⟨u, hu⟩ : ∃ u, unroll "{#j=1,{#k=1,1}2{#}}x{#}".toList = .ok u :=
    exists_eq_ok_of_isSome (by rw [hfirst]; rfl)
  rw [hu] at hfirst
  obtain rfl : u = "{#j=1,2}x{#}".toList := Option.some.inj hfirst
  have hagain := hall _ _ hu
  have hsecond : (unroll "{#j=1,2}x{#}".toList).toOption = some "xx".toList := by decide +kernel
  rw [hagain] at hsecond
  revert hsecond
  decide +kernel

end JsfxSugar.Range
