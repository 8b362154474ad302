import JsfxSugar.Proofs.Substitution
import Mathlib.Data.List.Basic

/-! Scanning a text that was put together from parts: where no marker lies across the seam, the parts
are scanned on their own. -/

namespace JsfxSugar.Pattern

variable {α : Type} {p : Pattern α} {t u : Text} {left right : List (Segment α)}

/-- What is left over of a scan is the scan of what is left over of the text. -/
theorem segments_flatMap_text (h : p.segments t = left ++ right) :
    p.segments (right.flatMap (Segment.text p.source)) = right := by
  induction t using p.scan_induction generalizing left with
  | nil =>
    rw [segments_nil, eq_comm, List.append_eq_nil_iff] at h
    rw [h.2, List.flatMap_nil, segments_nil]
  | plain c t hc ih =>
    cases left with
    | nil => rw [List.nil_append] at h; rw [← h, flatMap_text_segments]
    | cons seg left =>
      rw [segments_of_read?_eq_none hc, List.cons_append] at h
      exact ih (List.cons.inj h).2
  | hit t a r ht ih =>
    cases left with
    | nil => rw [List.nil_append] at h; rw [← h, flatMap_text_segments]
    | cons seg left =>
      rw [segments_of_read? ht, List.cons_append] at h
      exact ih (List.cons.inj h).2

/-- A text whose scan is what is left over of another scan is what is left over of the other text. -/
theorem isSuffix_of_segments_eq (h : p.segments t = left ++ p.segments u) :
    u <:+ t ∧ ∀ a ∈ p.hits u, a ∈ p.hits t := by
  constructor
  · have htext := p.flatMap_text_segments t
    rw [h, List.flatMap_append, p.flatMap_text_segments] at htext
    exact ⟨_, htext⟩
  · intro a ha
    rw [hits, h, List.filterMap_append]
    exact List.mem_append_right _ ha

/-- A marker that a scan comes to first can be read there. -/
theorem read?_of_segments_eq_cons_hit {a : α} (h : p.segments t = .hit a :: right) :
    p.read? t = some (a, right.flatMap (Segment.text p.source)) := by
  cases hread : p.read? t with
  | none =>
    cases t with
    | nil => simp at h
    | cons c t => simp [segments_of_read?_eq_none hread] at h
  | some out =>
    obtain ⟨b, r⟩ := out
    rw [segments_of_read? hread] at h
    obtain ⟨hhit, hright⟩ := List.cons.inj h
    rw [Segment.hit.inj hhit, ← hright, flatMap_text_segments]

/-- No marker can be read where a scan comes to a plain character first. -/
theorem read?_of_segments_eq_cons_plain {c : Char} (h : p.segments t = .plain c :: right) :
    p.read? t = none := by
  cases hread : p.read? t with
  | none => rfl
  | some out => simp [segments_of_read? hread] at h

/-- When the text after the seam makes no difference to what is read before it, it makes no
difference to the scan. Only the places that the scan comes to are looked at. -/
theorem segments_append
    (h : ∀ c s, c :: s <:+ t → p.segments (c :: s) <:+ p.segments t →
      (p.read? (c :: s) = none → p.read? (c :: s ++ u) = none) ∧
      ∀ a r, p.read? (c :: s) = some (a, r) → p.read? (c :: s ++ u) = some (a, r ++ u)) :
    p.segments (t ++ u) = p.segments t ++ p.segments u := by
  induction t using p.scan_induction with
  | nil => simp
  | plain c t hc ih =>
    have hnone : p.read? (c :: (t ++ u)) = none := (h c t List.suffix_rfl List.suffix_rfl).1 hc
    have hrest : p.segments t <:+ p.segments (c :: t) := by
      rw [segments_of_read?_eq_none hc]
      exact List.suffix_cons _ _
    rw [segments_of_read?_eq_none hc, List.cons_append, segments_of_read?_eq_none hnone,
      List.cons_append, ih fun d s hs hsegs =>
        h d s (hs.trans (List.suffix_cons c t)) (hsegs.trans hrest)]
  | hit t a r ht ih =>
    have hsource := p.eq_append_of_read? ht
    obtain ⟨c, s, rfl⟩ : ∃ c s, t = c :: s := by
      cases t with
      | nil => simp at ht
      | cons c s => exact ⟨c, s, rfl⟩
    have hsome := (h c s List.suffix_rfl List.suffix_rfl).2 a r ht
    have hrest : p.segments r <:+ p.segments (c :: s) := by
      rw [segments_of_read? ht]
      exact List.suffix_cons _ _
    rw [segments_of_read? ht, segments_of_read? hsome, List.cons_append, ih fun d s' hs hsegs =>
      h d s' (hs.trans (hsource ▸ List.suffix_append _ _)) (hsegs.trans hrest)]

/-- A text in which no marker begins is all plain characters, whatever comes after it. -/
theorem segments_append_of_forall (h : ∀ s, s <:+ t → s ≠ [] → p.read? (s ++ u) = none) :
    p.segments (t ++ u) = t.map .plain ++ p.segments u := by
  induction t with
  | nil => rfl
  | cons c t ih =>
    have hnone : p.read? (c :: (t ++ u)) = none := h (c :: t) List.suffix_rfl (by simp)
    rw [List.cons_append, segments_of_read?_eq_none hnone, List.map_cons, List.cons_append,
      ih fun s hs => h s (hs.trans (List.suffix_cons c t))]

/-- A text in which no marker can be read anywhere is all plain characters. -/
theorem segments_eq_map_plain (h : ∀ s, s <:+ t → p.read? s = none) :
    p.segments t = t.map .plain := by
  have hsegs := segments_append_of_forall (u := []) fun s hs _ => (List.append_nil s).symm ▸ h s hs
  rwa [segments_nil, List.append_nil, List.append_nil] at hsegs

/-- A scan that comes to a segment before some text finds that segment there. -/
def Stands (p : Pattern α) (after : Text) : Segment α → Prop
  | .plain c => p.read? (c :: after) = none
  | .hit a => p.read? (p.source a ++ after) = some (a, after)

/-- Segments are the scan of their text exactly when each of them stands before the text of the
others. -/
theorem segments_flatMap_text_iff {segs : List (Segment α)} :
    p.segments (segs.flatMap (Segment.text p.source)) = segs ↔
      ∀ seg after, seg :: after <:+ segs →
        p.Stands (after.flatMap (Segment.text p.source)) seg := by
  constructor
  · rintro h seg after ⟨before, hsegs⟩
    have hscan := segments_flatMap_text (h.trans hsegs.symm)
    rw [List.flatMap_cons] at hscan
    cases seg with
    | plain c => exact read?_of_segments_eq_cons_plain hscan
    | hit a => exact read?_of_segments_eq_cons_hit hscan
  · intro h
    induction segs with
    | nil => simp
    | cons seg segs ih =>
      have hrest := ih fun other after hafter => h other after (hafter.trans (List.suffix_cons _ _))
      have hseg := h seg segs List.suffix_rfl
      rw [List.flatMap_cons]
      cases seg with
      | plain c => exact (segments_of_read?_eq_none hseg).trans (congrArg _ hrest)
      | hit a => exact (segments_of_read? hseg).trans (congrArg _ hrest)

/-- A part of a text begins where the scan comes to, or within a marker. -/
theorem segments_of_isInfix {s : Text} (h : s <:+: t) (hne : s ≠ []) :
    (∃ left u, p.segments t = left ++ p.segments (s ++ u)) ∨
    ∃ left a r x u, p.segments t = left ++ .hit a :: p.segments r ∧
      p.read? (p.source a ++ r) = some (a, r) ∧ x <:+ p.source a ∧ x ≠ [] ∧ s ++ u = x ++ r := by
  obtain ⟨before, after, hsource⟩ := h
  induction t using p.scan_induction generalizing before with
  | nil => simp [hne] at hsource
  | plain c t hc ih =>
    cases before with
    | nil => exact Or.inl ⟨[], after, by rw [← hsource]; rfl⟩
    | cons d before =>
      obtain ⟨rfl, htail⟩ := List.cons.inj hsource
      rw [segments_of_read?_eq_none hc]
      rcases ih before htail with ⟨left, u, hsegs⟩ | ⟨left, a, r, x, u, hsegs, hread⟩
      · exact Or.inl ⟨.plain d :: left, u, congrArg _ hsegs⟩
      · exact Or.inr ⟨.plain d :: left, a, r, x, u, congrArg _ hsegs, hread⟩
  | hit t a r ht ih =>
    have hlater : ∀ more, more ++ s ++ after = r →
        (∃ left u, p.segments t = left ++ p.segments (s ++ u)) ∨
        ∃ left a r x u, p.segments t = left ++ .hit a :: p.segments r ∧
          p.read? (p.source a ++ r) = some (a, r) ∧ x <:+ p.source a ∧ x ≠ [] ∧ s ++ u = x ++ r := by
      intro more hmore
      rw [segments_of_read? ht]
      rcases ih more hmore with ⟨left, u, hsegs⟩ | ⟨left, b, q, x, u, hsegs, hread⟩
      · exact Or.inl ⟨.hit a :: left, u, congrArg _ hsegs⟩
      · exact Or.inr ⟨.hit a :: left, b, q, x, u, congrArg _ hsegs, hread⟩
    have htext := p.eq_append_of_read? ht
    rw [htext, List.append_assoc] at hsource
    rcases List.append_eq_append_iff.mp hsource with ⟨x, hx, hrest⟩ | ⟨more, -, hmore⟩
    · by_cases hnil : x = []
      · exact hlater [] (by simpa [hnil] using hrest)
      · exact Or.inr ⟨[], a, r, x, after, segments_of_read? ht, htext ▸ ht, ⟨before, hx.symm⟩, hnil,
          hrest⟩
    · exact hlater more (by rw [hmore, List.append_assoc])

theorem filterMap_hit?_map_plain (t : Text) :
    (t.map Segment.plain : List (Segment α)).filterMap Segment.hit? = [] := by
  simp [List.filterMap_map, Function.comp_def, Segment.hit?]

theorem flatMap_text_map_plain (written : α → Text) (t : Text) :
    (t.map Segment.plain).flatMap (Segment.text written) = t := by
  simp [List.flatMap_map, Segment.text]

theorem append_source_isInfix {front : Text} {a : α}
    (h : p.segments t = left ++ (front.map .plain ++ .hit a :: right)) :
    front ++ p.source a <:+: t := by
  have htext := p.flatMap_text_segments t
  rw [h, List.flatMap_append, List.flatMap_append, List.flatMap_cons, flatMap_text_map_plain,
    ← List.append_assoc, ← List.append_assoc, List.append_assoc (left.flatMap _)] at htext
  exact ⟨_, _, htext⟩

/-- When the scan of a text comes from that of another one segment by segment, so do its markers. -/
theorem hits_of_segments_eq_flatMap {β : Type} {q : Pattern β} {s : Text}
    {f : Segment α → List (Segment β)} {pick : α → Option β}
    (h : q.segments s = (p.segments t).flatMap f)
    (hf : ∀ seg, (f seg).filterMap Segment.hit? = (seg.hit?.bind pick).toList) :
    q.hits s = (p.hits t).filterMap pick := by
  rw [hits, hits, h, List.filterMap_flatMap, List.filterMap_filterMap,
    List.filterMap_eq_flatMap_toList]
  exact List.flatMap_congr fun seg _ => hf seg

/-- A text in which no marker can be read anywhere has none. -/
theorem hits_eq_nil (h : ∀ s, s <:+ t → p.read? s = none) : p.hits t = [] := by
  rw [hits, segments_eq_map_plain h, filterMap_hit?_map_plain]

theorem hits_append_of_forall (h : ∀ s, s <:+ t → s ≠ [] → p.read? (s ++ u) = none) :
    p.hits (t ++ u) = p.hits u := by
  rw [hits, segments_append_of_forall h, List.filterMap_append, filterMap_hit?_map_plain,
    List.nil_append, hits]

theorem substitute_append_of_forall {single : α → Text}
    (h : ∀ s, s <:+ t → s ≠ [] → p.read? (s ++ u) = none) :
    p.substitute single (t ++ u) = t ++ p.substitute single u := by
  rw [substitute, segments_append_of_forall h, List.flatMap_append, flatMap_text_map_plain,
    substitute]

theorem resolve_append_of_forall {σ ε : Type} {piece : α → σ → Except ε (Text × σ)} {state : σ}
    (h : ∀ s, s <:+ t → s ≠ [] → p.read? (s ++ u) = none) :
    p.resolve piece (t ++ u) state = (p.resolve piece u state).map (Prod.map (t ++ ·) id) := by
  induction t with
  | nil =>
    rw [List.nil_append]
    cases p.resolve piece u state <;> rfl
  | cons c t ih =>
    have hnone : p.read? (c :: (t ++ u)) = none := h (c :: t) List.suffix_rfl (by simp)
    rw [List.cons_append, resolve_of_read?_eq_none hnone,
      ih fun s hs => h s (hs.trans (List.suffix_cons c t))]
    cases p.resolve piece u state <;> rfl

section Replaced

variable {single : α → Text} {front rest before : Text} {c : Char}

theorem substitute_of_read? {a : α} {r : Text} (h : p.read? t = some (a, r)) :
    p.substitute single t = single a ++ p.substitute single r := by
  rw [substitute, segments_of_read? h, List.flatMap_cons]
  rfl

theorem substitute_of_read?_eq_none (h : p.read? (c :: t) = none) :
    p.substitute single (c :: t) = c :: p.substitute single t := by
  rw [substitute, segments_of_read?_eq_none h, List.flatMap_cons]
  rfl

@[simp] theorem substitute_nil : p.substitute single [] = [] := by
  simp [substitute]

theorem single_isInfix_substitute {a : α} (h : a ∈ p.hits t) :
    single a <:+: p.substitute single t := by
  obtain ⟨seg, hseg, hhit⟩ := List.mem_filterMap.mp h
  cases seg with
  | plain c => simp [Segment.hit?] at hhit
  | hit b =>
    obtain rfl := Option.some.inj hhit
    obtain ⟨left, right, hsplit⟩ := List.append_of_mem hseg
    rw [substitute, hsplit, List.flatMap_append, List.flatMap_cons, ← List.append_assoc]
    exact ⟨_, _, rfl⟩

theorem substitute_isSuffix (single : α → Text) (h : p.segments t = left ++ p.segments u) :
    p.substitute single u <:+ p.substitute single t := by
  rw [substitute, substitute, h, List.flatMap_append]
  exact List.suffix_append _ _

theorem single_append_isSuffix (single : α → Text) {a : α}
    (h : p.segments t = left ++ .hit a :: p.segments u) :
    single a ++ p.substitute single u <:+ p.substitute single t := by
  rw [substitute, substitute, h, List.flatMap_append, List.flatMap_cons]
  exact List.suffix_append _ _

/-- How often a character stands in a text when every marker loses it once. -/
theorem count_substitute (h : ∀ a ∈ p.hits t, (p.source a).count c = (single a).count c + 1) :
    t.count c = (p.substitute single t).count c + (p.hits t).length := by
  induction t using p.scan_induction with
  | nil => simp
  | plain d t hd ih =>
    rw [hits_of_read?_eq_none hd] at h ⊢
    rw [substitute_of_read?_eq_none hd, List.count_cons, List.count_cons, ih h]
    omega
  | hit t a r ht ih =>
    rw [hits_of_read? ht, List.forall_mem_cons] at h
    rw [hits_of_read? ht, substitute_of_read? ht, p.eq_append_of_read? ht, List.count_append,
      List.count_append, h.1, ih h.2, List.length_cons]
    omega

/-- The front of a text in which markers are replaced has stood there from the start, when no
replacement can begin in it. -/
theorem segments_of_substitute_eq_append (h : p.substitute single t = front ++ rest)
    (hfront : ∀ a ∈ p.hits t, ∀ s, s <:+ front → s ≠ [] → ¬ s <+: single a ∧ ¬ single a <+: s) :
    ∃ u, t = front ++ u ∧ p.segments t = front.map .plain ++ p.segments u ∧
      p.substitute single u = rest := by
  induction front generalizing t with
  | nil => exact ⟨t, rfl, rfl, h⟩
  | cons d front ih =>
    cases hread : p.read? t with
    | some out =>
      obtain ⟨a, r⟩ := out
      have ha : a ∈ p.hits t := by simp [hits_of_read? hread]
      obtain ⟨hshort, hlong⟩ := hfront a ha (d :: front) List.suffix_rfl (by simp)
      rw [substitute_of_read? hread] at h
      rcases List.append_eq_append_iff.mp h with ⟨more, hmore, -⟩ | ⟨more, hmore, -⟩
      · exact absurd ⟨more, hmore.symm⟩ hlong
      · exact absurd ⟨more, hmore.symm⟩ hshort
    | none =>
      cases t with
      | nil => simp at h
      | cons c t =>
        rw [substitute_of_read?_eq_none hread] at h
        obtain ⟨rfl, htail⟩ := List.cons.inj h
        rw [hits_of_read?_eq_none hread] at hfront
        obtain ⟨u, rfl, hsegs, hu⟩ :=
          ih htail fun a ha s hs => hfront a ha s (hs.trans (List.suffix_cons c front))
        refine ⟨u, rfl, ?_, hu⟩
        rw [segments_of_read?_eq_none hread, hsegs]
        rfl

/-- A character of a text in which markers are replaced has stood there from the start, or it was
written for a marker. -/
theorem segments_of_substitute_eq_cons (h : p.substitute single t = before ++ c :: rest) :
    (∃ left u, p.segments t = left ++ .plain c :: p.segments u ∧ p.read? (c :: u) = none ∧
      p.substitute single u = rest) ∨
    ∃ a ∈ p.hits t, ∃ front back u, single a = front ++ c :: back ∧
      rest = back ++ p.substitute single u := by
  induction t using p.scan_induction generalizing before with
  | nil => simp at h
  | plain d t hd ih =>
    rw [hits_of_read?_eq_none hd]
    rw [substitute_of_read?_eq_none hd] at h
    rw [segments_of_read?_eq_none hd]
    cases before with
    | nil =>
      obtain ⟨rfl, htail⟩ := List.cons.inj h
      exact Or.inl ⟨[], t, rfl, hd, htail⟩
    | cons e before =>
      rcases ih (List.cons.inj h).2 with ⟨left, u, hsegs, hread, hu⟩ | hwritten
      · exact Or.inl ⟨.plain d :: left, u, congrArg _ hsegs, hread, hu⟩
      · exact Or.inr hwritten
  | hit t a r ht ih =>
    rw [hits_of_read? ht]
    rw [substitute_of_read? ht] at h
    rw [segments_of_read? ht]
    have hlater : ∀ more, p.substitute single r = more ++ c :: rest →
        (∃ left u, .hit a :: p.segments r = left ++ .plain c :: p.segments u ∧
          p.read? (c :: u) = none ∧ p.substitute single u = rest) ∨
        ∃ b ∈ a :: p.hits r, ∃ front back u, single b = front ++ c :: back ∧
          rest = back ++ p.substitute single u := by
      intro more hmore
      rcases ih hmore with ⟨left, u, hsegs, hread, hu⟩ | ⟨b, hb, hwritten⟩
      · exact Or.inl ⟨.hit a :: left, u, congrArg _ hsegs, hread, hu⟩
      · exact Or.inr ⟨b, List.mem_cons_of_mem a hb, hwritten⟩
    rcases List.append_eq_append_iff.mp h with ⟨more, -, hmore⟩ | ⟨more, hmore, hback⟩
    · exact hlater more hmore
    · cases more with
      | nil => exact hlater [] hback.symm
      | cons e more =>
        obtain ⟨rfl, hrest⟩ := List.cons.inj hback
        exact Or.inr ⟨a, List.mem_cons_self, before, more, r, hmore, hrest⟩

end Replaced

theorem inscribe_append (written : List α → α → Text) (seen : List α) :
    inscribe written seen (left ++ right) =
      inscribe written seen left ++
        inscribe written (seen ++ left.filterMap Segment.hit?) right := by
  induction left generalizing seen with
  | nil => simp [inscribe]
  | cons seg left ih => cases seg <;> simp [inscribe, ih, Segment.hit?, List.filterMap_cons]

theorem inscribe_map_plain (written : List α → α → Text) (seen : List α) (t : Text) :
    inscribe written seen (t.map .plain) = t := by
  induction t with
  | nil => rfl
  | cons c t ih => rw [List.map_cons, inscribe, ih]

end JsfxSugar.Pattern
