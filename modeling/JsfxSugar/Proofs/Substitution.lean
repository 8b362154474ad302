import JsfxSugar.Pattern

/-! What resolving the markers of a text comes to, told from the markers alone: the text that is
written and the state in which the run ends. -/

namespace JsfxSugar

/-- Two computations in a row succeed when both do. -/
theorem bind_eq_ok_iff {α β ε : Type} {x : Except ε α} {f : α → Except ε β} {b : β} :
    x >>= f = .ok b ↔ ∃ a, x = .ok a ∧ f a = .ok b := by
  cases x with
  | error e => simp [bind, Except.bind]
  | ok a => simp [bind, Except.bind]

/-- Two computations in a row fail when the first does, or else the second. -/
theorem bind_eq_error_iff {α β ε : Type} {x : Except ε α} {f : α → Except ε β} {e : ε} :
    x >>= f = .error e ↔ x = .error e ∨ ∃ a, x = .ok a ∧ f a = .error e := by
  cases x with
  | error e' => simp [bind, Except.bind]
  | ok a => simp [bind, Except.bind]

/-- A run that fails stops at the first step that fails. -/
theorem foldlM_eq_error_iff {α σ ε : Type} {f : σ → α → Except ε σ} {s : σ} {xs : List α} {e : ε} :
    xs.foldlM f s = .error e ↔
      ∃ left x right state, xs = left ++ x :: right ∧ left.foldlM f s = .ok state ∧
        f state x = .error e := by
  constructor
  · intro h
    induction xs generalizing s with
    | nil => simp [pure, Except.pure] at h
    | cons x xs ih =>
      rw [List.foldlM_cons] at h
      rcases bind_eq_error_iff.mp h with hx | ⟨next, hnext, hrest⟩
      · exact ⟨[], x, xs, s, rfl, rfl, hx⟩
      · obtain ⟨left, y, right, state, rfl, hleft, hy⟩ := ih hrest
        refine ⟨x :: left, y, right, state, rfl, ?_, hy⟩
        rw [List.foldlM_cons]
        exact bind_eq_ok_iff.mpr ⟨next, hnext, hleft⟩
  · rintro ⟨left, x, right, state, rfl, hleft, hx⟩
    have hrest : (x :: right).foldlM f state = .error e := by
      rw [List.foldlM_cons]
      exact bind_eq_error_iff.mpr (Or.inl hx)
    rw [List.foldlM_append]
    exact bind_eq_error_iff.mpr (Or.inr ⟨state, hleft, hrest⟩)

theorem exists_eq_ok_of_isSome {α ε : Type} {x : Except ε α} (h : x.toOption.isSome = true) :
    ∃ a, x = .ok a := by
  cases x with
  | error e => simp [Except.toOption] at h
  | ok a => exact ⟨a, rfl⟩

namespace Pattern

variable {α σ ε : Type} {p : Pattern α} {t r u : Text} {a : α} {c : Char}
  {piece : α → σ → Except ε (Text × σ)} {s s' : σ}

@[simp] theorem hits_nil (p : Pattern α) : p.hits [] = [] := by
  simp [hits]

theorem hits_of_read? (h : p.read? t = some (a, r)) : p.hits t = a :: p.hits r := by
  simp [hits, segments_of_read? h, Segment.hit?]

theorem hits_of_read?_eq_none (h : p.read? (c :: t) = none) : p.hits (c :: t) = p.hits t := by
  rw [hits, segments_of_read?_eq_none h]
  rfl

/-- What holds of every marker that can be read holds of the markers of a text. -/
theorem forall_mem_hits {P : α → Prop} (h : ∀ {t a r}, p.read? t = some (a, r) → P a) :
    ∀ a ∈ p.hits t, P a := by
  induction t using p.scan_induction with
  | nil => simp
  | plain c t hc ih => rwa [hits_of_read?_eq_none hc]
  | hit t a r ht ih =>
    rw [hits_of_read? ht]
    exact List.forall_mem_cons.mpr ⟨h ht, ih⟩

theorem source_isInfix_of_mem_hits (h : a ∈ p.hits t) : p.source a <:+: t := by
  obtain ⟨seg, hseg, hhit⟩ := List.mem_filterMap.mp h
  cases seg with
  | plain c => simp [Segment.hit?] at hhit
  | hit b =>
    obtain rfl := Option.some.inj hhit
    obtain ⟨left, right, hsplit⟩ := List.append_of_mem hseg
    have htext := p.flatMap_text_segments t
    rw [hsplit, List.flatMap_append, List.flatMap_cons, ← List.append_assoc] at htext
    exact ⟨_, _, htext⟩

/-- A text without a character that every marker holds has no markers. -/
theorem hits_eq_nil_of_not_mem (h : c ∉ t) (hsource : ∀ a, c ∈ p.source a) : p.hits t = [] := by
  rw [List.eq_nil_iff_forall_not_mem]
  intro a ha
  exact h ((source_isInfix_of_mem_hits ha).subset (hsource a))

/-- The text of segments where what is written for a marker may depend on the markers before it;
those in `seen` come first. -/
def inscribe (written : List α → α → Text) : List α → List (Segment α) → Text
  | _, [] => []
  | seen, .plain c :: rest => c :: inscribe written seen rest
  | seen, .hit a :: rest => written seen a ++ inscribe written (seen ++ [a]) rest

/-- The text with every marker replaced by what is written for it after the markers before it. -/
def substituteAfter (p : Pattern α) (written : List α → α → Text) (seen : List α) (t : Text) :
    Text :=
  inscribe written seen (p.segments t)

theorem substituteAfter_of_read? (h : p.read? t = some (a, r)) (written : List α → α → Text)
    (seen : List α) : p.substituteAfter written seen t =
      written seen a ++ p.substituteAfter written (seen ++ [a]) r := by
  rw [substituteAfter, segments_of_read? h, inscribe, substituteAfter]

theorem substituteAfter_of_read?_eq_none (h : p.read? (c :: t) = none)
    (written : List α → α → Text) (seen : List α) :
    p.substituteAfter written seen (c :: t) = c :: p.substituteAfter written seen t := by
  rw [substituteAfter, segments_of_read?_eq_none h, inscribe, substituteAfter]

theorem substituteAfter_congr {written written' : List α → α → Text}
    (h : ∀ seen, ∀ a ∈ p.hits t, written seen a = written' seen a) (seen : List α) :
    p.substituteAfter written seen t = p.substituteAfter written' seen t := by
  induction t using p.scan_induction generalizing seen with
  | nil => simp [substituteAfter, inscribe]
  | plain c t hc ih =>
    rw [hits_of_read?_eq_none hc] at h
    rw [substituteAfter_of_read?_eq_none hc, substituteAfter_of_read?_eq_none hc, ih h]
  | hit t a r ht ih =>
    rw [hits_of_read? ht] at h
    have hlater := ih (fun seen b hb => h seen b (List.mem_cons_of_mem a hb)) (seen ++ [a])
    rw [substituteAfter_of_read? ht, substituteAfter_of_read? ht, h seen a List.mem_cons_self,
      hlater]

theorem map_text_eq_ok {f : Text → Text} {x : Except ε (Text × σ)} :
    x.map (Prod.map f id) = .ok (u, s') ↔ ∃ v, x = .ok (v, s') ∧ u = f v := by
  cases x with
  | error e => simp [Except.map]
  | ok out =>
    obtain ⟨v, s⟩ := out
    simp only [Except.map, Prod.map, id, Except.ok.injEq, Prod.mk.injEq]
    constructor
    · rintro ⟨rfl, rfl⟩
      exact ⟨v, ⟨rfl, rfl⟩, rfl⟩
    · rintro ⟨w, ⟨rfl, rfl⟩, rfl⟩
      exact ⟨rfl, rfl⟩

theorem resolve_eq_ok_of_read?_eq_none (h : p.read? (c :: t) = none) :
    p.resolve piece (c :: t) s = .ok (u, s') ↔
      ∃ v, p.resolve piece t s = .ok (v, s') ∧ u = c :: v := by
  rw [resolve_of_read?_eq_none h, map_text_eq_ok]

theorem resolve_eq_ok_of_read? (h : p.read? t = some (a, r)) :
    p.resolve piece t s = .ok (u, s') ↔
      ∃ text s₁, piece a s = .ok (text, s₁) ∧
        ∃ v, p.resolve piece r s₁ = .ok (v, s') ∧ u = text ++ v := by
  rw [resolve_of_read? h]
  cases piece a s with
  | error e => simp
  | ok first =>
    rw [map_text_eq_ok]
    constructor
    · exact fun hv => ⟨first.1, first.2, rfl, hv⟩
    · rintro ⟨text, s₁, heq, hv⟩
      cases heq
      exact hv

/-- A text without markers is all plain characters. -/
theorem segments_of_hits_eq_nil (h : p.hits t = []) : p.segments t = t.map .plain := by
  induction t using p.scan_induction with
  | nil => simp
  | plain c t hc ih =>
    rw [hits_of_read?_eq_none hc] at h
    rw [segments_of_read?_eq_none hc, ih h, List.map_cons]
  | hit t a r ht ih => simp [hits_of_read? ht] at h

theorem read?_eq_none_of_hits_eq_nil (h : p.hits t = []) (hr : r <:+ t) : p.read? r = none := by
  have hnone : p.read? t = none := by
    cases hread : p.read? t with
    | none => rfl
    | some out => simp [hits_of_read? hread] at h
  induction t with
  | nil => rwa [List.suffix_nil.mp hr]
  | cons c t ih =>
    rw [hits_of_read?_eq_none hnone] at h
    rcases List.suffix_cons_iff.mp hr with rfl | hr
    · exact hnone
    · refine ih h hr ?_
      cases hread : p.read? t with
      | none => rfl
      | some out => simp [hits_of_read? hread] at h

/-- A text without markers is what it is when markers are replaced. -/
theorem substitute_of_hits_eq_nil (h : p.hits t = []) (single : α → Text) :
    p.substitute single t = t := by
  rw [substitute, segments_of_hits_eq_nil h, List.flatMap_map]
  simp [Segment.text]

/-- A text without markers has nothing to resolve. -/
theorem resolve_of_hits_eq_nil (h : p.hits t = []) (piece : α → σ → Except ε (Text × σ)) (s : σ) :
    p.resolve piece t s = .ok (t, s) := by
  induction t using p.scan_induction with
  | nil => exact resolve_nil p piece s
  | plain c t hc ih =>
    rw [hits_of_read?_eq_none hc] at h
    rw [resolve_of_read?_eq_none hc, ih h]
    rfl
  | hit t a r ht ih => simp [hits_of_read? ht] at h

/-- A run that succeeds keeps what each of its steps keeps. -/
theorem keeps_of_resolve_eq_ok (Inv : List α → σ → Prop)
    (step : ∀ {seen s a text s'}, Inv seen s → piece a s = .ok (text, s') → Inv (seen ++ [a]) s')
    (seen : List α) (hs : Inv seen s) (h : p.resolve piece t s = .ok (u, s')) :
    Inv (seen ++ p.hits t) s' := by
  induction t using p.scan_induction generalizing seen s u with
  | nil =>
    simp only [resolve_nil, Except.ok.injEq, Prod.mk.injEq] at h
    obtain ⟨rfl, rfl⟩ := h
    simpa using hs
  | plain c t hc ih =>
    obtain ⟨v, hv, -⟩ := (resolve_eq_ok_of_read?_eq_none hc).mp h
    rw [hits_of_read?_eq_none hc]
    exact ih seen hs hv
  | hit t a r ht ih =>
    obtain ⟨text, s₁, hpiece, v, hv, -⟩ := (resolve_eq_ok_of_read? ht).mp h
    rw [hits_of_read? ht]
    simpa using ih (seen ++ [a]) (step hs hpiece) hv

/-- What no marker changes, a run does not change. -/
theorem state_of_resolve_eq_ok {β : Type} {f : σ → β}
    (step : ∀ {a s text s'}, piece a s = .ok (text, s') → f s' = f s)
    (h : p.resolve piece t s = .ok (u, s')) : f s' = f s :=
  keeps_of_resolve_eq_ok (fun _ after => f after = f s) (fun hseen hok => (step hok).trans hseen)
    [] rfl h

/-- A run that succeeds keeps what each of its steps keeps, and writes what each step writes. -/
theorem resolve_eq_ok (Inv : List α → σ → Prop) (written : List α → α → Text)
    (step : ∀ {seen s a text s'}, Inv seen s → piece a s = .ok (text, s') →
      text = written seen a ∧ Inv (seen ++ [a]) s')
    {seen : List α} (hs : Inv seen s) (h : p.resolve piece t s = .ok (u, s')) :
    u = p.substituteAfter written seen t ∧ Inv (seen ++ p.hits t) s' := by
  induction t using p.scan_induction generalizing seen s u with
  | nil =>
    simp only [resolve_nil, Except.ok.injEq, Prod.mk.injEq] at h
    obtain ⟨rfl, rfl⟩ := h
    simpa [substituteAfter, inscribe] using hs
  | plain c t hc ih =>
    obtain ⟨v, hv, rfl⟩ := (resolve_eq_ok_of_read?_eq_none hc).mp h
    obtain ⟨rfl, hInv⟩ := ih hs hv
    rw [substituteAfter_of_read?_eq_none hc, hits_of_read?_eq_none hc]
    exact ⟨rfl, hInv⟩
  | hit t a r ht ih =>
    obtain ⟨text, s₁, hpiece, v, hv, rfl⟩ := (resolve_eq_ok_of_read? ht).mp h
    obtain ⟨rfl, hnext⟩ := step hs hpiece
    obtain ⟨rfl, hInv⟩ := ih hnext hv
    rw [substituteAfter_of_read? ht, hits_of_read? ht]
    exact ⟨rfl, by simpa using hInv⟩

/-- A run that fails stops at the first marker whose step fails, in a state that the steps before it
lead to. -/
theorem resolve_eq_error (Inv : List α → σ → Prop)
    (step : ∀ {seen s a text s'}, Inv seen s → piece a s = .ok (text, s') → Inv (seen ++ [a]) s')
    (seen : List α) {e : ε} (hs : Inv seen s) (h : p.resolve piece t s = .error e) :
    ∃ before a after state, p.hits t = before ++ a :: after ∧ Inv (seen ++ before) state ∧
      piece a state = .error e := by
  induction t using p.scan_induction generalizing seen s with
  | nil => simp at h
  | plain c t hc ih =>
    rw [resolve_of_read?_eq_none hc] at h
    rw [hits_of_read?_eq_none hc]
    cases hrest : p.resolve piece t s with
    | ok out => simp [hrest, Except.map] at h
    | error fault =>
      obtain rfl : fault = e := by simpa [hrest, Except.map] using h
      exact ih seen hs hrest
  | hit t a r ht ih =>
    rw [resolve_of_read? ht] at h
    rw [hits_of_read? ht]
    cases hpiece : piece a s with
    | error fault =>
      obtain rfl : fault = e := by simpa [hpiece] using h
      exact ⟨[], a, p.hits r, s, rfl, by simpa using hs, hpiece⟩
    | ok out =>
      simp only [hpiece] at h
      cases hrest : p.resolve piece r out.2 with
      | ok rest => simp [hrest, Except.map] at h
      | error fault =>
        obtain rfl : fault = e := by simpa [hrest, Except.map] using h
        obtain ⟨before, b, after, state, hhits, hstate, hfault⟩ :=
          ih (seen ++ [a]) (step hs hpiece) hrest
        refine ⟨a :: before, b, after, state, by rw [hhits, List.cons_append], ?_, hfault⟩
        simpa using hstate

/-- A run succeeds exactly when its markers are fine, where the first markers of a list that is fine
are fine as well, and a step succeeds exactly when its marker leaves them so. -/
theorem exists_resolve_eq_ok_iff (Inv : List α → σ → Prop) (Fine : List α → Prop)
    (shorter : ∀ {before later}, before <+: later → Fine later → Fine before)
    (step : ∀ {seen s a}, Inv seen s → Fine seen →
      ((∃ text s', piece a s = .ok (text, s')) ↔ Fine (seen ++ [a])))
    (keep : ∀ {seen s a text s'}, Inv seen s → Fine (seen ++ [a]) → piece a s = .ok (text, s') →
      Inv (seen ++ [a]) s')
    (hs : Inv [] s) (hnil : Fine []) :
    (∃ u s', p.resolve piece t s = .ok (u, s')) ↔ Fine (p.hits t) := by
  -- Along the run the state is as it should be and the markers so far are fine.
  have both : ∀ {seen s a text s'}, Inv seen s ∧ Fine seen → piece a s = .ok (text, s') →
      Inv (seen ++ [a]) s' ∧ Fine (seen ++ [a]) := by
    rintro seen s a text s' ⟨hinv, hseen⟩ hok
    have hfine := (step hinv hseen).mp ⟨text, s', hok⟩
    exact ⟨keep hinv hfine hok, hfine⟩
  constructor
  · rintro ⟨u, s', hok⟩
    exact (keeps_of_resolve_eq_ok (fun seen s => Inv seen s ∧ Fine seen) both [] ⟨hs, hnil⟩
      hok).2
  · intro hfine
    cases hrun : p.resolve piece t s with
    | ok out => exact ⟨out.1, out.2, rfl⟩
    | error e =>
      obtain ⟨before, a, after, state, hhits, ⟨hinv, hbefore⟩, herror⟩ :=
        resolve_eq_error (fun seen s => Inv seen s ∧ Fine seen) both [] ⟨hs, hnil⟩ hrun
      have hfirst : before ++ [a] <+: p.hits t := ⟨after, by simp [hhits]⟩
      obtain ⟨text, s', hok⟩ := (step hinv hbefore).mpr (shorter hfirst hfine)
      rw [herror] at hok
      cases hok

/-- Where the markers before it make no difference, each marker is replaced on its own. -/
theorem substituteAfter_eq_substitute {written : List α → α → Text} {single : α → Text}
    {seen : List α}
    (h : ∀ before a, before ++ [a] <+: seen ++ p.hits t → written before a = single a) :
    p.substituteAfter written seen t = p.substitute single t := by
  induction t using p.scan_induction generalizing seen with
  | nil => simp [substituteAfter, substitute, inscribe]
  | plain c t hc ih =>
    rw [hits_of_read?_eq_none hc] at h
    rw [substituteAfter_of_read?_eq_none hc, ih h, substitute, substitute,
      segments_of_read?_eq_none hc, List.flatMap_cons]
    rfl
  | hit t a r ht ih =>
    rw [hits_of_read? ht] at h
    have hhere := h seen a (by simp)
    rw [substituteAfter_of_read? ht, ih (by simpa using h), hhere, substitute, substitute,
      segments_of_read? ht, List.flatMap_cons]
    rfl

/-- Where no marker changes the state, a run that succeeds replaces each marker on its own. -/
theorem resolve_eq_ok_of_forall_eq {P : α → Prop} {single : α → Text}
    (step : ∀ {a text s'}, piece a s = .ok (text, s') → P a ∧ text = single a ∧ s' = s)
    (h : p.resolve piece t s = .ok (u, s')) :
    (∀ a ∈ p.hits t, P a) ∧ u = p.substitute single t ∧ s' = s := by
  have hstart : (∀ a ∈ ([] : List α), P a) ∧ s = s := ⟨List.forall_mem_nil P, rfl⟩
  obtain ⟨rfl, hseen, rfl⟩ := resolve_eq_ok
    (fun seen after => (∀ a ∈ seen, P a) ∧ after = s) (fun _ => single)
    (fun {seen s₁ a text s₂} hseen hok => by
      obtain ⟨hall, rfl⟩ := hseen
      obtain ⟨ha, htext, hstate⟩ := step hok
      refine ⟨htext, ?_, hstate⟩
      exact List.forall_mem_append.mpr ⟨hall, List.forall_mem_singleton.mpr ha⟩)
    hstart h
  exact ⟨hseen, substituteAfter_eq_substitute fun _ _ _ => rfl, rfl⟩

end Pattern

end JsfxSugar
