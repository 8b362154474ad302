/-! Text as a list of code points, and the few ways in which a marker is read off its front. -/

namespace JsfxSugar

/-- Source text, one code point after another. -/
abbrev Text := List Char

namespace Text

/-- What follows `lead`, when the text begins with it. -/
def skip? : Text → Text → Option Text
  | [], t => some t
  | _ :: _, [] => none
  | a :: lead, c :: t => if a = c then skip? lead t else none

@[simp] theorem skip?_append (lead t : Text) : skip? lead (lead ++ t) = some t := by
  induction lead with
  | nil => rfl
  | cons a lead ih => simp [skip?, ih]

theorem skip?_eq_some_iff {lead t r : Text} : skip? lead t = some r ↔ t = lead ++ r := by
  constructor
  · intro h
    induction lead generalizing t with
    | nil => simpa [skip?] using h
    | cons a lead ih =>
      cases t with
      | nil => simp [skip?] at h
      | cons c t =>
        simp only [skip?] at h
        split at h
        · rename_i hac
          simp [hac, ih h]
        · simp at h
  · rintro rfl
    exact skip?_append lead r

/-- The longest non-empty start of the text within a class of characters, and what follows it. -/
def run? (cls : Char → Bool) (t : Text) : Option (Text × Text) :=
  match t.takeWhile cls with
  | [] => none
  | c :: run => some (c :: run, t.dropWhile cls)

theorem eq_of_run? {cls : Char → Bool} {t run r : Text} (h : run? cls t = some (run, r)) :
    run = t.takeWhile cls ∧ r = t.dropWhile cls ∧ run ≠ [] := by
  unfold run? at h
  split at h
  · simp at h
  · rename_i c cs hcs
    simp only [Option.some.injEq, Prod.mk.injEq] at h
    exact ⟨by rw [hcs, h.1], h.2.symm, by simp [← h.1]⟩

theorem eq_append_of_run? {cls : Char → Bool} {t run r : Text} (h : run? cls t = some (run, r)) :
    t = run ++ r := by
  obtain ⟨rfl, rfl, -⟩ := eq_of_run? h
  exact List.takeWhile_append_dropWhile.symm

/-- A run as `run?` finds it, when `mark` comes next, and what follows the mark. The mark is looked
for first, since most runs have none. -/
def runBefore? (cls : Char → Bool) (mark t : Text) : Option (Text × Text) :=
  (skip? mark (t.dropWhile cls)).bind fun r => (run? cls t).map fun (run, _) => (run, r)

theorem runBefore?_eq (cls : Char → Bool) (mark t : Text) :
    runBefore? cls mark t =
      (run? cls t).bind fun (run, r) => (skip? mark r).map fun r => (run, r) := by
  unfold runBefore?
  cases h : run? cls t with
  | none => cases skip? mark (t.dropWhile cls) <;> rfl
  | some run =>
    obtain ⟨-, hr, -⟩ := eq_of_run? h
    rw [← hr]
    cases hs : skip? mark run.2 <;> simp [hs]

theorem eq_append_of_runBefore? {cls : Char → Bool} {mark t run r : Text}
    (h : runBefore? cls mark t = some (run, r)) : t = run ++ (mark ++ r) := by
  simp only [runBefore?_eq, Option.bind_eq_some_iff, Option.map_eq_some_iff, Prod.mk.injEq,
    Prod.exists] at h
  obtain ⟨run, s, hrun, r, hs, rfl, rfl⟩ := h
  rw [eq_append_of_run? hrun, skip?_eq_some_iff.mp hs]

theorem dropWhile_drop {cls : Char → Bool} {t : Text} {k : Nat}
    (hk : k ≤ (t.takeWhile cls).length) : (t.drop k).dropWhile cls = t.dropWhile cls := by
  induction t generalizing k with
  | nil => simp
  | cons c t ih =>
    cases k with
    | zero => rfl
    | succ k =>
      cases hc : cls c with
      | true =>
        simp only [List.takeWhile_cons, hc, if_true, List.length_cons,
          Nat.add_le_add_iff_right] at hk
        simp [hc, ih hk]
      | false => simp [hc] at hk

theorem takeWhile_drop_ne_nil {cls : Char → Bool} {t : Text} {k : Nat}
    (hk : k < (t.takeWhile cls).length) : (t.drop k).takeWhile cls ≠ [] := by
  intro hnil
  have hdrop := dropWhile_drop (Nat.le_of_lt hk)
  have happ := @List.takeWhile_append_dropWhile _ cls (t.drop k)
  have hlen := congrArg List.length (@List.takeWhile_append_dropWhile _ cls t)
  rw [hnil, hdrop, List.nil_append] at happ
  have := congrArg List.length happ
  simp only [List.length_append, List.length_drop] at this hlen
  omega

theorem map_snd_runBefore? {cls : Char → Bool} {t : Text} (mark : Text)
    (h : t.takeWhile cls ≠ []) :
    (runBefore? cls mark t).map (·.2) = skip? mark (t.dropWhile cls) := by
  unfold runBefore? run?
  split
  · contradiction
  · cases skip? mark (t.dropWhile cls) <;> rfl

/-- Wherever in a run one begins to read, the same follows. -/
theorem map_snd_runBefore?_drop {cls : Char → Bool} {c : Char} {t : Text} {k : Nat} (mark : Text)
    (hc : cls c = true) (hk : k < (t.takeWhile cls).length) :
    (runBefore? cls mark (t.drop k)).map (·.2) = (runBefore? cls mark (c :: t)).map (·.2) := by
  rw [map_snd_runBefore? mark (takeWhile_drop_ne_nil hk), dropWhile_drop (Nat.le_of_lt hk),
    map_snd_runBefore? mark (by simp [hc])]
  simp [hc]

/-- What a reader leaves over hangs only on what it is given to read. -/
theorem map_snd_bind_congr {α β : Type} {x y : Option (α × Text)}
    {f : α × Text → Option (β × Text)} (h : x.map (·.2) = y.map (·.2))
    (hf : ∀ a b r, (f (a, r)).map (·.2) = (f (b, r)).map (·.2)) :
    (x.bind f).map (·.2) = (y.bind f).map (·.2) := by
  cases x with
  | none =>
    cases y with
    | none => rfl
    | some _ => simp at h
  | some first =>
    cases y with
    | none => simp at h
    | some second =>
      obtain ⟨a, r⟩ := first
      obtain ⟨b, s⟩ := second
      obtain rfl : r = s := by simpa using h
      exact hf a b r

/-- The longest start of the text within a class of characters, possibly none, when `mark` comes
next, and what follows the mark. -/
def spanBefore? (cls : Char → Bool) (mark t : Text) : Option (Text × Text) :=
  (skip? mark (t.dropWhile cls)).map fun r => (t.takeWhile cls, r)

theorem eq_append_of_spanBefore? {cls : Char → Bool} {mark t span r : Text}
    (h : spanBefore? cls mark t = some (span, r)) : t = span ++ (mark ++ r) := by
  simp only [spanBefore?, Option.map_eq_some_iff, Prod.mk.injEq] at h
  obtain ⟨s, hs, rfl, rfl⟩ := h
  rw [← skip?_eq_some_iff.mp hs, List.takeWhile_append_dropWhile]

theorem eq_takeWhile_of_spanBefore? {cls : Char → Bool} {mark t span r : Text}
    (h : spanBefore? cls mark t = some (span, r)) : span = t.takeWhile cls := by
  simp only [spanBefore?, Option.map_eq_some_iff, Prod.mk.injEq] at h
  obtain ⟨-, -, rfl, -⟩ := h
  rfl

theorem map_snd_spanBefore? (cls : Char → Bool) (mark t : Text) :
    (spanBefore? cls mark t).map (·.2) = skip? mark (t.dropWhile cls) := by
  cases h : skip? mark (t.dropWhile cls) <;> simp [spanBefore?, h]

/-- The text before the first `stop`, and what follows that. -/
def upTo? (stop : Char) (t : Text) : Option (Text × Text) :=
  spanBefore? (· ≠ stop) [stop] t

theorem map_snd_upTo? (stop : Char) (t : Text) :
    (upTo? stop t).map (·.2) = skip? [stop] (t.dropWhile (· ≠ stop)) :=
  map_snd_spanBefore? _ _ t

theorem upTo?_eq_none_iff {stop : Char} {t : Text} : upTo? stop t = none ↔ stop ∉ t := by
  induction t with
  | nil => simp [upTo?, spanBefore?, skip?]
  | cons c t ih =>
    by_cases h : c = stop
    · simp [upTo?, spanBefore?, skip?, h]
    · simpa [upTo?, spanBefore?, h, Ne.symm h] using ih

/-- The pieces between the occurrences of a separator: one more than it occurs. -/
def pieces (sep : Char) : Text → List Text
  | [] => [[]]
  | c :: t =>
    if c = sep then [] :: pieces sep t
    else match pieces sep t with
      | [] => [[c]]
      | piece :: rest => (c :: piece) :: rest

/-- The texts one after the other, with `sep` between neighbours. -/
def join (sep : Text) (texts : List Text) : Text :=
  (texts.intersperse sep).flatten

/-- The text as a comment of the generated program. -/
def comment (t : Text) : Text :=
  ['/', '*'] ++ t ++ ['*', '/']

/-- The length of the text in bytes, when it is stored. -/
def byteLength (t : Text) : Nat :=
  t.foldr (fun c length => c.utf8Size + length) 0

end Text

end JsfxSugar
