import JsfxSugar.Text.Basic

/-! Markers inside plain text: a scan from left to right finds them without overlap, and
resolving them puts other text in their place. -/

namespace JsfxSugar

/-- A kind of marker: how one is read off the front of a text, and how it stands there. Where none
begins, `quiet` tells how many of the next characters cannot begin one either, so that a scan need
not look at each of them. -/
structure Pattern (α : Type) where
  read? : Text → Option (α × Text)
  source : α → Text
  quiet : Text → Nat := fun _ => 0
  source_ne_nil : ∀ a, source a ≠ []
  eq_append_of_read? : ∀ {t a r}, read? t = some (a, r) → t = source a ++ r
  read?_drop_eq_none : ∀ {c t k}, read? (c :: t) = none → k < quiet (c :: t) →
    read? (t.drop k) = none := by simp

/-- One step of a scan: a character that begins no marker, or a marker. -/
inductive Segment (α : Type) where
  | plain (c : Char)
  | hit (a : α)
  deriving DecidableEq, Repr

namespace Segment

variable {α : Type}

/-- The marker of a segment that is one. -/
def hit? : Segment α → Option α
  | plain _ => none
  | hit a => some a

/-- The text of a segment, when `written` gives that of its marker. -/
def text (written : α → Text) : Segment α → Text
  | plain c => [c]
  | hit a => written a

end Segment

namespace Pattern

variable {α σ ε : Type} {p : Pattern α} {t r : Text} {a : α} {c : Char}

theorem length_lt_of_read? (h : p.read? t = some (a, r)) : r.length < t.length := by
  have hne := List.length_pos_iff.mpr (p.source_ne_nil a)
  have ht := congrArg List.length (p.eq_append_of_read? h)
  simp only [List.length_append] at ht
  omega

@[simp] theorem read?_nil (p : Pattern α) : p.read? [] = none := by
  cases h : p.read? [] with
  | none => rfl
  | some ar => exact absurd (length_lt_of_read? h) (by simp)

/-- Recursion along the scan of a text. -/
theorem scan_induction {motive : Text → Prop} (p : Pattern α) (nil : motive [])
    (plain : ∀ c t, p.read? (c :: t) = none → motive t → motive (c :: t))
    (hit : ∀ t a r, p.read? t = some (a, r) → motive r → motive t) (t : Text) : motive t := by
  induction hn : t.length using Nat.strongRecOn generalizing t with
  | ind n ih =>
    subst hn
    cases h : p.read? t with
    | some ar => exact hit t ar.1 ar.2 h (ih _ (length_lt_of_read? h) _ rfl)
    | none =>
      cases t with
      | nil => exact nil
      | cons c t => exact plain c t h (ih _ (Nat.lt_succ_self _) _ rfl)

/-- Scans on, after the segments already found (the last one first). The next `n` characters begin
no marker. -/
def scan (p : Pattern α) (n : Nat) (found : List (Segment α)) : Text → List (Segment α)
  | [] => found.reverse
  | c :: t =>
    match n with
    | n + 1 => p.scan n (.plain c :: found) t
    | 0 =>
      match h : p.read? (c :: t) with
      | some (a, r) =>
        have : r.length < t.length + 1 := length_lt_of_read? h
        p.scan 0 (.hit a :: found) r
      | none => p.scan (p.quiet (c :: t)) (.plain c :: found) t
termination_by t => t.length

/-- The text cut into markers and the characters between them. A marker begins at the first place
where one can be read, and the next is looked for where it ends. -/
def segments (p : Pattern α) (t : Text) : List (Segment α) :=
  p.scan 0 [] t

theorem scan_nil (p : Pattern α) (n : Nat) (found : List (Segment α)) :
    p.scan n found [] = found.reverse := by
  rw [scan]

theorem scan_of_read? (h : p.read? t = some (a, r)) (found : List (Segment α)) :
    p.scan 0 found t = p.scan 0 (.hit a :: found) r := by
  cases t with
  | nil => simp at h
  | cons c t =>
    rw [scan]
    split <;> simp_all

/-- Looking for markers where there are none changes nothing. -/
theorem scan_eq_scan_zero (n : Nat) (found : List (Segment α))
    (h : ∀ k < n, p.read? (t.drop k) = none) : p.scan n found t = p.scan 0 found t := by
  induction t generalizing n found with
  | nil => rw [scan_nil, scan_nil]
  | cons c t ih =>
    cases n with
    | zero => rfl
    | succ n =>
      have hnone : p.read? (c :: t) = none := h 0 n.succ_pos
      rw [scan, ih n _ fun k hk => h (k + 1) (Nat.succ_lt_succ hk), scan]
      split
      · simp_all
      · exact (ih _ _ fun k hk => p.read?_drop_eq_none hnone hk).symm

theorem scan_of_read?_eq_none (h : p.read? (c :: t) = none) (found : List (Segment α)) :
    p.scan 0 found (c :: t) = p.scan 0 (.plain c :: found) t := by
  rw [← scan_eq_scan_zero 1 found (by simpa using h), scan]

theorem scan_append (p : Pattern α) (found before : List (Segment α)) (t : Text) :
    p.scan 0 (found ++ before) t = before.reverse ++ p.scan 0 found t := by
  induction t using p.scan_induction generalizing found with
  | nil => simp [scan_nil]
  | plain c t h ih => simp only [scan_of_read?_eq_none h, ← ih, List.cons_append]
  | hit t a r h ih => simp only [scan_of_read? h, ← ih, List.cons_append]

@[simp] theorem segments_nil (p : Pattern α) : p.segments [] = [] :=
  scan_nil p 0 []

theorem segments_of_read? (h : p.read? t = some (a, r)) :
    p.segments t = .hit a :: p.segments r := by
  rw [segments, scan_of_read? h]
  exact scan_append p [] [.hit a] r

theorem segments_of_read?_eq_none (h : p.read? (c :: t) = none) :
    p.segments (c :: t) = .plain c :: p.segments t := by
  rw [segments, scan_of_read?_eq_none h]
  exact scan_append p [] [.plain c] t

/-- A scan loses nothing. -/
theorem flatMap_text_segments (p : Pattern α) (t : Text) :
    (p.segments t).flatMap (Segment.text p.source) = t := by
  induction t using p.scan_induction with
  | nil => simp
  | plain c t h ih => simp [segments_of_read?_eq_none h, Segment.text, ih]
  | hit t a r h ih =>
    rw [segments_of_read? h, List.flatMap_cons, ih, Segment.text, ← p.eq_append_of_read? h]

/-- The markers of a text, in order. -/
def hits (p : Pattern α) (t : Text) : List α :=
  (p.segments t).filterMap Segment.hit?

/-- The text with every marker replaced. -/
def substitute (p : Pattern α) (piece : α → Text) (t : Text) : Text :=
  (p.segments t).flatMap (Segment.text piece)

/-- Writes segments after the text already written (its last character first), the markers as
`piece` renders them, and hands the state on. -/
def transcribe (piece : α → σ → Except ε (Text × σ)) (written : Text) :
    List (Segment α) → σ → Except ε (Text × σ)
  | [], s => .ok (written.reverse, s)
  | .plain c :: rest, s => transcribe piece (c :: written) rest s
  | .hit a :: rest, s =>
    match piece a s with
    | .ok (text, s) => transcribe piece (text.reverseAux written) rest s
    | .error e => .error e

/-- The text with its markers resolved from left to right under a running state; the first failure
ends it. -/
def resolve (p : Pattern α) (piece : α → σ → Except ε (Text × σ)) (t : Text) (s : σ) :
    Except ε (Text × σ) :=
  transcribe piece [] (p.segments t) s

theorem transcribe_eq (piece : α → σ → Except ε (Text × σ)) (written : Text)
    (segs : List (Segment α)) (s : σ) :
    transcribe piece written segs s =
      (transcribe piece [] segs s).map (Prod.map (written.reverse ++ ·) id) := by
  induction segs generalizing written s with
  | nil => simp [transcribe, Except.map]
  | cons seg segs ih =>
    cases seg with
    | plain c =>
      rw [transcribe, transcribe, ih, ih [c]]
      cases transcribe piece [] segs s <;> simp [Except.map, Prod.map]
    | hit a =>
      simp only [transcribe]
      cases piece a s with
      | error e => simp [Except.map]
      | ok out =>
        simp only
        rw [ih, ih (out.1.reverseAux [])]
        cases transcribe piece [] segs out.2 <;>
          simp [Except.map, Prod.map, List.reverseAux_eq]

@[simp] theorem resolve_nil (p : Pattern α) (piece : α → σ → Except ε (Text × σ)) (s : σ) :
    p.resolve piece [] s = .ok ([], s) := by
  simp [resolve, transcribe]

theorem resolve_of_read?_eq_none (h : p.read? (c :: t) = none)
    (piece : α → σ → Except ε (Text × σ)) (s : σ) :
    p.resolve piece (c :: t) s = (p.resolve piece t s).map (Prod.map (c :: ·) id) := by
  rw [resolve, segments_of_read?_eq_none h, transcribe, transcribe_eq]
  rfl

theorem resolve_of_read? (h : p.read? t = some (a, r)) (piece : α → σ → Except ε (Text × σ))
    (s : σ) :
    p.resolve piece t s =
      match piece a s with
      | .ok (text, s) => (p.resolve piece r s).map (Prod.map (text ++ ·) id)
      | .error e => .error e := by
  rw [resolve, segments_of_read? h, transcribe]
  cases piece a s with
  | error e => rfl
  | ok out =>
    simp only
    rw [transcribe_eq]
    simp [resolve, List.reverseAux_eq]

end Pattern

end JsfxSugar
