import JsfxSugar.Proofs.Range.Placeholders
import JsfxSugar.Proofs.Range.Rescan
import Mathlib.Data.List.Forall2
import Mathlib.Data.List.Flatten

/-! Blocks inside one another, whose loop names have one character each. The innermost block is
unrolled first, and the names of those around it are replaced in what it has come to. All the same
the copies stand in the order of nested loops, in which the value of the innermost name changes with
each copy. -/

namespace JsfxSugar

namespace Text

variable {cls : Char → Bool} {t r new : Text} {c : Char}

theorem byteLength_append (t r : Text) : (t ++ r).byteLength = t.byteLength + r.byteLength := by
  induction t with
  | nil => exact (Nat.zero_add _).symm
  | cons c t ih => exact (congrArg (c.utf8Size + ·) ih).trans (Nat.add_assoc _ _ _).symm

theorem eq_nil_of_byteLength_eq_zero (h : t.byteLength = 0) : t = [] := by
  cases t with
  | nil => rfl
  | cons c t =>
    have hlength : c.utf8Size + byteLength t = 0 := h
    have hpos := c.utf8Size_pos
    omega

/-- A single character is replaced wherever it stands. -/
theorem replaceAll_singleton (t : Text) (c : Char) (new : Text) :
    t.replaceAll [c] new = t.flatMap fun d => if d = c then new else [d] := by
  induction t with
  | nil => simp [replaceAll]
  | cons d t ih =>
    rw [List.flatMap_cons, ← ih]
    by_cases hd : d = c
    · rw [if_pos hd, hd, ← replaceAll_append (by simp)]
      rfl
    · have hfront : ¬ [c] <+: d :: t := fun h => hd (List.cons_prefix_cons.mp h).1.symm
      rw [if_neg hd, replaceAll_cons (by simp) hfront]
      rfl

theorem startsOutside_flatMap {α : Type} {f : α → Text} {vs : List α}
    (h : ∀ v ∈ vs, StartsOutside cls (f v)) : StartsOutside cls (vs.flatMap f) := by
  induction vs with
  | nil => simp
  | cons v vs ih =>
    obtain ⟨hv, hvs⟩ := List.forall_mem_cons.mp h
    rw [List.flatMap_cons]
    by_cases hnil : f v = []
    · rw [hnil]
      exact ih hvs
    · exact (startsOutside_append hnil).mpr hv

theorem startsOutside_blank_ofInt (z : Int) : StartsOutside isBlank (ofInt z) := by
  intro c hc
  rcases minus_or_isDecimal_of_mem_ofInt (List.mem_of_head? hc) with rfl | hdecimal
  · decide
  · exact isBlank_eq_false_of_isAlphanum (by simp [Char.isAlphanum, Range.isDigit_iff.mpr hdecimal])

end Text

namespace Range

namespace Header

variable {header : Header} {t : Text} {c : Char} {v : Int}

/-- A loop value lies between the bounds. -/
def Within (header : Header) (v : Int) : Prop :=
  min header.start header.stop ≤ v ∧ v ≤ max header.start header.stop

/-- The loop comes to the first of two values before it comes to the second. -/
def Earlier (header : Header) (v w : Int) : Prop :=
  if header.start ≤ header.stop then v < w else w < v

theorem mem_values_iff : v ∈ header.values ↔ header.Within v := by
  rw [values_eq, List.mem_map, Within]
  constructor
  · rintro ⟨i, hi, rfl⟩
    rw [List.mem_range] at hi
    split <;> omega
  · rintro ⟨hlow, hhigh⟩
    refine ⟨(v - header.start).natAbs, List.mem_range.mpr (by omega), ?_⟩
    split <;> omega

theorem pairwise_values (header : Header) : header.values.Pairwise header.Earlier := by
  rw [values_eq, List.pairwise_map]
  refine List.pairwise_lt_range.imp fun hlt => ?_
  unfold Earlier
  split <;> omega

/-- A name of one character is replaced wherever it stands, when there are no braces. -/
theorem copy_of_name_eq (hname : header.name = [c]) (ht : '{' ∉ t) (v : Int) :
    header.copy t v = t.flatMap fun d => if d = c then Text.ofInt v else [d] := by
  have hfilled := header.filled_append ht [] v
  rw [List.append_nil, filled_nil, List.append_nil] at hfilled
  rw [copy_eq, hfilled, hname, Text.replaceAll_singleton]

theorem not_mem_unroll (hname : header.name = [c]) (ht : '{' ∉ t) : '{' ∉ header.unroll t := by
  have htrim : '{' ∉ t.trimStart := fun hmem => ht ((List.dropWhile_suffix _).subset hmem)
  intro hmem
  obtain ⟨v, -, hcopy⟩ := List.mem_flatMap.mp hmem
  rw [copy_of_name_eq hname htrim, List.mem_flatMap] at hcopy
  obtain ⟨d, hd, hpiece⟩ := hcopy
  split at hpiece
  · exact Text.not_mem_ofInt (by decide) (by decide) v hpiece
  · rw [List.mem_singleton] at hpiece
    exact htrim (hpiece ▸ hd)

end Header

/-- The ways to choose a value for each of some loops, as the loops come to them when each stands
inside the one before it. -/
def choices : List Header → List (List Int)
  | [] => [[]]
  | header :: inner => header.values.flatMap fun v => (choices inner).map (v :: ·)

/-- Of two choices of values the first has the earlier one for the outermost loop at which they
differ. -/
inductive RowMajor : List Header → List Int → List Int → Prop
  | here {header : Header} {inner : List Header} {v w : Int} {vs ws : List Int}
    (h : header.Earlier v w) : RowMajor (header :: inner) (v :: vs) (w :: ws)
  | inside {header : Header} {inner : List Header} {v : Int} {vs ws : List Int}
    (h : RowMajor inner vs ws) : RowMajor (header :: inner) (v :: vs) (v :: ws)

/-- What stands for a character when each loop name, of one character, gives way to its value. -/
def standIn (headers : List Header) (values : List Int) (c : Char) : Text :=
  match ((headers.map (·.name)).zip values).lookup [c] with
  | some v => Text.ofInt v
  | none => [c]

/-- The text with each loop name, of one character, replaced by its value. -/
def assign (headers : List Header) (values : List Int) (t : Text) : Text :=
  t.flatMap (standIn headers values)

variable {header : Header} {headers inner : List Header} {values : List Int} {body t r : Text}
  {c d : Char} {v : Int}

theorem mem_choices_iff :
    values ∈ choices headers ↔ List.Forall₂ Header.Within headers values := by
  induction headers generalizing values with
  | nil => simp [choices]
  | cons header inner ih =>
    simp only [choices, List.mem_flatMap, List.mem_map, Header.mem_values_iff, ih,
      List.forall₂_cons_left_iff]
    constructor
    · rintro ⟨v, hv, vs, hvs, rfl⟩
      exact ⟨v, vs, hv, hvs, rfl⟩
    · rintro ⟨v, vs, hv, hvs, rfl⟩
      exact ⟨v, hv, vs, hvs, rfl⟩

theorem pairwise_choices (headers : List Header) :
    (choices headers).Pairwise (RowMajor headers) := by
  induction headers with
  | nil => simp [choices]
  | cons header inner ih =>
    rw [choices, List.pairwise_flatMap]
    constructor
    · intro v _
      exact List.pairwise_map.mpr (ih.imp .inside)
    · refine header.pairwise_values.imp fun hvw => ?_
      intro vs hvs ws hws
      obtain ⟨vs, -, rfl⟩ := List.mem_map.mp hvs
      obtain ⟨ws, -, rfl⟩ := List.mem_map.mp hws
      exact .here hvw

section StandIn

theorem standIn_cons : standIn (header :: inner) (v :: values) c =
    if header.name = [c] then Text.ofInt v else standIn inner values c := by
  by_cases h : header.name = [c]
  · simp [standIn, h]
  · simp [standIn, h, List.lookup_cons, beq_eq_false_iff_ne.mpr (Ne.symm h)]

/-- A character that is no loop name stands for itself. -/
theorem standIn_of_not_mem (h : [c] ∉ headers.map (·.name)) : standIn headers values c = [c] := by
  have hnone : ((headers.map (·.name)).zip values).lookup [c] = none := by
    rw [List.lookup_eq_none_iff]
    rintro ⟨name, v⟩ hmem
    have hname : name ∈ headers.map (·.name) := (List.of_mem_zip hmem).1
    rw [bne_iff_ne]
    rintro rfl
    exact h hname
  rw [standIn, hnone]

theorem standIn_eq (headers : List Header) (values : List Int) (c : Char) :
    standIn headers values c = [c] ∨ ∃ v, standIn headers values c = Text.ofInt v := by
  unfold standIn
  split
  · exact Or.inr ⟨_, rfl⟩
  · exact Or.inl rfl

/-- Numbers hold no loop name: the name of an outer loop is replaced where it stood from the
start. -/
theorem flatMap_standIn (hname : header.name = [c]) (hloop : IsLoopName [c])
    (hfresh : [c] ∉ inner.map (·.name)) :
    (standIn inner values d).flatMap (fun e => if e = c then Text.ofInt v else [e]) =
      standIn (header :: inner) (v :: values) d := by
  rw [standIn_cons, hname]
  by_cases hd : d = c
  · rw [hd, standIn_of_not_mem hfresh]
    simp
  · rw [if_neg (by simpa using Ne.symm hd)]
    rcases standIn_eq inner values d with hself | ⟨w, hnumber⟩
    · simp [hself, hd]
    · have hsame : ∀ e ∈ Text.ofInt w, (if e = c then Text.ofInt v else [e]) = [e] := by
        intro e he
        refine if_neg ?_
        rintro rfl
        exact hloop.not_mem_ofInt w he
      rw [hnumber, List.flatMap_congr hsame, List.flatMap_singleton']

theorem brace_not_mem_assign (h : '{' ∉ body) : '{' ∉ assign headers values body := by
  intro hmem
  obtain ⟨c, hc, hpiece⟩ := List.mem_flatMap.mp hmem
  rcases standIn_eq headers values c with hself | ⟨v, hnumber⟩
  · rw [hself, List.mem_singleton] at hpiece
    exact h (hpiece ▸ hc)
  · exact Text.not_mem_ofInt (by decide) (by decide) v (hnumber ▸ hpiece)

theorem startsOutside_assign (h : body.StartsOutside Text.isBlank) :
    (assign headers values body).StartsOutside Text.isBlank := by
  cases body with
  | nil => simp [assign]
  | cons c body =>
    rw [assign, List.flatMap_cons]
    rcases standIn_eq headers values c with hself | ⟨v, hnumber⟩
    · rw [hself]
      exact Text.startsOutside_cons.mpr (Text.startsOutside_cons.mp h)
    · rw [hnumber, Text.startsOutside_append (Text.ofInt_ne_nil v)]
      exact Text.startsOutside_blank_ofInt v

end StandIn

/-- Loops over one-character names, one inside the other, come to a copy for each choice of
values. -/
theorem foldr_unroll (hname : ∀ header ∈ headers, ∃ c, header.name = [c] ∧ IsLoopName [c])
    (hnodup : (headers.map (·.name)).Nodup) (hbrace : '{' ∉ body)
    (hstart : body.StartsOutside Text.isBlank) :
    headers.foldr Header.unroll body =
      (choices headers).flatMap fun values => assign headers values body := by
  induction headers with
  | nil =>
    have hself : ∀ c ∈ body, standIn [] [] c = [c] := fun c _ => standIn_of_not_mem (by simp)
    rw [List.foldr_nil, choices, List.flatMap_singleton, assign, List.flatMap_congr hself,
      List.flatMap_singleton']
  | cons header inner ih =>
    obtain ⟨⟨c, hc, hloop⟩, hinner⟩ := List.forall_mem_cons.mp hname
    obtain ⟨hfresh, hdistinct⟩ := List.nodup_cons.mp hnodup
    have hcopies := ih hinner hdistinct
    -- what the inner loops come to is not trimmed again and has no braces
    have hblank : (inner.foldr Header.unroll body).StartsOutside Text.isBlank := by
      rw [hcopies]
      exact Text.startsOutside_flatMap fun values _ => startsOutside_assign hstart
    have hopen : '{' ∉ inner.foldr Header.unroll body := by
      rw [hcopies, List.mem_flatMap]
      rintro ⟨values, -, hmem⟩
      exact brace_not_mem_assign hbrace hmem
    have hcopy : ∀ v, header.copy (inner.foldr Header.unroll body) v =
        (choices inner).flatMap fun values => assign (header :: inner) (v :: values) body := by
      intro v
      rw [Header.copy_of_name_eq hc hopen, hcopies, List.flatMap_assoc]
      refine List.flatMap_congr fun values _ => ?_
      rw [assign, List.flatMap_assoc]
      exact List.flatMap_congr fun d _ => flatMap_standIn hc hloop (hc ▸ hfresh)
    rw [List.foldr_cons, Header.unroll, Text.trimStart, Text.dropWhile_of_startsOutside hblank,
      choices, List.flatMap_assoc]
    refine List.flatMap_congr fun v _ => ?_
    rw [hcopy, List.flatMap_map]

/-- The innermost loop takes the leading blanks off. -/
theorem foldr_unroll_trimStart (hne : headers ≠ []) (body : Text) :
    headers.foldr Header.unroll body.trimStart = headers.foldr Header.unroll body := by
  induction headers with
  | nil => exact absurd rfl hne
  | cons header inner ih =>
    rw [List.foldr_cons, List.foldr_cons]
    by_cases hinner : inner = []
    · have htrim : body.trimStart.trimStart = body.trimStart :=
        Text.dropWhile_of_startsOutside Text.startsOutside_dropWhile
      rw [hinner, List.foldr_nil, List.foldr_nil, Header.unroll, Header.unroll, htrim]
    · rw [ih hinner]

/-- Blocks that stand one inside the other, around plain text. -/
def Body.nested (openings : List Opening) (t : Text) : Body :=
  openings.foldr (fun opening inner => .block .empty opening inner) (Body.empty.append t)

theorem Body.value_append (body : Body) (t : Text) : (body.append t).value = body.value ++ t := by
  induction t generalizing body with
  | nil => simp [append]
  | cons c t ih =>
    show ((body.plain c).append t).value = _
    rw [ih, value, List.append_assoc, List.singleton_append]

theorem Body.segments_nested (openings : List Opening) (t : Text) :
    (nested openings t).tokens.map (·.1) = openings.map (fun opening => .hit (.opening opening)) ++
      (t.map .plain ++ List.replicate openings.length (.hit .close)) := by
  induction openings with
  | nil => simp [nested, tokens_append, tokens]
  | cons opening openings ih =>
    have hblock : nested (opening :: openings) t = .block .empty opening (nested openings t) := rfl
    rw [hblock, tokens, List.map_append, List.map_append, List.map_append, ih, List.length_cons,
      List.replicate_succ']
    simp [tokens]

/-- Nested blocks without faults in their bounds are unrolled, from the inside out. -/
theorem Body.value_nested {openings : List Opening}
    (hheader : List.Forall₂ (fun opening header => opening.header = .ok header) openings headers)
    (hname : ∀ header ∈ headers, ∃ c, header.name = [c]) (hbrace : '{' ∉ body) :
    (nested openings body).kept = false ∧ (nested openings body).faults = [] ∧
      (nested openings body).value = headers.foldr Header.unroll body ∧
      '{' ∉ headers.foldr Header.unroll body := by
  induction hheader with
  | nil => exact ⟨kept_append _ _, faults_append _ _, value_append _ _, hbrace⟩
  | @cons opening header openings headers hok _ ih =>
    obtain ⟨⟨c, hc⟩, hnames⟩ := List.forall_mem_cons.mp hname
    obtain ⟨hkept, hfaults, hvalue, hopen⟩ := ih hnames
    have hblock :
        nested (opening :: openings) body = .block .empty opening (nested openings body) := rfl
    have hunrolled : '{' ∉ header.unroll (headers.foldr Header.unroll body) :=
      Header.not_mem_unroll hc hopen
    have hunmarked : ¬ Mark.stray.source <:+: header.unroll (headers.foldr Header.unroll body) :=
      fun hmark => hunrolled (hmark.subset List.mem_cons_self)
    have hopening : opening.fault? = none := by
      rw [Opening.fault?, hok]
    have hclose : closeFault? opening (nested openings body) = none := by
      simp [closeFault?, hok, hvalue, hunmarked]
    rw [hblock, List.foldr_cons]
    refine ⟨by simp [kept, hkept], ?_, ?_, hunrolled⟩
    · rw [faults] at hfaults
      simp [faults, tokens, hopening, hclose, hfaults]
    · simp [value, hkept, hvalue, Opening.unrolled, hok]

/-- An opening is a mark. -/
theorem Mark.read?_of_read?_opening {opening : Opening} (h : Opening.read? t = some (opening, r)) :
    pattern.read? t = some (.opening opening, r) := by
  obtain ⟨rfl, hname, -⟩ := Opening.read?_eq_some_iff.mp h
  obtain ⟨c, rest, hcons⟩ := hname.exists_cons
  have hbegins : isNameStart c = true := isNameStart_iff.mpr (hcons ▸ hname).beginsName
  have hc : '}' ≠ c := by
    rintro rfl
    exact absurd hbegins (by decide)
  have hclose : Text.skip? ['{', '#', '}'] (opening.source ++ r) = none := by
    simp [Opening.source, hcons, Text.skip?, hc]
  show read? (opening.source ++ r) = _
  rw [read?, hclose, h]

/-- A text that is read as a header from its first character to its last is an opening. -/
theorem Header.parse_eq_whole (h : Header.parse t = .ok (some (header, Text.byteLength t))) :
    ∃ opening, Opening.read? t = some (opening, []) ∧ opening.header = .ok header := by
  unfold parse at h
  split at h
  · simp at h
  · rename_i opening r hread
    cases hheader : opening.header with
    | error fault => simp [hheader, Except.map] at h
    | ok other =>
      simp only [hheader, Except.map, Except.ok.injEq, Option.some.injEq, Prod.mk.injEq] at h
      obtain ⟨rfl, hlength⟩ := h
      have hr : r.byteLength = 0 := by
        rw [Opening.eq_append_of_read? hread, Text.byteLength_append] at hlength
        omega
      rw [Text.eq_nil_of_byteLength_eq_zero hr] at hread
      exact ⟨opening, hread, hheader⟩

theorem Mark.segments_closes (n : Nat) : pattern.segments (List.replicate n close.source).flatten =
    List.replicate n (.hit .close) := by
  induction n with
  | zero => simp
  | succ n ih =>
    rw [List.replicate_succ, List.flatten_cons, Pattern.segments_of_read? (read?_close _), ih,
      List.replicate_succ]

/-- Text without braces is plain up to the next mark. -/
theorem Mark.segments_append_of_not_mem (h : '{' ∉ t) (r : Text) :
    pattern.segments (t ++ r) = t.map .plain ++ pattern.segments r := by
  refine Pattern.segments_append_of_forall fun s hs hne => ?_
  rw [← Option.not_isSome_iff_eq_none, isSome_read?_iff]
  intro hmark
  obtain ⟨c, s, rfl⟩ := List.exists_cons_of_ne_nil hne
  obtain ⟨rfl, -⟩ := List.cons_prefix_cons.mp hmark
  exact h (hs.subset List.mem_cons_self)

theorem Mark.segments_openings {openings : List Opening}
    (h : ∀ opening ∈ openings, ∃ t r, Opening.read? t = some (opening, r)) (r : Text) :
    pattern.segments ((openings.map Opening.source).flatten ++ r) =
      openings.map (fun opening => .hit (.opening opening)) ++ pattern.segments r := by
  induction openings with
  | nil => rfl
  | cons opening openings ih =>
    obtain ⟨⟨t, s, hread⟩, hopenings⟩ := List.forall_mem_cons.mp h
    have hmark := read?_of_read?_opening
      (Opening.read?_append hread ((openings.map Opening.source).flatten ++ r))
    rw [List.map_cons, List.flatten_cons, List.append_assoc, Pattern.segments_of_read? hmark,
      ih hopenings, List.map_cons, List.cons_append]

/-- Nested blocks are unrolled from the inside out. -/
theorem unroll_eq_foldr {openings : List Opening}
    (hheader : List.Forall₂ (fun opening header => opening.header = .ok header) openings headers)
    (hread : ∀ opening ∈ openings, ∃ t r, Opening.read? t = some (opening, r))
    (hname : ∀ header ∈ headers, ∃ c, header.name = [c]) (hbrace : '{' ∉ body) :
    unroll ((openings.map Opening.source).flatten ++
      (body ++ (List.replicate openings.length Mark.close.source).flatten)) =
        .ok (headers.foldr Header.unroll body) := by
  obtain ⟨-, hfaults, hvalue, -⟩ := Body.value_nested hheader hname hbrace
  have houtline : Outline.ofText ((openings.map Opening.source).flatten ++
      (body ++ (List.replicate openings.length Mark.close.source).flatten)) =
        { inner := .nested openings body } := by
    rw [Outline.ofText_eq_iff, Mark.segments_openings hread, Mark.segments_append_of_not_mem hbrace,
      Mark.segments_closes, ← Body.segments_nested]
    simp [Outline.segments, Outline.tokens]
  rw [unroll_eq_ok_iff, houtline, Outline.faults_eq_nil_iff]
  constructor
  · simp [Outline.bodies, hfaults]
  · simp [Outline.value, hvalue]

theorem exists_openings {openings : List Text}
    (h : List.Forall₂ (fun t header => Header.parse t = .ok (some (header, Text.byteLength t)))
      openings headers) :
    ∃ written : List Opening, openings = written.map Opening.source ∧
      List.Forall₂ (fun opening header => opening.header = .ok header) written headers ∧
      (∀ opening ∈ written, ∃ t r, Opening.read? t = some (opening, r)) ∧
      ∀ header ∈ headers, IsLoopName header.name := by
  induction h with
  | nil => exact ⟨[], rfl, .nil, by simp, by simp⟩
  | @cons t header openings headers hparse _ ih =>
    obtain ⟨written, rfl, hheaders, hreads, hloops⟩ := ih
    obtain ⟨opening, hread, hheader⟩ := Header.parse_eq_whole hparse
    have hsource : t = opening.source := by simpa using Opening.eq_append_of_read? hread
    have hloop : IsLoopName header.name :=
      (Opening.name_header hheader).symm ▸ (Opening.read?_eq_some_iff.mp hread).2.1
    exact ⟨opening :: written, by rw [hsource, List.map_cons], .cons hheader hheaders,
      List.forall_mem_cons.mpr ⟨⟨t, [], hread⟩, hreads⟩, List.forall_mem_cons.mpr ⟨hloop, hloops⟩⟩

/-- Blocks one inside the other, whose names have one character each and differ, are unrolled to a
copy of the body for each choice of loop values, and the copies stand in the order of nested
loops. -/
theorem unroll_nested {openings : List Text} (hne : headers ≠ [])
    (hread : List.Forall₂
      (fun t header => Header.parse t = .ok (some (header, Text.byteLength t))) openings headers)
    (hname : ∀ header ∈ headers, header.name.length = 1) (hnodup : (headers.map (·.name)).Nodup)
    (hbrace : '{' ∉ body) :
    unroll (openings.flatten ++ body ++ (List.replicate headers.length Mark.close.source).flatten) =
        .ok ((choices headers).flatMap fun values => assign headers values body.trimStart) ∧
      (∀ values, values ∈ choices headers ↔ List.Forall₂ Header.Within headers values) ∧
      (choices headers).Pairwise (RowMajor headers) := by
  refine ⟨?_, fun _ => mem_choices_iff, pairwise_choices headers⟩
  obtain ⟨written, rfl, hheaders, hreads, hloops⟩ := exists_openings hread
  have hnames : ∀ header ∈ headers, ∃ c, header.name = [c] ∧ IsLoopName [c] := by
    intro header hheader
    obtain ⟨c, hc⟩ := List.length_eq_one_iff.mp (hname header hheader)
    exact ⟨c, hc, hc ▸ hloops header hheader⟩
  have hsingle : ∀ header ∈ headers, ∃ c, header.name = [c] :=
    fun header hheader => (hnames header hheader).imp fun _ h => h.1
  have htrim : '{' ∉ body.trimStart := fun hmem => hbrace ((List.dropWhile_suffix _).subset hmem)
  rw [List.append_assoc, ← hheaders.length_eq, unroll_eq_foldr hheaders hreads hsingle hbrace,
    ← foldr_unroll_trimStart hne, foldr_unroll hnames hnodup htrim Text.startsOutside_dropWhile]

/-- Two loops, the inner one running down, around a body with a leading blank. -/
theorem unroll_nested_up_down :
    let outer : Header := ⟨['i'], 0, 1⟩
    let inner : Header := ⟨['_'], 8, 7⟩
    unroll "{#i=0,01}{#_=8,7} i_;{#}{#}".toList = .ok "08;07;18;17;".toList ∧
      choices [outer, inner] = [[0, 8], [0, 7], [1, 8], [1, 7]] ∧
      (choices [outer, inner]).Pairwise (RowMajor [outer, inner]) := by
  intro outer inner
  have hread : List.Forall₂
      (fun t header => Header.parse t = .ok (some (header, Text.byteLength t)))
      ["{#i=0,01}".toList, "{#_=8,7}".toList] [outer, inner] :=
    .cons (by decide +kernel) (.cons (by decide +kernel) .nil)
  have hbrace : '{' ∉ " i_;".toList := by decide +kernel
  obtain ⟨hunroll, -, horder⟩ :=
    unroll_nested (List.cons_ne_nil outer [inner]) hread (by decide +kernel) (by decide +kernel)
      hbrace
  have hsource : ["{#i=0,01}".toList, "{#_=8,7}".toList].flatten ++ " i_;".toList ++
      (List.replicate 2 Mark.close.source).flatten = "{#i=0,01}{#_=8,7} i_;{#}{#}".toList := by
    decide +kernel
  have hcopies : (choices [outer, inner]).flatMap (fun values =>
      assign [outer, inner] values (Text.trimStart " i_;".toList)) = "08;07;18;17;".toList := by
    decide +kernel
  rw [hcopies] at hunroll
  exact ⟨hsource ▸ hunroll, by decide +kernel, horder⟩

end Range

end JsfxSugar
