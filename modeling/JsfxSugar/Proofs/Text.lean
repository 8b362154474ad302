import JsfxSugar.Text.Blank
import JsfxSugar.Text.Decimal

/-! Reading a run of characters off a text that was put together from parts. -/

namespace JsfxSugar.Text

variable {cls : Char → Bool} {s t r : Text} {c : Char}

/-- The text is empty or begins with a character outside a class. -/
def StartsOutside (cls : Char → Bool) (t : Text) : Prop :=
  ∀ c ∈ t.head?, cls c = false

/-- The text is empty or ends with a character outside a class. -/
def EndsOutside (cls : Char → Bool) (t : Text) : Prop :=
  ∀ c ∈ t.getLast?, cls c = false

@[simp] theorem startsOutside_nil : StartsOutside cls [] := by
  simp [StartsOutside]

@[simp] theorem startsOutside_cons : StartsOutside cls (c :: t) ↔ cls c = false := by
  simp [StartsOutside]

theorem startsOutside_append (h : s ≠ []) :
    StartsOutside cls (s ++ t) ↔ StartsOutside cls s := by
  simp [StartsOutside, h]

theorem StartsOutside.append (hs : StartsOutside cls s) (ht : StartsOutside cls t) :
    StartsOutside cls (s ++ t) := by
  cases s with
  | nil => exact ht
  | cons c s => exact (startsOutside_append (by simp)).mpr hs

theorem StartsOutside.of_isPrefix (h : StartsOutside cls t) (hs : s <+: t) : StartsOutside cls s := by
  cases s with
  | nil => exact startsOutside_nil
  | cons c s =>
    obtain ⟨rest, rfl⟩ := hs
    exact startsOutside_cons.mpr (startsOutside_cons.mp h)

theorem endsOutside_iff_reverse : EndsOutside cls t ↔ StartsOutside cls t.reverse := by
  simp [StartsOutside, EndsOutside]

theorem endsOutside_append (h : t ≠ []) : EndsOutside cls (s ++ t) ↔ EndsOutside cls t := by
  simp [EndsOutside, h]

@[simp] theorem endsOutside_concat : EndsOutside cls (t ++ [c]) ↔ cls c = false := by
  simp [EndsOutside]

theorem endsOutside_of_forall (h : ∀ c ∈ t, cls c = false) : EndsOutside cls t :=
  fun c hc => h c (List.mem_of_getLast? hc)

theorem EndsOutside.of_isSuffix (h : EndsOutside cls t) (hs : s <:+ t) : EndsOutside cls s := by
  by_cases hne : s = []
  · simp [EndsOutside, hne]
  · obtain ⟨front, rfl⟩ := hs
    exact (endsOutside_append hne).mp h

theorem EndsOutside.exists_mem (h : EndsOutside cls t) (hne : t ≠ []) :
    ∃ c ∈ t, cls c = false :=
  ⟨t.getLast hne, List.getLast_mem hne, h _ (List.getLast?_eq_some_getLast hne)⟩

/-- A run of characters of a class that begins in a text ends there, when the text ends outside the
class. -/
theorem EndsOutside.exists_eq_append (h : EndsOutside cls s) (hne : s ≠ []) {run rest u : Text}
    (hrun : ∀ c ∈ run, cls c = true) (happend : s ++ u = run ++ c :: rest) :
    ∃ s', s = run ++ c :: s' ∧ rest = s' ++ u := by
  obtain ⟨d, hd, hcls⟩ := h.exists_mem hne
  rcases List.append_eq_append_iff.mp happend with ⟨more, rfl, -⟩ | ⟨s', rfl, hs'⟩
  · simp [hrun d (List.mem_append_left more hd)] at hcls
  · cases s' with
    | nil =>
      rw [List.append_nil] at hd
      simp [hrun d hd] at hcls
    | cons e s' =>
      obtain ⟨rfl, rfl⟩ := List.cons.inj hs'
      exact ⟨s', rfl, rfl⟩

theorem dropWhile_of_startsOutside (h : StartsOutside cls t) : t.dropWhile cls = t := by
  cases t with
  | nil => rfl
  | cons c t => simp [startsOutside_cons.mp h]

theorem takeWhile_of_startsOutside (h : StartsOutside cls t) : t.takeWhile cls = [] := by
  cases t with
  | nil => rfl
  | cons c t => simp [startsOutside_cons.mp h]

theorem dropWhile_append_of_startsOutside (hs : ∀ c ∈ s, cls c = true)
    (hr : StartsOutside cls r) : (s ++ r).dropWhile cls = r := by
  rw [List.dropWhile_append_of_pos hs, dropWhile_of_startsOutside hr]

theorem takeWhile_append_of_startsOutside (hs : ∀ c ∈ s, cls c = true)
    (hr : StartsOutside cls r) : (s ++ r).takeWhile cls = s := by
  rw [List.takeWhile_append_of_pos hs, takeWhile_of_startsOutside hr, List.append_nil]

theorem startsOutside_dropWhile : StartsOutside cls (t.dropWhile cls) := by
  induction t with
  | nil => simp
  | cons c t ih =>
    cases h : cls c with
    | true => simpa [h] using ih
    | false => simp [h]

theorem run?_append (hne : s ≠ []) (hs : ∀ c ∈ s, cls c = true) (hr : StartsOutside cls r) :
    run? cls (s ++ r) = some (s, r) := by
  obtain ⟨c, run, rfl⟩ := List.exists_cons_of_ne_nil hne
  simp only [run?, takeWhile_append_of_startsOutside hs hr, dropWhile_append_of_startsOutside hs hr]

/-- What `run?` reads is within the class and does not go on. -/
theorem run?_eq_some_iff : run? cls t = some (s, r) ↔
    t = s ++ r ∧ s ≠ [] ∧ (∀ c ∈ s, cls c = true) ∧ StartsOutside cls r := by
  constructor
  · intro h
    obtain ⟨hs, hr, hne⟩ := eq_of_run? h
    refine ⟨eq_append_of_run? h, hne, ?_, hr ▸ startsOutside_dropWhile⟩
    rw [hs]
    exact List.all_eq_true.mp List.all_takeWhile
  · rintro ⟨rfl, hne, hs, hr⟩
    exact run?_append hne hs hr

/-- A text that is not empty, and whose characters are all within a class. -/
structure IsRun (cls : Char → Bool) (t : Text) : Prop where
  ne_nil : t ≠ []
  forall_mem : ∀ c ∈ t, cls c = true

theorem isRun_of_run? (h : run? cls t = some (s, r)) : IsRun cls s := by
  obtain ⟨-, hne, hs, -⟩ := run?_eq_some_iff.mp h
  exact ⟨hne, hs⟩

namespace IsRun

theorem not_mem (h : IsRun cls t) (hc : cls c = false) : c ∉ t := by
  intro hmem
  simp [h.forall_mem c hmem] at hc

theorem exists_cons (h : IsRun cls t) : ∃ c rest, t = c :: rest ∧ cls c = true := by
  obtain ⟨c, rest, rfl⟩ := List.exists_cons_of_ne_nil h.ne_nil
  exact ⟨c, rest, rfl, h.forall_mem c List.mem_cons_self⟩

theorem not_endsOutside (h : IsRun cls t) : ¬ EndsOutside cls t := by
  intro hends
  obtain ⟨c, hc, hcls⟩ := hends.exists_mem h.ne_nil
  simp [h.forall_mem c hc] at hcls

end IsRun

theorem spanBefore?_append (mark : Text) (hs : ∀ c ∈ s, cls c = true)
    (hr : StartsOutside cls (mark ++ r)) :
    spanBefore? cls mark (s ++ (mark ++ r)) = some (s, r) := by
  rw [spanBefore?, dropWhile_append_of_startsOutside hs hr,
    takeWhile_append_of_startsOutside hs hr, skip?_append]
  rfl

theorem upTo?_append {stop : Char} (h : stop ∉ s) : upTo? stop (s ++ stop :: r) = some (s, r) := by
  refine spanBefore?_append [stop] (fun c hc => decide_eq_true ?_) (by simp)
  rintro rfl
  exact h hc

theorem trim_isPrefix (t : Text) : t.trim <+: t.trimStart := by
  rw [trim, trimEnd, ← List.reverse_suffix, List.reverse_reverse]
  exact List.dropWhile_suffix isBlank

theorem trim_isInfix (t : Text) : t.trim <:+: t := by
  have hstart : t.trimStart <:+ t := List.dropWhile_suffix isBlank
  exact t.trim_isPrefix.isInfix.trans hstart.isInfix

theorem count_dropWhile (h : cls c = false) : (t.dropWhile cls).count c = t.count c := by
  have htake : c ∉ t.takeWhile cls := by
    intro hmem
    simp [List.all_eq_true.mp List.all_takeWhile c hmem] at h
  calc (t.dropWhile cls).count c = (t.takeWhile cls ++ t.dropWhile cls).count c := by
        rw [List.count_append, List.count_eq_zero_of_not_mem htake, Nat.zero_add]
    _ = t.count c := by rw [List.takeWhile_append_dropWhile]

/-- Trimming takes away nothing but blanks. -/
theorem count_trim (h : isBlank c = false) : t.trim.count c = t.count c := by
  rw [trim, trimEnd, List.count_reverse, count_dropWhile h, List.count_reverse, trimStart,
    count_dropWhile h]

/-- A span is read up to the first character outside its class, if that is the right one. -/
theorem spanBefore?_eq_some_iff {stop : Char} (hstop : cls stop = false) :
    spanBefore? cls [stop] t = some (s, r) ↔ t = s ++ stop :: r ∧ ∀ c ∈ s, cls c = true := by
  constructor
  · intro h
    refine ⟨eq_append_of_spanBefore? h, ?_⟩
    rw [eq_takeWhile_of_spanBefore? h]
    exact List.all_eq_true.mp List.all_takeWhile
  · rintro ⟨rfl, hs⟩
    exact spanBefore?_append [stop] hs (startsOutside_cons.mpr hstop)

theorem upTo?_eq_some_iff {stop : Char} : upTo? stop t = some (s, r) ↔
    t = s ++ stop :: r ∧ stop ∉ s := by
  constructor
  · intro h
    obtain ⟨rfl, hs⟩ := (spanBefore?_eq_some_iff (by simp)).mp h
    exact ⟨rfl, fun hmem => by simpa using hs stop hmem⟩
  · rintro ⟨rfl, hs⟩
    exact upTo?_append hs

/-- The first character outside a class ends the same run, whichever way the text is put together. -/
theorem eq_of_append_cons_eq {run run' rest rest' : Text} {d : Char}
    (hrun : ∀ c ∈ run, cls c = true) (hrun' : ∀ c ∈ run', cls c = true) (hc : cls c = false)
    (hd : cls d = false) (h : run ++ c :: rest = run' ++ d :: rest') :
    run = run' ∧ c = d ∧ rest = rest' := by
  have htake := congrArg (List.takeWhile cls) h
  have hdrop := congrArg (List.dropWhile cls) h
  rw [takeWhile_append_of_startsOutside hrun (startsOutside_cons.mpr hc),
    takeWhile_append_of_startsOutside hrun' (startsOutside_cons.mpr hd)] at htake
  rw [dropWhile_append_of_startsOutside hrun (startsOutside_cons.mpr hc),
    dropWhile_append_of_startsOutside hrun' (startsOutside_cons.mpr hd)] at hdrop
  exact ⟨htake, List.cons.inj hdrop⟩

/-- The first occurrence of a character splits a text in one way only. -/
theorem eq_of_append_stop_eq {s' r' : Text} (hs : c ∉ s) (hs' : c ∉ s')
    (h : s ++ c :: r = s' ++ c :: r') : s = s' ∧ r = r' := by
  have hne : ∀ t : Text, c ∉ t → ∀ d ∈ t, decide (d ≠ c) = true := by
    intro t ht d hd
    rw [decide_eq_true_iff]
    rintro rfl
    exact ht hd
  obtain ⟨hsame, -, hrest⟩ := eq_of_append_cons_eq (hne s hs) (hne s' hs') (by simp) (by simp) h
  exact ⟨hsame, hrest⟩

/-- A text that does not hold the next character ends before it. -/
theorem isPrefix_of_append_eq {rest u : Text} (h : t ++ u = s ++ c :: rest) (hc : c ∉ t) :
    t <+: s := by
  rcases List.append_eq_append_iff.mp h with ⟨more, rfl, -⟩ | ⟨more, rfl, hmore⟩
  · exact List.prefix_append t more
  · cases more with
    | nil => simp
    | cons d more =>
      obtain ⟨rfl, -⟩ := List.cons.inj hmore
      simp at hc

/-- A part of a text that does not hold a character lies on one side of it. -/
theorem isInfix_of_append_cons {rest : Text} (h : s <:+: t ++ c :: rest) (hc : c ∉ s) :
    s <:+: t ∨ s <:+: rest := by
  have hnil : ∀ u, u <+: c :: rest → c ∉ u → u = [] := by
    rintro u ⟨more, hmore⟩ hu
    cases u with
    | nil => rfl
    | cons d u =>
      obtain ⟨rfl, -⟩ := List.cons.inj hmore
      simp at hu
  rcases List.infix_append_iff.mp h with h | h | ⟨front, back, rfl, hfront, hback⟩
  · exact Or.inl h
  · rcases List.infix_cons_iff.mp h with h | h
    · rw [hnil s h hc]
      exact Or.inl List.nil_infix
    · exact Or.inr h
  · rw [hnil back hback fun hmem => hc (List.mem_append_right front hmem), List.append_nil]
    exact Or.inl hfront.isInfix

/-- A text with a character outside a class has a first one. -/
theorem exists_eq_append_cons (hc : cls c = false) (hmem : c ∈ t) :
    ∃ run d rest, t = run ++ d :: rest ∧ (∀ c ∈ run, cls c = true) ∧ cls d = false := by
  have hstart : StartsOutside cls (t.dropWhile cls) := startsOutside_dropWhile
  have htake : ∀ c ∈ t.takeWhile cls, cls c = true := List.all_eq_true.mp List.all_takeWhile
  have ht := @List.takeWhile_append_dropWhile _ cls t
  cases hdrop : t.dropWhile cls with
  | nil =>
    rw [hdrop, List.append_nil] at ht
    rw [← ht] at hmem
    simp [htake c hmem] at hc
  | cons d rest =>
    rw [hdrop] at hstart ht
    exact ⟨_, d, rest, ht.symm, htake, startsOutside_cons.mp hstart⟩

theorem trimEnd_eq_self (h : EndsOutside isBlank t) : t.trimEnd = t := by
  rw [trimEnd, dropWhile_of_startsOutside (endsOutside_iff_reverse.mp h), List.reverse_reverse]

/-- A text without blanks at its ends is not trimmed. -/
theorem trim_eq_self (hstart : StartsOutside isBlank t) (hend : EndsOutside isBlank t) :
    t.trim = t := by
  rw [trim, trimStart, dropWhile_of_startsOutside hstart, trimEnd_eq_self hend]

/-- Nothing is left to trim once a text was trimmed. -/
theorem trim_trim (t : Text) : t.trim.trim = t.trim := by
  have hstart : StartsOutside isBlank t.trimStart := startsOutside_dropWhile
  apply trim_eq_self (hstart.of_isPrefix t.trim_isPrefix)
  rw [endsOutside_iff_reverse, trim, trimEnd, List.reverse_reverse]
  exact startsOutside_dropWhile

/-- Trimming takes blanks away at the ends. -/
theorem exists_eq_trim (t : Text) : ∃ front back, t = front ++ (t.trim ++ back) ∧
    (∀ c ∈ front, isBlank c = true) ∧ ∀ c ∈ back, isBlank c = true := by
  refine ⟨t.takeWhile isBlank, (t.trimStart.reverse.takeWhile isBlank).reverse, ?_,
    List.all_eq_true.mp List.all_takeWhile, fun c hc => ?_⟩
  · rw [trim, trimEnd, ← List.reverse_append, List.takeWhile_append_dropWhile, List.reverse_reverse,
      trimStart, List.takeWhile_append_dropWhile]
  · exact List.all_eq_true.mp List.all_takeWhile c (List.mem_reverse.mp hc)

/-- Blanks at the end make no difference when a text is trimmed. -/
theorem trim_append (h : ∀ c ∈ s, isBlank c = true) (t : Text) : (t ++ s).trim = t.trim := by
  have hreverse : ∀ u : Text, (u ++ s).trimEnd = u.trimEnd := by
    intro u
    rw [trimEnd, List.reverse_append, List.dropWhile_append_of_pos, trimEnd]
    exact fun c hc => h c (List.mem_reverse.mp hc)
  rw [trim, trimStart, List.dropWhile_append]
  split
  · rename_i hempty
    have hnil : t.dropWhile isBlank = [] := List.isEmpty_iff.mp hempty
    have hblank : s.dropWhile isBlank = [] := by
      have hdrop := dropWhile_append_of_startsOutside h startsOutside_nil
      rwa [List.append_nil] at hdrop
    rw [hblank, trim, trimStart, hnil]
  · exact hreverse _

/-- Trimming the start of a text stops at the first part that does not begin with a blank. -/
theorem isSuffix_trimStart (h : s <:+ t) (hstart : StartsOutside isBlank s) : s <:+ t.trimStart := by
  obtain ⟨front, rfl⟩ := h
  rw [trimStart, List.dropWhile_append]
  split
  · exact (dropWhile_of_startsOutside hstart).symm ▸ List.suffix_rfl
  · exact List.suffix_append _ _

theorem isPrefix_trimEnd (h : s <+: t) (hend : EndsOutside isBlank s) : s <+: t.trimEnd := by
  have hsuffix := isSuffix_trimStart (List.reverse_suffix.mpr h) (endsOutside_iff_reverse.mp hend)
  rw [trimEnd, ← List.reverse_suffix, List.reverse_reverse]
  exact hsuffix

/-- A part of a text that does not begin or end with a blank outlasts the trimming. -/
theorem isInfix_trim (h : s <:+: t) (hne : s ≠ []) (hstart : StartsOutside isBlank s)
    (hend : EndsOutside isBlank s) : s <:+: t.trim := by
  obtain ⟨front, back, rfl⟩ := h
  rw [List.append_assoc]
  obtain ⟨kept, hkept⟩ := isSuffix_trimStart (List.suffix_append front (s ++ back))
    ((startsOutside_append hne).mpr hstart)
  rw [← List.append_assoc] at hkept
  have hprefix : kept ++ s <+: trimStart (front ++ (s ++ back)) := ⟨back, hkept⟩
  have htrim := isPrefix_trimEnd hprefix ((endsOutside_append hne).mpr hend)
  exact (List.suffix_append kept s).isInfix.trans htrim.isInfix

theorem isSuffix_trim (h : s <:+ t) (hne : s ≠ []) (hstart : StartsOutside isBlank s)
    (hend : EndsOutside isBlank s) : s <:+ t.trim := by
  obtain ⟨kept, hkept⟩ := isSuffix_trimStart h hstart
  rw [trim, ← hkept, trimEnd_eq_self ((endsOutside_append hne).mpr hend)]
  exact List.suffix_append kept s

theorem toNat_of_isAlphanum (h : c.isAlphanum = true) :
    (65 ≤ c.toNat ∧ c.toNat ≤ 90) ∨ (97 ≤ c.toNat ∧ c.toNat ≤ 122) ∨
      (48 ≤ c.toNat ∧ c.toNat ≤ 57) := by
  have hranges : (decide (c.val ≥ 'A'.val ∧ c.val ≤ 'Z'.val) ||
      (decide (c.val ≥ 'a'.val) && decide (c.val ≤ 'z'.val)) ||
        (decide (c.val ≥ '0'.val) && decide (c.val ≤ '9'.val))) = true := h
  simp only [Bool.or_eq_true, Bool.and_eq_true, decide_eq_true_eq, UInt32.le_iff_toNat_le,
    ge_iff_le] at hranges
  exact or_assoc.mp hranges

theorem isBlank_eq_false_of_isAlphanum (h : c.isAlphanum = true) : isBlank c = false := by
  have hc := toNat_of_isAlphanum h
  rw [Bool.eq_false_iff]
  intro hblank
  simp only [isBlank, blankRanges, List.any_cons, List.any_nil, Bool.or_eq_true, Bool.and_eq_true,
    decide_eq_true_eq, Bool.false_eq_true, or_false] at hblank
  omega

theorem not_mem_ofNat (hc : c.isDigit = false) (n : Nat) : c ∉ ofNat n := by
  intro hmem
  simp [isDigit_of_mem_ofNat hmem] at hc

/-- A text without separators is one piece. -/
theorem pieces_of_not_mem {sep : Char} (h : sep ∉ s) : pieces sep s = [s] := by
  induction s with
  | nil => rfl
  | cons c s ih =>
    rw [List.mem_cons, not_or] at h
    simp [pieces, Ne.symm h.1, ih h.2]

theorem pieces_ne_nil (sep : Char) (t : Text) : pieces sep t ≠ [] := by
  cases t with
  | nil => simp [pieces]
  | cons c t =>
    rw [pieces]
    split
    · simp
    · split <;> simp

/-- The pieces around a separator are those of the texts on either side of it. -/
theorem pieces_append_cons (sep : Char) (s t : Text) :
    pieces sep (s ++ sep :: t) = pieces sep s ++ pieces sep t := by
  induction s with
  | nil => simp [pieces]
  | cons c s ih =>
    by_cases hc : c = sep
    · simp [pieces, hc, ih]
    · obtain ⟨piece, rest, hs⟩ := List.exists_cons_of_ne_nil (pieces_ne_nil sep s)
      simp [pieces, hc, ih, hs]

/-- What comes after the last separator belongs to the last piece. -/
theorem pieces_append {sep : Char} (h : sep ∉ s) (t : Text) : ∃ front last,
    pieces sep t = front ++ [last] ∧ pieces sep (t ++ s) = front ++ [last ++ s] := by
  induction t with
  | nil => exact ⟨[], [], rfl, pieces_of_not_mem h⟩
  | cons c t ih =>
    obtain ⟨front, last, ht, hts⟩ := ih
    by_cases hc : c = sep
    · exact ⟨[] :: front, last, by simp [pieces, hc, ht], by simp [pieces, hc, hts]⟩
    · cases front with
      | nil => exact ⟨[], c :: last, by simp [pieces, hc, ht], by simp [pieces, hc, hts]⟩
      | cons piece front =>
        exact ⟨(c :: piece) :: front, last, by simp [pieces, hc, ht], by simp [pieces, hc, hts]⟩

@[simp] theorem join_nil (sep : Text) : join sep [] = [] := rfl

@[simp] theorem join_singleton (sep : Text) : join sep [t] = t := by
  simp [join]

theorem join_cons_cons (sep : Text) (texts : List Text) :
    join sep (s :: t :: texts) = s ++ (sep ++ join sep (t :: texts)) := by
  simp [join, List.intersperse]

/-- Joining brings in no character but those of the separator. -/
theorem mem_join {sep : Text} {texts : List Text} (h : c ∈ join sep texts) :
    c ∈ sep ∨ ∃ t ∈ texts, c ∈ t := by
  induction texts with
  | nil => simp at h
  | cons s texts ih =>
    cases texts with
    | nil => exact Or.inr ⟨s, List.mem_singleton_self s, by simpa using h⟩
    | cons t texts =>
      rw [join_cons_cons, List.mem_append, List.mem_append] at h
      rcases h with h | h | h
      · exact Or.inr ⟨s, List.mem_cons_self, h⟩
      · exact Or.inl h
      · obtain hsep | ⟨t, ht, hc⟩ := ih h
        · exact Or.inl hsep
        · exact Or.inr ⟨t, List.mem_cons_of_mem s ht, hc⟩

theorem join_ne_nil (sep : Text) (h : t ≠ []) (texts : List Text) : join sep (t :: texts) ≠ [] := by
  cases texts with
  | nil => simpa using h
  | cons u texts => simp [join_cons_cons, h]

/-- Joined texts end as the last one of them does. -/
theorem endsOutside_join {sep : Text} {texts : List Text}
    (h : ∀ t ∈ texts, t ≠ [] ∧ EndsOutside cls t) : EndsOutside cls (join sep texts) := by
  induction texts with
  | nil => simp [EndsOutside]
  | cons s texts ih =>
    obtain ⟨hs, htexts⟩ := List.forall_mem_cons.mp h
    cases texts with
    | nil => simpa using hs.2
    | cons t texts =>
      have hne := join_ne_nil sep (htexts t List.mem_cons_self).1 texts
      rw [join_cons_cons, endsOutside_append (by simp [hne]), endsOutside_append hne]
      exact ih htexts

end JsfxSugar.Text
