import JsfxSugar.Proofs.Bytes
import JsfxSugar.Proofs.Text
import JsfxSugar.Range.Header
import Mathlib.Data.List.Range

/-! The grammar of the openings of range blocks. A header is read off a text exactly when the text
begins with an opening whose bounds are fine. -/

namespace JsfxSugar

theorem Text.length_bytes (t : Text) : t.bytes.length = t.byteLength := by
  induction t with
  | nil => rfl
  | cons c t ih =>
    rw [Text.bytes, List.flatMap_cons, List.length_append, String.length_utf8EncodeChar]
    exact congrArg (c.utf8Size + ·) ih

namespace Range

/-- The characters that loop names begin with. -/
def BeginsName (c : Char) : Prop :=
  ('A' ≤ c ∧ c ≤ 'Z') ∨ ('a' ≤ c ∧ c ≤ 'z') ∨ c = '_'

def IsDecimal (c : Char) : Prop :=
  '0' ≤ c ∧ c ≤ '9'

/-- The characters that loop names go on with. -/
def ContinuesName (c : Char) : Prop :=
  BeginsName c ∨ IsDecimal c ∨ c = '.'

/-- A loop name: a letter or `_`, then letters, digits, `_` and `.`. -/
inductive IsLoopName : Text → Prop
  | mk (c : Char) (rest : Text) (hc : BeginsName c) (hrest : ∀ d ∈ rest, ContinuesName d) :
    IsLoopName (c :: rest)

/-- An integer literal, digits with at most a minus sign before them, and the integer that it stands
for. -/
inductive Denotes : Text → Int → Prop
  | plain (digits : Text) (hne : digits ≠ []) (hdigits : ∀ c ∈ digits, IsDecimal c) :
    Denotes digits (Text.toNat digits)
  | minus (digits : Text) (hne : digits ≠ []) (hdigits : ∀ c ∈ digits, IsDecimal c) :
    Denotes ('-' :: digits) (-(Text.toNat digits : Int))

/-- The integers of 64 bits. -/
def Is64Bit (z : Int) : Prop :=
  -9223372036854775808 ≤ z ∧ z ≤ 9223372036854775807

instance (z : Int) : Decidable (Is64Bit z) :=
  inferInstanceAs (Decidable (_ ∧ _))

variable {t r name literal : Text} {opening opening' : Opening} {start stop z z' : Int} {c : Char}

/-- The text begins with an opening whose literals stand for these bounds. -/
structure Begins (t : Text) (opening : Opening) (start stop : Int) : Prop where
  isPrefix : opening.source <+: t
  name : IsLoopName opening.name
  first : Denotes opening.first start
  last : Denotes opening.last stop

theorem isNameStart_iff : isNameStart c = true ↔ BeginsName c := by
  have hstart : isNameStart c = (decide (c.val ≥ 'A'.val ∧ c.val ≤ 'Z'.val) ||
      (decide (c.val ≥ 'a'.val) && decide (c.val ≤ 'z'.val)) || decide (c = '_')) := rfl
  simp [hstart, BeginsName, Char.le_def, or_assoc]

theorem isDigit_iff : c.isDigit = true ↔ IsDecimal c := by
  simp [Char.isDigit, IsDecimal, Char.le_def]

theorem isNameChar_iff : isNameChar c = true ↔ ContinuesName c := by
  simp [isNameChar, Char.isAlphanum, ContinuesName, ← isNameStart_iff, ← isDigit_iff, isNameStart]
  tauto

theorem name?_eq_some_iff : name? t = some (name, r) ↔
    t = name ++ r ∧ IsLoopName name ∧ Text.StartsOutside isNameChar r := by
  constructor
  · intro h
    refine ⟨eq_append_of_name? h, ?_⟩
    cases t with
    | nil => simp [name?] at h
    | cons c t =>
      simp only [name?] at h
      split at h
      · rename_i hc
        simp only [Option.some.injEq, Prod.mk.injEq] at h
        obtain ⟨rfl, rfl⟩ := h
        refine ⟨.mk c _ (isNameStart_iff.mp hc) fun d hd => ?_, Text.startsOutside_dropWhile⟩
        exact isNameChar_iff.mp (List.all_eq_true.mp List.all_takeWhile d hd)
      · simp at h
  · rintro ⟨rfl, ⟨c, rest, hc, hrest⟩, hr⟩
    have hrun : ∀ d ∈ rest, isNameChar d = true := fun d hd => isNameChar_iff.mpr (hrest d hd)
    rw [List.cons_append, name?, if_pos (isNameStart_iff.mpr hc),
      Text.takeWhile_append_of_startsOutside hrun hr, Text.dropWhile_append_of_startsOutside hrun hr]

theorem not_mem_of_isDecimal {digits : Text} (h : ∀ c ∈ digits, IsDecimal c) : '-' ∉ digits := by
  intro hmem
  exact absurd (isDigit_iff.mpr (h '-' hmem)) (by decide)

theorem skip?_minus_eq_none {digits : Text} (hne : digits ≠ []) (h : ∀ c ∈ digits, IsDecimal c)
    (r : Text) : Text.skip? ['-'] (digits ++ r) = none := by
  obtain ⟨d, digits, rfl⟩ := List.exists_cons_of_ne_nil hne
  have hd : '-' ≠ d := by
    rintro rfl
    exact not_mem_of_isDecimal h List.mem_cons_self
  simp [Text.skip?, hd]

theorem integer?_eq_some_iff : integer? t = some (literal, r) ↔
    t = literal ++ r ∧ (∃ z, Denotes literal z) ∧ Text.StartsOutside Char.isDigit r := by
  constructor
  · intro h
    refine ⟨eq_append_of_integer? h, ?_⟩
    unfold integer? at h
    split at h
    · obtain ⟨⟨digits, r'⟩, hrun, hliteral⟩ := Option.map_eq_some_iff.mp h
      simp only [Prod.mk.injEq] at hliteral
      obtain ⟨rfl, rfl⟩ := hliteral
      obtain ⟨-, hne, hdigits, hr⟩ := Text.run?_eq_some_iff.mp hrun
      exact ⟨⟨_, .minus digits hne fun c hc => isDigit_iff.mp (hdigits c hc)⟩, hr⟩
    · obtain ⟨-, hne, hdigits, hr⟩ := Text.run?_eq_some_iff.mp h
      exact ⟨⟨_, .plain literal hne fun c hc => isDigit_iff.mp (hdigits c hc)⟩, hr⟩
  · rintro ⟨rfl, ⟨z, hliteral⟩, hr⟩
    cases hliteral with
    | plain digits hne hdigits =>
      rw [integer?, skip?_minus_eq_none hne hdigits]
      exact Text.run?_append hne (fun c hc => isDigit_iff.mpr (hdigits c hc)) hr
    | minus digits hne hdigits =>
      have hskip : Text.skip? ['-'] ('-' :: (digits ++ r)) = some (digits ++ r) :=
        Text.skip?_append ['-'] (digits ++ r)
      have hrun := Text.run?_append hne (fun c hc => isDigit_iff.mpr (hdigits c hc)) hr
      simp only [integer?, List.cons_append, hskip, hrun, Option.map_some]

/-- A literal stands for one integer only. -/
theorem Denotes.unique (h : Denotes literal z) (h' : Denotes literal z') : z = z' := by
  cases h with
  | plain digits hne hdigits =>
    cases h' with
    | plain => rfl
    | minus => exact absurd List.mem_cons_self (not_mem_of_isDecimal hdigits)
  | minus digits hne hdigits =>
    cases h' with
    | plain _ _ hdigits' => exact absurd List.mem_cons_self (not_mem_of_isDecimal hdigits')
    | minus => rfl

/-- A literal is taken for the integer that it stands for, when that has 64 bits. -/
theorem Denotes.bound?_eq (h : Denotes literal z) :
    bound? literal = if Is64Bit z then some z else none := by
  have hsize : UInt64.size / 2 = 9223372036854775808 := rfl
  cases h with
  | plain _ hne hdigits =>
    have hskip := skip?_minus_eq_none hne hdigits []
    rw [List.append_nil] at hskip
    have hfits : Is64Bit literal.toNat ↔ literal.toNat ≤ 9223372036854775807 := by
      unfold Is64Bit
      omega
    by_cases hle : literal.toNat ≤ 9223372036854775807 <;>
      simp [bound?, hskip, Text.toNatUpTo?_eq, hsize, hfits, hle]
  | minus digits hne hdigits =>
    have hskip : Text.skip? ['-'] ('-' :: digits) = some digits := Text.skip?_append ['-'] digits
    have hfits : Is64Bit (-(digits.toNat : Int)) ↔ digits.toNat ≤ 9223372036854775808 := by
      unfold Is64Bit
      omega
    by_cases hle : digits.toNat ≤ 9223372036854775808 <;>
      simp [bound?, hskip, Text.toNatUpTo?_eq, hsize, hfits, hle]

namespace Opening

theorem read?_eq_some_iff : read? t = some (opening, r) ↔
    t = opening.source ++ r ∧ IsLoopName opening.name ∧ (∃ start, Denotes opening.first start) ∧
      ∃ stop, Denotes opening.last stop := by
  constructor
  · intro h
    refine ⟨eq_append_of_read? h, ?_⟩
    simp only [read?, Option.bind_eq_bind, Option.bind_eq_some_iff, Prod.exists,
      Option.pure_def, Option.some.injEq, Prod.mk.injEq] at h
    obtain ⟨_, -, name, _, hname, _, -, first, _, hfirst, _, -, last, _, hlast, _, -, rfl, -⟩ := h
    exact ⟨(name?_eq_some_iff.mp hname).2.1, (integer?_eq_some_iff.mp hfirst).2.1,
      (integer?_eq_some_iff.mp hlast).2.1⟩
  · rintro ⟨rfl, hname, hfirst, hlast⟩
    have hread : ∀ u, name? (opening.name ++ (['='] ++ u)) = some (opening.name, ['='] ++ u) :=
      fun u => name?_eq_some_iff.mpr ⟨rfl, hname, by simp [isNameChar]⟩
    have hstart : ∀ u, integer? (opening.first ++ ([','] ++ u)) = some (opening.first, [','] ++ u) :=
      fun u => integer?_eq_some_iff.mpr ⟨rfl, hfirst, by simp⟩
    have hstop : ∀ u, integer? (opening.last ++ (['\x7d'] ++ u)) =
        some (opening.last, ['\x7d'] ++ u) :=
      fun u => integer?_eq_some_iff.mpr ⟨rfl, hlast, by simp⟩
    simp only [source, read?, List.append_assoc, Text.skip?_append, Option.bind_eq_bind,
      Option.bind_some, hread, hstart, hstop, Option.pure_def]

theorem name_header {header : Header} (h : opening.header = .ok header) :
    header.name = opening.name := by
  unfold Opening.header at h
  split at h
  · simp at h
  · simp at h
  · split at h
    · exact congrArg Header.name (Except.ok.inj h).symm
    · simp at h

theorem begins_iff : Begins t opening start stop ↔
    (∃ r, read? t = some (opening, r)) ∧ Denotes opening.first start ∧
      Denotes opening.last stop := by
  constructor
  · rintro ⟨⟨r, rfl⟩, hname, hfirst, hlast⟩
    exact ⟨⟨r, read?_eq_some_iff.mpr ⟨rfl, hname, ⟨_, hfirst⟩, _, hlast⟩⟩, hfirst, hlast⟩
  · rintro ⟨⟨r, hread⟩, hfirst, hlast⟩
    obtain ⟨rfl, hname, -⟩ := read?_eq_some_iff.mp hread
    exact ⟨List.prefix_append _ _, hname, hfirst, hlast⟩

end Opening

/-- A text begins with one opening at most. -/
theorem Begins.unique {start' stop' : Int} (h : Begins t opening start stop)
    (h' : Begins t opening' start' stop') : opening = opening' ∧ start = start' ∧ stop = stop' := by
  obtain ⟨⟨r, hread⟩, hfirst, hlast⟩ := Opening.begins_iff.mp h
  obtain ⟨⟨r', hread'⟩, hfirst', hlast'⟩ := Opening.begins_iff.mp h'
  obtain ⟨rfl, -⟩ := Prod.mk.inj (Option.some.inj (hread.symm.trans hread'))
  exact ⟨rfl, hfirst.unique hfirst', hlast.unique hlast'⟩

namespace Header

/-- The bounds have 64 bits, and the range is not too long. -/
def Fits (start stop : Int) : Prop :=
  Is64Bit start ∧ Is64Bit stop ∧ (start - stop).natAbs < 1048576

/-- What is read off a text that begins with an opening. -/
theorem parse_of_begins (h : Begins t opening start stop) :
    (Fits start stop →
      parse t = .ok (some (⟨opening.name, start, stop⟩, opening.source.bytes.length))) ∧
    (¬ Fits start stop → parse t =
      .error (.rangeBound opening.name (if Is64Bit start then opening.last else opening.first))) := by
  obtain ⟨⟨r, hread⟩, hfirst, hlast⟩ := Opening.begins_iff.mp h
  simp only [parse, hread, Opening.header, hfirst.bound?_eq, hlast.bound?_eq, Text.length_bytes,
    Fits, maxCopies]
  by_cases hstart : Is64Bit start
  · by_cases hstop : Is64Bit stop
    · by_cases hspan : (start - stop).natAbs < 1048576 <;> simp [hstart, hstop, hspan, Except.map]
    · simp [hstart, hstop, Except.map]
  · simp [hstart, Except.map]

theorem begins_or_parse_eq_none (t : Text) :
    (∃ opening start stop, Begins t opening start stop) ∨ parse t = .ok none := by
  cases hread : Opening.read? t with
  | none => exact Or.inr (by rw [parse, hread])
  | some out =>
    obtain ⟨-, -, ⟨start, hfirst⟩, stop, hlast⟩ := Opening.read?_eq_some_iff.mp hread
    exact Or.inl ⟨out.1, start, stop, Opening.begins_iff.mpr ⟨⟨out.2, hread⟩, hfirst, hlast⟩⟩

theorem parse_eq_none_iff :
    parse t = .ok none ↔ ∀ opening start stop, ¬ Begins t opening start stop := by
  constructor
  · intro hnone opening start stop h
    obtain ⟨hfits, hbad⟩ := parse_of_begins h
    by_cases hfit : Fits start stop
    · simp [hfits hfit] at hnone
    · simp [hbad hfit] at hnone
  · intro hnone
    rcases begins_or_parse_eq_none t with ⟨_, _, _, h⟩ | hparse
    · exact absurd h (hnone _ _ _)
    · exact hparse

variable {header : Header} {length : Nat} {fault : Fault}

theorem parse_eq_some_iff : parse t = .ok (some (header, length)) ↔
    ∃ opening, Begins t opening header.start header.stop ∧ Fits header.start header.stop ∧
      header.name = opening.name ∧ length = opening.source.bytes.length := by
  constructor
  · intro hsome
    rcases begins_or_parse_eq_none t with ⟨opening, start, stop, h⟩ | hnone
    · obtain ⟨hfits, hbad⟩ := parse_of_begins h
      by_cases hfit : Fits start stop
      · rw [hfits hfit] at hsome
        simp only [Except.ok.injEq, Option.some.injEq, Prod.mk.injEq] at hsome
        obtain ⟨rfl, rfl⟩ := hsome
        exact ⟨opening, h, hfit, rfl, rfl⟩
      · simp [hbad hfit] at hsome
    · simp [hnone] at hsome
  · rintro ⟨opening, h, hfit, hname, rfl⟩
    rw [(parse_of_begins h).1 hfit, ← hname]

theorem parse_eq_error_iff : parse t = .error fault ↔
    ∃ opening start stop, Begins t opening start stop ∧ ¬ Fits start stop ∧
      fault = .rangeBound opening.name
        (if Is64Bit start then opening.last else opening.first) := by
  constructor
  · intro herror
    rcases begins_or_parse_eq_none t with ⟨opening, start, stop, h⟩ | hnone
    · obtain ⟨hfits, hbad⟩ := parse_of_begins h
      by_cases hfit : Fits start stop
      · simp [hfits hfit] at herror
      · rw [hbad hfit] at herror
        exact ⟨opening, start, stop, h, hfit, (Except.error.inj herror).symm⟩
    · simp [hnone] at herror
  · rintro ⟨opening, start, stop, h, hfit, rfl⟩
    exact (parse_of_begins h).2 hfit

theorem values_eq (header : Header) :
    header.values = (List.range ((header.start - header.stop).natAbs + 1)).map fun (i : Nat) =>
      if header.start ≤ header.stop then header.start + i else header.start - i := by
  unfold values
  split <;> rfl

/-- The loop values run from the start to the stop, one by one. -/
theorem values_spec (header : Header) :
    header.values.length = (header.start - header.stop).natAbs + 1 ∧
    header.values.head? = some header.start ∧ header.values.getLast? = some header.stop ∧
    header.values.IsChain (fun v w => if header.start ≤ header.stop then w = v + 1 else w = v - 1) ∧
    ∀ v ∈ header.values, min header.start header.stop ≤ v ∧ v ≤ max header.start header.stop := by
  rw [values_eq]
  generalize hspan : (header.start - header.stop).natAbs = span
  refine ⟨by simp, ?_, ?_, ?_, ?_⟩
  · simp [List.head?_range]
  · simp only [List.getLast?_map, List.getLast?_range, Nat.add_one_ne_zero, if_false, Option.map_some]
    congr 1
    split <;> omega
  · rw [List.isChain_map, List.isChain_range_succ]
    intro i hi
    split <;> omega
  · rw [List.forall_mem_map]
    intro i hi
    rw [List.mem_range] at hi
    split <;> omega

/-- A header is read off a text exactly when the text begins with an opening whose bounds have 64 bits
and are not too far apart; it is then the header of that opening, and no other opening begins the
text. A text that begins with an opening whose bounds are bad is at fault, for its first literal if
that one is too large and else for its last. No other text yields anything. The loop values of a
header that is read run from its first bound to its last, one by one. -/
theorem parse_grammar (t : Text) :
    (∀ header length, parse t = .ok (some (header, length)) ↔
      ∃ opening, Begins t opening header.start header.stop ∧ Fits header.start header.stop ∧
        header.name = opening.name ∧ length = opening.source.bytes.length) ∧
    (∀ opening opening' start start' stop stop', Begins t opening start stop →
      Begins t opening' start' stop' → opening = opening' ∧ start = start' ∧ stop = stop') ∧
    (∀ fault, parse t = .error fault ↔
      ∃ opening start stop, Begins t opening start stop ∧ ¬ Fits start stop ∧
        fault = .rangeBound opening.name
          (if Is64Bit start then opening.last else opening.first)) ∧
    (parse t = .ok none ↔ ∀ opening start stop, ¬ Begins t opening start stop) ∧
    ∀ header length, parse t = .ok (some (header, length)) →
      header.values.length = (header.start - header.stop).natAbs + 1 ∧
      header.values.head? = some header.start ∧ header.values.getLast? = some header.stop ∧
      header.values.IsChain
        (fun v w => if header.start ≤ header.stop then w = v + 1 else w = v - 1) ∧
      ∀ v ∈ header.values, Is64Bit v := by
  refine ⟨fun _ _ => parse_eq_some_iff, fun _ _ _ _ _ _ => Begins.unique,
    fun _ => parse_eq_error_iff, parse_eq_none_iff, fun header length h => ?_⟩
  obtain ⟨opening, -, ⟨hstart, hstop, -⟩, -⟩ := parse_eq_some_iff.mp h
  obtain ⟨hlength, hhead, hlast, hchain, hbetween⟩ := header.values_spec
  refine ⟨hlength, hhead, hlast, hchain, fun v hv => ?_⟩
  obtain ⟨hlow, hhigh⟩ := hbetween v hv
  unfold Is64Bit at hstart hstop ⊢
  omega

/-- A range that runs down to the lowest bound. -/
theorem parse_grammar_lowest :
    let t := "{#i.1=-9223372036854775806,-9223372036854775808}x".toList
    let header : Header := ⟨"i.1".toList, -9223372036854775806, -9223372036854775808⟩
    parse t = .ok (some (header, 48)) ∧ header.values.length = 3 ∧
      (∀ v ∈ header.values, Is64Bit v) ∧
      ∃ opening, Begins t opening header.start header.stop ∧
        ∀ other start stop, Begins t other start stop → opening = other := by
  intro t header
  obtain ⟨hsome, hunique, -, -, hvalues⟩ := parse_grammar t
  have hparse : parse t = .ok (some (header, 48)) := by decide +kernel
  obtain ⟨opening, hbegins, -⟩ := (hsome header 48).mp hparse
  obtain ⟨hlength, -, -, -, hbits⟩ := hvalues header 48 hparse
  exact ⟨hparse, hlength, hbits, opening, hbegins,
    fun other start stop hother => (hunique _ _ _ _ _ _ hbegins hother).1⟩

end Header

end Range

end JsfxSugar
