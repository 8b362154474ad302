import JsfxSugar.Proofs.Dispatch.Replacement

/-! Which declarations are left when the call sites are numbered. A call site takes the word after its
braces for its function, and when that word is the keyword of a declaration, the declaration is lost;
no other declaration is, and none comes about. -/

namespace JsfxSugar.Dispatch

variable {s t u r : Text} {c : Char} {d : Declaration}

namespace Declaration

/-- The declaration that begins at the front of a text. -/
def here? (t : Text) : Option Declaration :=
  (pattern.read? t).map (·.1)

theorem here?_eq_some_iff : here? t = some d ↔ ∃ r, pattern.read? t = some (d, r) := by
  simp [here?]

theorem here?_eq_none_iff : here? t = none ↔ pattern.read? t = none := by
  simp [here?]

/-- The characters before the brace of a declaration. -/
def isLead (c : Char) : Bool :=
  c ∈ keyword || Text.isBlank c

theorem isLead_of_read? (h : pattern.read? t = some (d, r)) :
    (∃ rest, t = d.lead ++ '{' :: rest) ∧ ∀ c ∈ d.lead, isLead c = true := by
  obtain ⟨rfl, hgap, -⟩ := read?_eq_some_iff.mp h
  have hkeyword : ∀ c ∈ keyword, isLead c = true := List.all_eq_true.mp (by decide)
  refine ⟨⟨d.tail ++ r, by simp [source_eq]⟩, List.forall_mem_append.mpr ⟨hkeyword, fun c hc => ?_⟩⟩
  simp [isLead, hgap c hc]

theorem read?_eq_none_of_head? (h : t.head? ≠ some 'f') : pattern.read? t = none := by
  cases hread : pattern.read? t with
  | none => rfl
  | some out =>
    obtain ⟨⟨rest, rfl⟩, -⟩ := isLead_of_read? hread
    exact absurd rfl h

/-- No declaration begins in a text without the first letter of its keyword. -/
theorem hits_append_of_not_mem (h : 'f' ∉ s) : pattern.hits (s ++ u) = pattern.hits u := by
  apply Pattern.hits_append_of_forall
  intro w hw hne
  apply read?_eq_none_of_head?
  rw [List.head?_append_of_ne_nil _ hne]
  exact fun hhead => h (hw.subset (List.mem_of_head? hhead))

/-- No declaration begins in a text that holds no brace and does not end as the front of a declaration
may. -/
theorem read?_append_eq_none (hne : s ≠ []) (hbrace : '{' ∉ s) (hends : Text.EndsOutside isLead s)
    (u : Text) : pattern.read? (s ++ u) = none := by
  cases hread : pattern.read? (s ++ u) with
  | none => rfl
  | some out =>
    obtain ⟨⟨rest, heq⟩, hlead⟩ := isLead_of_read? hread
    obtain ⟨c, hmem, hc⟩ := hends.exists_mem hne
    obtain ⟨run, d, more, rfl, hrun, hd⟩ := Text.exists_eq_append_cons hc hmem
    rw [List.append_assoc, List.cons_append] at heq
    obtain ⟨-, rfl, -⟩ := Text.eq_of_append_cons_eq hrun hlead hd (by decide) heq
    exact absurd (by simp) hbrace

theorem hits_append_of_endsOutside (hbrace : '{' ∉ s) (hends : Text.EndsOutside isLead s) :
    pattern.hits (s ++ u) = pattern.hits u := by
  apply Pattern.hits_append_of_forall
  intro w hw hne
  exact read?_append_eq_none hne (fun hmem => hbrace (hw.subset hmem)) (hends.of_isSuffix hw) u

/-- Declarations do not overlap, so that each is found wherever it begins. -/
theorem hits_cons (c : Char) (t : Text) :
    pattern.hits (c :: t) = (here? (c :: t)).toList ++ pattern.hits t := by
  cases hread : pattern.read? (c :: t) with
  | none =>
    rw [Pattern.hits_of_read?_eq_none hread, here?, hread]
    rfl
  | some out =>
    obtain ⟨d, r⟩ := out
    rw [Pattern.hits_of_read? hread, here?, hread]
    obtain ⟨heq, hgap, -⟩ := read?_eq_some_iff.mp hread
    obtain ⟨word, hword, hletter⟩ : ∃ word, keyword = 'f' :: word ∧ 'f' ∉ word :=
      ⟨_, rfl, by decide⟩
    have htail : t = (word ++ (d.gap ++ ['{'])) ++ (d.tail ++ r) := by
      rw [source_eq, lead, hword] at heq
      simpa using (List.cons.inj heq).2
    have hfirst : 'f' ∉ word ++ (d.gap ++ ['{']) := by
      have hblank : 'f' ∉ d.gap := hgap.not_mem (by decide)
      simp [hletter, hblank]
    have hends : Text.EndsOutside isLead d.tail := by
      have hconcat : d.tail = (d.group.source ++ '}' :: (d.space ++ '(' :: d.list)) ++ [')'] := by
        simp [tail]
      rw [hconcat, Text.endsOutside_concat]
      decide
    rw [htail, hits_append_of_not_mem hfirst,
      hits_append_of_endsOutside (brace_not_mem hread).2 hends]
    rfl

theorem hits_sublist_append (s u : Text) : (pattern.hits u).Sublist (pattern.hits (s ++ u)) := by
  induction s with
  | nil => exact List.Sublist.refl _
  | cons c s ih =>
    rw [List.cons_append, hits_cons]
    exact ih.trans (List.sublist_append_right _ _)

/-- A declaration of a text in which markers are replaced has stood there from the start. -/
theorem here?_of_here?_substitute {α : Type} {p : Pattern α} {single : α → Text}
    (hread : p.read? (c :: t) = none) (hpieces : ∀ a ∈ p.hits t, IsReplacement (single a))
    (h : here? (c :: p.substitute single t) = some d) : here? (c :: t) = some d := by
  obtain ⟨r, hd⟩ := here?_eq_some_iff.mp h
  obtain ⟨heq, hparts⟩ := read?_eq_some_iff.mp hd
  rw [← Pattern.substitute_of_read?_eq_none hread] at heq
  rw [← Pattern.hits_of_read?_eq_none hread] at hpieces
  obtain ⟨u, hu, -, -⟩ := Pattern.segments_of_substitute_eq_append heq fun a ha s hs hne =>
    not_isPrefix hd (hpieces a ha) hs hne
  exact here?_eq_some_iff.mpr ⟨u, read?_eq_some_iff.mpr ⟨hu, hparts⟩⟩

/-- Replacing markers brings about no declaration. -/
theorem hits_substitute_sublist {α : Type} {p : Pattern α} {single : α → Text}
    (hpieces : ∀ a ∈ p.hits t, IsReplacement (single a))
    (hinert : ∀ a ∈ p.hits t, '{' ∉ single a ∧ Text.EndsOutside isLead (single a)) :
    (pattern.hits (p.substitute single t)).Sublist (pattern.hits t) := by
  induction t using p.scan_induction with
  | nil => simp
  | plain c t hc ih =>
    rw [Pattern.hits_of_read?_eq_none hc] at hpieces hinert
    rw [Pattern.substitute_of_read?_eq_none hc, hits_cons, hits_cons]
    apply List.Sublist.append ?_ (ih hpieces hinert)
    cases hhere : here? (c :: p.substitute single t) with
    | none => simp
    | some d => rw [here?_of_here?_substitute hc hpieces hhere]
  | hit t a r ht ih =>
    rw [Pattern.hits_of_read? ht, List.forall_mem_cons] at hpieces hinert
    rw [Pattern.substitute_of_read? ht, hits_append_of_endsOutside hinert.1.1 hinert.1.2,
      p.eq_append_of_read? ht]
    exact (ih hpieces.2 hinert.2).trans (hits_sublist_append _ r)

end Declaration

/-- The declaration whose keyword a call site takes for its function, when this text comes after
it. -/
def CallSite.taken? (m : CallSite) (after : Text) : Option Declaration :=
  if keyword <:+ m.function then Declaration.here? (keyword ++ after) else none

/-- The declarations whose keywords are taken by call sites, in their order. -/
def takenDeclarations : List (Segment CallSite) → List Declaration
  | [] => []
  | .plain _ :: after => takenDeclarations after
  | .hit m :: after =>
    (m.taken? (after.flatMap (Segment.text CallSite.source))).toList ++ takenDeclarations after

namespace Declaration

variable {name : Text}

/-- A word begins a declaration only when it is the keyword. -/
theorem here?_append (hname : ∀ c ∈ name, isNameChar c = true)
    (hr : Text.StartsOutside isNameChar r) :
    here? (name ++ r) = if name = keyword then here? (keyword ++ r) else none := by
  split
  · rename_i heq
    rw [heq]
  · rename_i hne
    rw [here?_eq_none_iff]
    cases hread : pattern.read? (name ++ r) with
    | none => rfl
    | some out =>
      obtain ⟨d, r'⟩ := out
      obtain ⟨heq, hgap, -⟩ := read?_eq_some_iff.mp hread
      have hsource : d.source ++ r' =
          keyword ++ (d.gap ++ '{' :: (d.group.source ++ '}' :: (d.space ++ '(' :: (d.list ++
            ')' :: r')))) := by
        simp [source]
      rw [hsource] at heq
      have hrest := hgap.startsOutside_name (r := '{' :: (d.group.source ++ '}' :: (d.space ++
        '(' :: (d.list ++ ')' :: r')))) (Text.startsOutside_cons.mpr (by decide))
      have htake := congrArg (List.takeWhile isNameChar) heq
      rw [Text.takeWhile_append_of_startsOutside hname hr,
        Text.takeWhile_append_of_startsOutside isName_keyword.forall_mem hrest] at htake
      exact absurd htake hne

theorem hits_name (hname : ∀ c ∈ name, isNameChar c = true) (hr : Text.StartsOutside isNameChar r) :
    pattern.hits (name ++ r) =
      (if keyword <:+ name then here? (keyword ++ r) else none).toList ++ pattern.hits r := by
  induction name with
  | nil =>
    have hnil : ¬ keyword <:+ [] := by decide
    rw [if_neg hnil]
    rfl
  | cons c name ih =>
    have hname' : ∀ d ∈ name, isNameChar d = true := fun d hd => hname d (List.mem_cons_of_mem c hd)
    rw [List.cons_append, hits_cons, ← List.cons_append, here?_append hname hr, ih hname']
    by_cases heq : c :: name = keyword
    · have hshort : ¬ keyword <:+ name := by
        intro hsuffix
        have hlength := hsuffix.length_le
        rw [← heq, List.length_cons] at hlength
        omega
      rw [if_pos heq, if_neg hshort, if_pos (heq ▸ List.suffix_rfl)]
      rfl
    · by_cases hsuffix : keyword <:+ name
      · rw [if_neg heq, if_pos hsuffix, if_pos (hsuffix.trans (List.suffix_cons c name))]
        rfl
      · have hlong : ¬ keyword <:+ c :: name := by
          rw [List.suffix_cons_iff, not_or]
          exact ⟨Ne.symm heq, hsuffix⟩
        rw [if_neg heq, if_neg hsuffix, if_neg hlong]
        rfl

/-- Of what a call site is written with, only its function can begin a declaration. -/
theorem hits_callSite {m : CallSite} (h : CallSite.pattern.read? t = some (m, r)) :
    pattern.hits t = (m.taken? r).toList ++ pattern.hits r := by
  obtain ⟨rfl, hgroup, hgap, hfunction, hr⟩ := CallSite.read?_eq_some_iff.mp h
  have hsource : m.source ++ r =
      ['{'] ++ ((m.group.source ++ ['}']) ++ (m.gap ++ (m.function ++ r))) := by
    simp [CallSite.source]
  have hbrace : '{' ∉ m.group.source ++ ['}'] := by
    have hgroup : '{' ∉ m.group.source := hgroup.not_mem (by decide)
    simp [hgroup]
  have hends : Text.EndsOutside isLead (m.group.source ++ ['}']) :=
    Text.endsOutside_concat.mpr (by decide)
  have hblank : 'f' ∉ m.gap := hgap.not_mem (by decide)
  rw [hsource, hits_append_of_not_mem (by decide), hits_append_of_endsOutside hbrace hends,
    hits_append_of_not_mem hblank, hits_name hfunction.forall_mem hr]
  rfl

/-- No call site begins in a declaration. -/
theorem read?_callSite_eq_none (h : pattern.read? t = some (d, r)) (hs : s <:+ d.source)
    (hne : s ≠ []) (u : Text) : CallSite.pattern.read? (s ++ u) = none := by
  cases hread : CallSite.pattern.read? (s ++ u) with
  | none => rfl
  | some out =>
    obtain ⟨m, r'⟩ := out
    obtain ⟨heq, hgroup, hgap, hfunction, -⟩ := CallSite.read?_eq_some_iff.mp hread
    obtain ⟨-, -, hdeclared, hspace, -⟩ := read?_eq_some_iff.mp h
    obtain ⟨before, hbefore⟩ := hs
    -- The only brace that opens is that of the declaration's own group.
    obtain ⟨hlead, htail⟩ := brace_not_mem h
    obtain ⟨first, s', rfl⟩ := List.exists_cons_of_ne_nil hne
    obtain rfl : first = '{' := by
      have hhead := congrArg List.head? heq
      simpa [CallSite.source] using hhead
    have hsplit : d.lead ++ '{' :: d.tail = before ++ '{' :: s' := by
      rw [hbefore, source_eq]
    obtain ⟨-, -, hs'⟩ := (List.append_cons_inj_of_notMem hlead htail).mp hsplit
    have hgroups : d.group.source ++ '}' :: (d.space ++ '(' :: (d.list ++ ')' :: u)) =
        m.group.source ++ '}' :: (m.gap ++ (m.function ++ r')) := by
      rw [← hs', List.cons_append] at heq
      simpa [tail, CallSite.source] using (List.cons.inj heq).2
    obtain ⟨-, -, hafter⟩ := Text.eq_of_append_cons_eq hdeclared.isPaddedChar hgroup.isPaddedChar
      (by decide) (by decide) hgroups
    obtain ⟨e, name, hname, he⟩ := hfunction.exists_cons
    rw [hname, List.cons_append] at hafter
    obtain ⟨-, rfl, -⟩ := Text.eq_of_append_cons_eq hspace hgap (by decide)
      (isBlank_eq_false_of_isNameChar he) hafter
    exact absurd he (by decide)

theorem here?_substitute_callSite {single : CallSite → Text}
    (hread : CallSite.pattern.read? (c :: t) = none) (h : here? (c :: t) = some d) :
    here? (c :: CallSite.pattern.substitute single t) = some d := by
  obtain ⟨r, hd⟩ := here?_eq_some_iff.mp h
  obtain ⟨heq, hparts⟩ := read?_eq_some_iff.mp hd
  rw [← Pattern.substitute_of_read?_eq_none hread, heq, Pattern.substitute_append_of_forall]
  · exact here?_eq_some_iff.mpr ⟨_, read?_eq_some_iff.mpr ⟨rfl, hparts⟩⟩
  · exact fun w hw hne => read?_callSite_eq_none hd hw hne r

end Declaration

theorem CallSite.endsOutside_written {cls : Char → Bool} (hcls : cls '/' = false)
    (calls : List CallSite) (m : CallSite) : Text.EndsOutside cls (m.written calls) := by
  have hconcat : m.written calls =
      (Text.ofNat (functionId calls m) ++ (['/', '*'] ++ (m.function ++ ['*']))) ++ ['/'] := by
    simp [written, Text.comment]
  rw [hconcat, Text.endsOutside_concat]
  exact hcls

theorem CallSite.brace_not_mem_written (calls : List CallSite) {m : CallSite}
    (h : IsName m.function) : '{' ∉ m.written calls := by
  have hdigits : '{' ∉ Text.ofNat (functionId calls m) := Text.not_mem_ofNat (by decide) _
  have hfunction : '{' ∉ m.function := h.not_mem (by decide)
  simp [written, Text.comment, hdigits, hfunction]

/-- Of the declarations of a text, numbering its call sites takes those whose keyword a call site
takes, and leaves the others in their order. -/
theorem Declaration.hits_numbered (calls : List CallSite) (t : Text) :
    let numbered := CallSite.pattern.substitute (CallSite.written calls) t
    (pattern.hits numbered).Sublist (pattern.hits t) ∧
      (pattern.hits t).Perm
        (pattern.hits numbered ++ takenDeclarations (CallSite.pattern.segments t)) := by
  have hfunctions : ∀ m ∈ CallSite.pattern.hits t, IsName m.function :=
    Pattern.forall_mem_hits CallSite.isName_of_read?
  constructor
  · apply hits_substitute_sublist
    · exact fun m _ => m.isReplacement_written calls
    · intro m hm
      exact ⟨CallSite.brace_not_mem_written calls (hfunctions m hm), CallSite.endsOutside_written (by decide) calls m⟩
  · induction t using CallSite.pattern.scan_induction with
    | nil => simp [takenDeclarations]
    | plain c t hc ih =>
      rw [Pattern.hits_of_read?_eq_none hc] at hfunctions
      have hhere : here? (c :: CallSite.pattern.substitute (CallSite.written calls) t) =
          here? (c :: t) := by
        cases hsource : here? (c :: t) with
        | some d => exact here?_substitute_callSite hc hsource
        | none =>
          cases hwritten : here? (c :: CallSite.pattern.substitute (CallSite.written calls) t) with
          | none => rfl
          | some d =>
            have hstood := here?_of_here?_substitute hc (fun m _ => m.isReplacement_written calls)
              hwritten
            rw [hsource] at hstood
            exact hstood.symm
      rw [Pattern.substitute_of_read?_eq_none hc, Pattern.segments_of_read?_eq_none hc, hits_cons,
        hits_cons, hhere, takenDeclarations, List.append_assoc]
      exact (ih hfunctions).append_left _
    | hit t m r ht ih =>
      rw [Pattern.hits_of_read? ht, List.forall_mem_cons] at hfunctions
      have hbrace := CallSite.brace_not_mem_written calls hfunctions.1
      rw [Pattern.substitute_of_read? ht, Pattern.segments_of_read? ht,
        hits_append_of_endsOutside hbrace (CallSite.endsOutside_written (by decide) calls m), hits_callSite ht,
        takenDeclarations]
      have htext : (CallSite.pattern.segments r).flatMap (Segment.text CallSite.source) = r :=
        CallSite.pattern.flatMap_text_segments r
      rw [htext]
      exact ((ih hfunctions.2).append_left _).trans (List.perm_append_comm_assoc _ _ _)

end JsfxSugar.Dispatch
