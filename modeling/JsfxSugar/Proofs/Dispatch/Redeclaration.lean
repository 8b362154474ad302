import JsfxSugar.Proofs.Dispatch.Signature

/-! Parameters declared anew as a signature shows them: the declaration is read again, and gives the
same parameters. -/

namespace JsfxSugar.Dispatch

variable {raw list : Text} {p : Parameter} {ps : List Parameter}

theorem isName_numberedName (index : Nat) : IsName (numberedName index) := by
  have hselector : isParameter selectorName = true := by decide
  exact Parameter.isName_atIndex hselector index

namespace Parameter

theorem ofDeclared_trim (raw : Text) : ofDeclared raw.trim = ofDeclared raw := by
  rw [ofDeclared, Text.trim_trim, ofDeclared]

/-- A parameter that has its place stays as it is there. -/
theorem placed_placed (p : Parameter) (index : Nat) :
    (p.placed index).placed index = p.placed index := by
  by_cases h : IsOwnName p.name
  · have hown : p.placed index = p := if_pos h
    rw [hown, hown]
  · have hnumbered : p.placed index = { p with name := numberedName index } := if_neg h
    have hnot : ¬ IsOwnName (numberedName index) := fun hown => hown.ne_numberedName index rfl
    rw [hnumbered]
    exact if_neg hnot

/-- A parameter is read off what shows it, whatever text declared it. -/
theorem ofDeclared_formal_placed (raw : Text) (index : Nat) :
    ofDeclared ((ofDeclared raw).placed index).formal = (ofDeclared raw).placed index := by
  by_cases h : IsOwnName (ofDeclared raw).name
  · have hown : (ofDeclared raw).placed index = ofDeclared raw := if_pos h
    rw [hown, formal_ofDeclared, ofDeclared_trim]
  · have hnumbered : ((ofDeclared raw).placed index).name = numberedName index :=
      congrArg name (if_neg h)
    have hname : IsName ((ofDeclared raw).placed index).name :=
      hnumbered ▸ isName_numberedName index
    exact (declares_formal hname).ofDeclared_eq

theorem atIndex_formal_atIndex (raw : Text) (index : Nat) :
    atIndex (atIndex raw index).formal index = atIndex raw index := by
  rw [atIndex_eq raw, atIndex_eq, ofDeclared_formal_placed, placed_placed]

/-- A blank before the mark belongs to the name, which is no numbered one then. -/
example : atIndex " arg7 *".toList 2 = ⟨"arg7 ".toList, true⟩ := by decide +kernel

theorem isListChar_of_mem_formal (h : IsName p.name) {c : Char} (hc : c ∈ p.formal) :
    isListChar c = true := by
  have hname : ∀ c ∈ p.name, isListChar c = true := by
    intro c hc
    simp [isListChar, h.forall_mem c hc]
  unfold formal at hc
  split at hc
  · rcases List.mem_append.mp hc with hc | hc
    · exact hname c hc
    · obtain rfl := List.mem_singleton.mp hc
      decide
  · exact hname c hc

end Parameter

theorem Declares.isParameter (h : Declares raw p) : isParameter raw = true := by
  have hdeclared := h.ofDeclared_eq
  obtain ⟨before, after, -, -, hname, -⟩ := h
  have hall : p.name.all isNameChar = true := List.all_eq_true.mpr hname.forall_mem
  simp [Dispatch.isParameter, hdeclared, hname.ne_nil, hall]

theorem Lists.forall_pieces (h : Lists list ps) (hne : ps ≠ []) :
    ∀ raw ∈ Text.pieces ',' list, isParameter raw = true := by
  induction h with
  | blank => exact absurd rfl hne
  | one declares =>
    rw [Text.pieces_of_not_mem declares.comma_not_mem]
    simpa using declares.isParameter
  | more declares rest rest_ne_nil ih =>
    rw [Text.pieces_append_cons, Text.pieces_of_not_mem declares.comma_not_mem]
    exact List.forall_mem_cons.mpr ⟨declares.isParameter, ih rest_ne_nil⟩

/-- What declares parameters is accepted as a list of them. -/
theorem Lists.isParameterList (h : Lists list ps) : isParameterList list = true := by
  rw [Dispatch.isParameterList, Bool.or_eq_true, List.all_eq_true, List.all_eq_true]
  cases ps with
  | nil =>
    cases h with
    | blank gap => exact Or.inl gap
  | cons p ps => exact Or.inr (h.forall_pieces (List.cons_ne_nil p ps))

theorem isListChar_of_mem_join_formal (h : ∀ p ∈ ps, IsName p.name) {c : Char}
    (hc : c ∈ Text.join [',', ' '] (ps.map Parameter.formal)) : isListChar c = true := by
  rcases Text.mem_join hc with hsep | ⟨t, ht, hmem⟩
  · have hall : [',', ' '].all isListChar = true := by decide
    exact List.all_eq_true.mp hall c hsep
  · obtain ⟨p, hp, rfl⟩ := List.mem_map.mp ht
    exact Parameter.isListChar_of_mem_formal (h p hp) hmem

namespace Declaration

variable {t r : Text} {d : Declaration}

/-- The declaration with its parameters as a signature shows them. -/
def redeclared (d : Declaration) : Declaration :=
  { d with list := Text.join [',', ' '] (d.parameters.map Parameter.formal) }

theorem lists_redeclared (hnames : ∀ p ∈ d.parameters, IsName p.name) :
    Lists d.redeclared.list d.parameters :=
  lists_join_formal hnames

/-- What a list declares stands at its places already, when the list declares it again. -/
theorem parameters_redeclared (hnames : ∀ p ∈ d.parameters, IsName p.name) :
    d.redeclared.parameters = d.parameters := by
  have hplaced : d.parameters =
      (declaredParameters d.list).mapIdx (fun index p => p.placed index) :=
    Parameter.parseList_eq d.list
  calc d.redeclared.parameters
      = d.parameters.mapIdx (fun index p => p.placed index) := by
        rw [parameters, Parameter.parseList_eq, (lists_redeclared hnames).declaredParameters_eq]
    _ = d.parameters := by
        rw [hplaced, List.mapIdx_mapIdx]
        simp only [Function.comp_def, Parameter.placed_placed]

theorem read?_redeclared (h : pattern.read? t = some (d, r)) (s : Text) :
    pattern.read? (d.redeclared.source ++ s) = some (d.redeclared, s) := by
  obtain ⟨-, hgap, hgroup, hspace, -⟩ := read?_eq_some_iff.mp h
  have hnames : ∀ p ∈ d.parameters, IsName p.name := (of_read? h).2
  exact read?_eq_some_iff.mpr ⟨rfl, hgap, hgroup, hspace,
    fun c hc => isListChar_of_mem_join_formal hnames hc, (lists_redeclared hnames).isParameterList⟩

/-- When the parameters of a declaration are put in place of its list as a signature shows them, with
commas between them, it is read as a declaration again, and of the same parameters. And whatever text
declares a parameter at an index, what shows the parameter declares the same one there. -/
theorem redeclared_round_trip :
    (∀ t, ∀ d ∈ pattern.hits t, d.redeclared.parameters = d.parameters ∧
      ∀ s, pattern.read? (d.redeclared.source ++ s) = some (d.redeclared, s)) ∧
    ∀ raw index, Parameter.atIndex (Parameter.atIndex raw index).formal index =
      Parameter.atIndex raw index := by
  refine ⟨fun t d hd => ⟨parameters_redeclared (isName_of_mem_hits hd).2, ?_⟩,
    Parameter.atIndex_formal_atIndex⟩
  have hread : ∀ d ∈ pattern.hits t, ∀ s,
      pattern.read? (d.redeclared.source ++ s) = some (d.redeclared, s) :=
    Pattern.forall_mem_hits read?_redeclared
  exact hread d hd

/-- Two parameters are renumbered, and the blanks around them go. -/
theorem redeclared_round_trip_ops :
    let t := "function {ops}( arg9* ,x\t, function_id )".toList
    let d : Declaration := ⟨[' '], ⟨[], "ops".toList, []⟩, [], " arg9* ,x\t, function_id ".toList⟩
    d ∈ pattern.hits t ∧ d.redeclared.list = "arg0*, x, arg2".toList ∧
      d.redeclared.parameters = d.parameters ∧
      pattern.read? (d.redeclared.source ++ ";".toList) = some (d.redeclared, ";".toList) := by
  intro t d
  have hd : d ∈ pattern.hits t := by decide +kernel
  obtain ⟨hmatch, -⟩ := redeclared_round_trip
  obtain ⟨hparameters, hread⟩ := hmatch t d hd
  exact ⟨hd, by decide +kernel, hparameters, hread _⟩

end Declaration

end JsfxSugar.Dispatch
