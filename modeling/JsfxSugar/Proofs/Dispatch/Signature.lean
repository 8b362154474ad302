import JsfxSugar.Proofs.Dispatch.Rewriting
import JsfxSugar.Proofs.Dispatch.Reading

/-! The parameters of a dispatcher: how a list declares them, by which names they go, and where these
names stand in the text of the dispatcher. No two of them clash unless the declared ones do. -/

namespace JsfxSugar.Dispatch

/-- A numbered name: that of the parameter at an index, when it does not keep its own. -/
def numberedName (index : Nat) : Text :=
  "arg".toList ++ Text.ofNat index

/-- A name that a parameter keeps: neither that of the selector nor `arg` with digits after it. -/
structure IsOwnName (name : Text) : Prop where
  ne_selector : name ≠ selectorName
  not_numbered : ∀ digits, Text.IsRun Char.isDigit digits → name ≠ "arg".toList ++ digits

theorem isNumbered_eq_true_iff {name : Text} : isNumbered name = true ↔
    ∃ digits, Text.IsRun Char.isDigit digits ∧ name = "arg".toList ++ digits := by
  constructor
  · intro h
    unfold isNumbered at h
    split at h
    · rename_i digits hdigits
      rw [Bool.and_eq_true, Bool.not_eq_true', List.isEmpty_eq_false_iff, List.all_eq_true] at h
      exact ⟨digits, ⟨h.1, h.2⟩, Text.skip?_eq_some_iff.mp hdigits⟩
    · simp at h
  · rintro ⟨digits, hdigits, rfl⟩
    rw [isNumbered, Text.skip?_append]
    simpa [hdigits.ne_nil] using hdigits.forall_mem

theorem isOwnName_iff {name : Text} :
    IsOwnName name ↔ ¬ (isNumbered name || name = selectorName) = true := by
  rw [Bool.or_eq_true, not_or, isNumbered_eq_true_iff, decide_eq_true_iff]
  constructor
  · rintro ⟨hselector, hnumbered⟩
    exact ⟨fun ⟨digits, hdigits, hname⟩ => hnumbered digits hdigits hname, hselector⟩
  · rintro ⟨hnumbered, hselector⟩
    exact ⟨hselector, fun digits hdigits hname => hnumbered ⟨digits, hdigits, hname⟩⟩

instance : DecidablePred IsOwnName :=
  fun _ => decidable_of_iff _ isOwnName_iff.symm

theorem numberedName_injective {i j : Nat} (h : numberedName i = numberedName j) : i = j := by
  have hdigits : Text.ofNat i = Text.ofNat j := List.append_cancel_left h
  rw [← Text.toNat_ofNat i, hdigits, Text.toNat_ofNat]

theorem IsOwnName.ne_numberedName {name : Text} (h : IsOwnName name) (index : Nat) :
    name ≠ numberedName index :=
  h.not_numbered _ ⟨Text.ofNat_ne_nil index, fun _ => Text.isDigit_of_mem_ofNat⟩

theorem numberedName_ne_selectorName (index : Nat) : numberedName index ≠ selectorName := by
  obtain ⟨rest, hnumbered⟩ : ∃ rest, numberedName index = 'a' :: rest := ⟨_, rfl⟩
  obtain ⟨rest', hselector⟩ : ∃ rest, selectorName = 'f' :: rest := ⟨_, rfl⟩
  rw [hnumbered, hselector]
  simp

namespace Parameter

/-- The parameter that a declared one becomes at an index. -/
def placed (p : Parameter) (index : Nat) : Parameter :=
  if IsOwnName p.name then p else { p with name := numberedName index }

theorem atIndex_eq (raw : Text) (index : Nat) :
    atIndex raw index = (ofDeclared raw).placed index := by
  unfold atIndex placed
  by_cases h : IsOwnName (ofDeclared raw).name
  · rw [if_pos h, if_neg (isOwnName_iff.mp h)]
  · rw [if_neg h, if_pos (not_not.mp (mt isOwnName_iff.mpr h)), numberedName]

theorem placed_name_ne_selectorName (p : Parameter) (index : Nat) :
    (p.placed index).name ≠ selectorName := by
  unfold placed
  split
  · rename_i hown
    exact hown.ne_selector
  · exact numberedName_ne_selectorName index

/-- At different places the names are different, unless both are the parameters' own. -/
theorem placed_name_ne {p q : Parameter} {i j : Nat} (hij : i ≠ j)
    (h : IsOwnName p.name → IsOwnName q.name → p.name ≠ q.name) :
    (p.placed i).name ≠ (q.placed j).name := by
  unfold placed
  split
  · rename_i hp
    split
    · rename_i hq
      exact h hp hq
    · exact hp.ne_numberedName j
  · split
    · rename_i hq
      exact (hq.ne_numberedName i).symm
    · exact fun hname => hij (numberedName_injective hname)

theorem nodup_placed {declared : List Parameter}
    (h : ((declared.map (·.name)).filter IsOwnName).Nodup) :
    ((declared.mapIdx fun index p => p.placed index).map (·.name)).Nodup := by
  have hown : declared.Pairwise fun p q =>
      IsOwnName p.name → IsOwnName q.name → p.name ≠ q.name := by
    simpa [List.Nodup, List.pairwise_filter, List.pairwise_map] using h
  rw [List.Nodup, List.pairwise_map, List.pairwise_iff_getElem]
  intro i j hi hj hij
  rw [List.length_mapIdx] at hi hj
  rw [List.getElem_mapIdx, List.getElem_mapIdx]
  exact placed_name_ne (Nat.ne_of_lt hij) (List.pairwise_iff_getElem.mp hown i j hi hj hij)

end Parameter

/-- A piece of a list that declares a parameter: the name, with the mark of a reference after it when
it is passed by reference, and blanks around both. -/
def Declares (raw : Text) (p : Parameter) : Prop :=
  ∃ before after, raw = before ++ (p.formal ++ after) ∧ IsGap before ∧ IsName p.name ∧ IsGap after

/-- A list that declares parameters in their order, with commas between them. -/
inductive Lists : Text → List Parameter → Prop
  | blank {list : Text} (gap : IsGap list) : Lists list []
  | one {raw : Text} {p : Parameter} (declares : Declares raw p) : Lists raw [p]
  | more {raw list : Text} {p : Parameter} {ps : List Parameter} (declares : Declares raw p)
      (rest : Lists list ps) (rest_ne_nil : ps ≠ []) : Lists (raw ++ ',' :: list) (p :: ps)

/-- The parameters that a list declares, with the names by which it does. -/
def declaredParameters (list : Text) : List Parameter :=
  if list.all Text.isBlank then [] else (Text.pieces ',' list).map Parameter.ofDeclared

theorem Parameter.parseList_eq (list : Text) :
    parseList list = (declaredParameters list).mapIdx fun index p => p.placed index := by
  unfold parseList declaredParameters
  split
  · rfl
  · refine List.ext_getElem (by simp) fun i _ _ => ?_
    rw [List.getElem_mapIdx, List.getElem_mapIdx, List.getElem_map, atIndex_eq]

section Declares

variable {raw list : Text} {p : Parameter} {ps : List Parameter}

theorem Parameter.startsOutside_formal (h : IsName p.name) (t : Text) :
    Text.StartsOutside Text.isBlank (p.formal ++ t) := by
  obtain ⟨name, byReference⟩ := p
  cases byReference with
  | false => exact h.startsOutside_blank
  | true => simpa [formal] using h.startsOutside_blank

theorem Parameter.endsOutside_formal (h : IsName p.name) :
    Text.EndsOutside Text.isBlank p.formal := by
  obtain ⟨name, byReference⟩ := p
  cases byReference with
  | false =>
    exact Text.endsOutside_of_forall fun c hc =>
      isBlank_eq_false_of_isNameChar (h.forall_mem c hc)
  | true => exact Text.endsOutside_concat.mpr (by decide)

theorem Declares.ofDeclared_eq (h : Declares raw p) : Parameter.ofDeclared raw = p := by
  obtain ⟨before, after, rfl, hbefore, hname, hafter⟩ := h
  have htrim : (before ++ (p.formal ++ after)).trim = p.formal := by
    rw [← List.append_assoc, Text.trim_append hafter, Text.trim, Text.trimStart,
      Text.dropWhile_append_of_startsOutside hbefore]
    · exact Text.trimEnd_eq_self (Parameter.endsOutside_formal hname)
    · simpa using Parameter.startsOutside_formal hname []
  rw [Parameter.ofDeclared, htrim]
  obtain ⟨name, byReference⟩ := p
  cases byReference with
  | false =>
    have hlast : name.getLast? ≠ some '*' := fun hlast =>
      hname.not_mem (by decide) (List.mem_of_getLast? hlast)
    exact if_neg hlast
  | true => simp [Parameter.formal]

theorem Parameter.formal_ofDeclared (raw : Text) : (ofDeclared raw).formal = raw.trim := by
  simp only [ofDeclared]
  split
  · rename_i hlast
    obtain ⟨name, hname⟩ := List.getLast?_eq_some_iff.mp hlast
    simp [hname, formal]
  · rfl

theorem declares_of_isParameter (h : isParameter raw = true) :
    Declares raw (Parameter.ofDeclared raw) := by
  obtain ⟨before, after, hraw, hbefore, hafter⟩ := raw.exists_eq_trim
  refine ⟨before, after, ?_, hbefore, isName_of_isParameter h, hafter⟩
  rwa [Parameter.formal_ofDeclared]

theorem Declares.comma_not_mem (h : Declares raw p) : ',' ∉ raw := by
  obtain ⟨before, after, rfl, hbefore, hname, hafter⟩ := h
  have hformal : ',' ∉ p.formal := by
    have hcomma : ',' ∉ p.name := hname.not_mem (by decide)
    unfold Parameter.formal
    split <;> simp [hcomma]
  simp [hbefore.not_mem (show Text.isBlank ',' = false by decide), hformal,
    hafter.not_mem (show Text.isBlank ',' = false by decide)]

theorem Declares.not_isGap (h : Declares raw p) : ¬ IsGap raw := by
  obtain ⟨before, after, rfl, -, hname, -⟩ := h
  obtain ⟨c, rest, hcons, hc⟩ := hname.exists_cons
  have hmem : c ∈ p.formal := by
    unfold Parameter.formal
    split <;> simp [hcons]
  intro hgap
  simpa [hgap c (by simp [hmem])] using isBlank_eq_false_of_isNameChar hc

/-- A list declares its parameters in one way only. -/
theorem Lists.declaredParameters_eq (h : Lists list ps) : declaredParameters list = ps := by
  induction h with
  | blank gap => exact if_pos (List.all_eq_true.mpr gap)
  | one declares =>
    rw [declaredParameters, if_neg (mt List.all_eq_true.mp declares.not_isGap),
      Text.pieces_of_not_mem declares.comma_not_mem, List.map_singleton, declares.ofDeclared_eq]
  | @more raw list p ps declares rest rest_ne_nil ih =>
    have hcomma : ¬ List.all (raw ++ ',' :: list) Text.isBlank = true := by
      have hblank : Text.isBlank ',' = false := by decide
      simp [hblank]
    have hrest : (Text.pieces ',' list).map Parameter.ofDeclared = ps := by
      unfold declaredParameters at ih
      split at ih
      · exact absurd ih.symm rest_ne_nil
      · exact ih
    rw [declaredParameters, if_neg hcomma, Text.pieces_append_cons,
      Text.pieces_of_not_mem declares.comma_not_mem, List.map_append, hrest, List.map_singleton,
      declares.ofDeclared_eq, List.singleton_append]

theorem lists_of_forall_pieces (list : Text)
    (h : ∀ raw ∈ Text.pieces ',' list, isParameter raw = true) :
    Lists list ((Text.pieces ',' list).map Parameter.ofDeclared) := by
  by_cases hcomma : ',' ∈ list
  · -- The list is cut at its first comma, and what follows is shorter.
    obtain ⟨raw, rest, hlist, hraw⟩ := List.eq_append_cons_of_mem hcomma
    rw [hlist, Text.pieces_append_cons, Text.pieces_of_not_mem hraw] at h ⊢
    obtain ⟨hfirst, hrest⟩ := List.forall_mem_append.mp h
    refine .more (declares_of_isParameter (hfirst raw (List.mem_singleton_self raw)))
      (lists_of_forall_pieces rest hrest) ?_
    simpa using Text.pieces_ne_nil ',' rest
  · rw [Text.pieces_of_not_mem hcomma] at h ⊢
    exact .one (declares_of_isParameter (h list (List.mem_singleton_self list)))
termination_by list.length
decreasing_by
  rw [hlist, List.length_append, List.length_cons]
  omega

theorem lists_declaredParameters (h : isParameterList list = true) :
    Lists list (declaredParameters list) := by
  unfold declaredParameters
  split
  · rename_i hblank
    exact .blank (List.all_eq_true.mp hblank)
  · rename_i hblank
    refine lists_of_forall_pieces list ?_
    simpa [isParameterList, hblank] using h

theorem lists_iff (h : Lists list ps) {other : List Parameter} : Lists list other ↔ other = ps := by
  constructor
  · intro hother
    rw [← hother.declaredParameters_eq, h.declaredParameters_eq]
  · rintro rfl
    exact h

theorem Declares.append (hgap : IsGap raw) {piece : Text} (h : Declares piece p) :
    Declares (raw ++ piece) p := by
  obtain ⟨before, after, rfl, hbefore, hname, hafter⟩ := h
  exact ⟨raw ++ before, after, by simp, List.forall_mem_append.mpr ⟨hgap, hbefore⟩, hname, hafter⟩

theorem Lists.append (hgap : IsGap raw) (h : Lists list ps) : Lists (raw ++ list) ps := by
  cases h with
  | blank gap => exact .blank (List.forall_mem_append.mpr ⟨hgap, gap⟩)
  | one declares => exact .one (declares.append hgap)
  | more declares rest rest_ne_nil =>
    rw [← List.append_assoc]
    exact .more (declares.append hgap) rest rest_ne_nil

theorem declares_formal (h : IsName p.name) : Declares p.formal p :=
  ⟨[], [], by simp, List.forall_mem_nil _, h, List.forall_mem_nil _⟩

/-- Parameters as a signature shows them. -/
theorem lists_join_formal (h : ∀ p ∈ ps, IsName p.name) :
    Lists (Text.join [',', ' '] (ps.map Parameter.formal)) ps := by
  induction ps with
  | nil => exact .blank (List.forall_mem_nil _)
  | cons p ps ih =>
    obtain ⟨hp, hps⟩ := List.forall_mem_cons.mp h
    cases ps with
    | nil => simpa using Lists.one (declares_formal hp)
    | cons q ps =>
      have hspace : IsGap [' '] := List.all_eq_true.mp (by decide)
      have hrest := (ih hps).append hspace
      exact .more (declares_formal hp) hrest (List.cons_ne_nil q ps)

end Declares

/-- The signature of a dispatcher: the selector, then the parameters of its group. -/
theorem Group.lists_signature (group : Group) (h : ∀ p ∈ group.parameters, IsName p.name) :
    Lists group.signature (⟨selectorName, false⟩ :: group.parameters) := by
  have hnames : ∀ p ∈ ⟨selectorName, false⟩ :: group.parameters, IsName p.name :=
    List.forall_mem_cons.mpr ⟨isName_selectorName, h⟩
  exact lists_join_formal hnames

/-- The texts of the values that an expression may have. -/
def Conditional.values : Conditional → List Text
  | value text => [text]
  | choice _ below above => below.values ++ above.values

theorem SelectorTree.exists_of_mem_values {call : Nat → Text} {tree : SelectorTree} {text : Text}
    (h : text ∈ (tree.conditional call).values) : ∃ id, text = leafText call id := by
  induction tree with
  | leaf id => exact ⟨id, List.mem_singleton.mp h⟩
  | branch threshold below above ihb iha =>
    rcases List.mem_append.mp h with h | h
    · exact ihb h
    · exact iha h

/-- Whatever a dispatcher leads to is a call of one of its functions, but for the value of no
function. -/
theorem Group.Numbers.of_mem_values {group : Group} {functions : List Text}
    (h : group.Numbers functions) {text : Text}
    (htext : text ∈ (group.tree.conditional (group.call group.functionsById)).values) :
    text = ['0'] ∨ ∃ f ∈ functions, text = callText f group.parameters := by
  obtain ⟨id, rfl⟩ := SelectorTree.exists_of_mem_values htext
  unfold SelectorTree.leafText
  split
  · exact Or.inl rfl
  · cases hid : group.functionsById[id]? with
    | none =>
      left
      rw [call, hid]
    | some f =>
      obtain ⟨hpos, hf⟩ := h.functionsById_eq_some_iff.mp hid
      exact Or.inr ⟨f, List.mem_of_getElem? hf, h.call_eq hpos hf⟩

/-- A declaration reads in one way. Its parameters stay in their order and are passed as declared;
when those that keep their names have different ones, all have different names, and none has that of
the selector. The dispatcher of the group has these parameters after the selector, and passes them on
in every call. -/
theorem Declaration.parameters_distinct {t : Text} {d : Declaration}
    (hd : d ∈ Declaration.pattern.hits t) :
    ∃ declared, (∀ ps, Lists d.list ps ↔ ps = declared) ∧
      d.parameters = declared.mapIdx (fun index p => p.placed index) ∧
      (((declared.map (·.name)).filter IsOwnName).Nodup →
        (selectorName :: d.parameters.map (·.name)).Nodup) ∧
      ∀ (group : Group) (functions : List Text), group.name = d.group.name →
        group.parameters = d.parameters → group.Numbers functions → (∀ f ∈ functions, IsName f) →
          (∃ list body, group.dispatcher =
              keyword ++ ' ' :: (group.name ++ '(' :: (list ++ ')' :: body)) ∧
            ∀ ps, Lists list ps ↔ ps = ⟨selectorName, false⟩ :: d.parameters) ∧
          ∃ e, Conditional.ofDispatcher? group.dispatcher = some e ∧
            ∀ text ∈ e.values, text = ['0'] ∨ ∃ f ∈ functions, text = callText f d.parameters := by
  have hlist : ∀ d ∈ Declaration.pattern.hits t, isParameterList d.list = true :=
    Pattern.forall_mem_hits fun h => (Declaration.read?_eq_some_iff.mp h).2.2.2.2.2
  obtain ⟨hname, hparameters⟩ := Declaration.isName_of_mem_hits hd
  have heq : d.parameters =
      (declaredParameters d.list).mapIdx (fun index p => p.placed index) :=
    Parameter.parseList_eq d.list
  refine ⟨declaredParameters d.list, fun ps => lists_iff (lists_declaredParameters (hlist d hd)),
    heq, ?_, ?_⟩
  · intro hown
    refine List.nodup_cons.mpr ⟨?_, heq ▸ Parameter.nodup_placed hown⟩
    intro hmem
    obtain ⟨p, hp, hselector⟩ := List.mem_map.mp hmem
    rw [heq] at hp
    obtain ⟨index, hindex, rfl⟩ := List.mem_mapIdx.mp hp
    exact Parameter.placed_name_ne_selectorName _ index hselector
  · -- What the dispatcher shows is read from its text, where the signature is a list again.
    intro group functions hsame hgroup hnumbers hfunctions
    rw [← hgroup] at hparameters ⊢
    obtain ⟨body, hbody⟩ := group.exists_dispatcher_eq
    exact ⟨⟨_, _, hbody, fun ps => lists_iff (group.lists_signature hparameters)⟩, _,
      hnumbers.ofDispatcher?_dispatcher hfunctions hparameters (hsame ▸ hname),
      fun text => hnumbers.of_mem_values⟩

/-- Three parameters of five are renumbered, two of them by reference. -/
theorem Declaration.parameters_distinct_five :
    let t := "function {ops}(x, arg7*, arg07, function_id, y*)".toList
    let d : Declaration :=
      ⟨[' '], ⟨[], "ops".toList, []⟩, [], "x, arg7*, arg07, function_id, y*".toList⟩
    let declared : List Parameter := [⟨"x".toList, false⟩, ⟨"arg7".toList, true⟩,
      ⟨"arg07".toList, false⟩, ⟨"function_id".toList, false⟩, ⟨"y".toList, true⟩]
    let parameters : List Parameter := [⟨"x".toList, false⟩, ⟨"arg1".toList, true⟩,
      ⟨"arg2".toList, false⟩, ⟨"arg3".toList, false⟩, ⟨"y".toList, true⟩]
    let group : Group := ((d.declared.enroll "low".toList).2.enroll "high".toList).2
    d ∈ Declaration.pattern.hits t ∧ Lists d.list declared ∧ d.parameters = parameters ∧
      (selectorName :: parameters.map (·.name)).Nodup ∧
      (∃ list body, group.dispatcher =
          keyword ++ ' ' :: (group.name ++ '(' :: (list ++ ')' :: body)) ∧
        ∀ ps, Lists list ps ↔ ps = ⟨selectorName, false⟩ :: parameters) ∧
      ∃ e, Conditional.ofDispatcher? group.dispatcher = some e ∧ ∀ text ∈ e.values,
        text = ['0'] ∨ ∃ f ∈ ["low".toList, "high".toList], text = callText f parameters := by
  intro t d declared parameters group
  have hd : d ∈ Declaration.pattern.hits t := by decide +kernel
  have hparameters : d.parameters = parameters := by decide +kernel
  have hlists : Lists d.list declared := by
    have hdeclared : declaredParameters d.list = declared := by decide +kernel
    exact hdeclared ▸ lists_declaredParameters (by decide +kernel)
  have hnumbers : group.Numbers ["low".toList, "high".toList] :=
    ⟨by decide +kernel, by decide +kernel⟩
  obtain ⟨other, hunique, -, hdistinct, hdispatcher⟩ := Declaration.parameters_distinct hd
  obtain rfl := (hunique declared).mp hlists
  have hown : ((declared.map (·.name)).filter IsOwnName).Nodup := by decide +kernel
  have hfunctions : ∀ f ∈ ["low".toList, "high".toList], IsName f := by
    simp only [List.forall_mem_cons]
    exact ⟨⟨by decide, List.all_eq_true.mp (by decide)⟩,
      ⟨by decide, List.all_eq_true.mp (by decide)⟩, List.forall_mem_nil _⟩
  have hsame : group.name = d.group.name ∧ group.parameters = d.parameters := by decide +kernel
  have hgroup := hdispatcher group _ hsame.1 hsame.2 hnumbers hfunctions
  have hnames := hdistinct hown
  rw [hparameters] at hgroup hnames
  exact ⟨hd, hlists, hparameters, hnames, hgroup⟩

end JsfxSugar.Dispatch
