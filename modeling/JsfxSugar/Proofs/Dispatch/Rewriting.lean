import JsfxSugar.Proofs.Dispatch.Dispatcher

/-! The three passes that write out dispatchers: what each of them puts in the place of a marker, what
the whole text comes to by them, and of which characters dispatchers are made. -/

namespace JsfxSugar.Dispatch

variable {t u : Text} {c : Char} {table table' declared : Table} {calls : List CallSite}
  {group : Group} {s : Synthesis}

/-- What is written for a call site, where these are all call sites. -/
def CallSite.written (calls : List CallSite) (m : CallSite) : Text :=
  Text.ofNat (functionId calls m) ++ m.function.comment

/-- What is written for a declaration: the dispatcher of its group. -/
def Declaration.written (table : Table) (m : Declaration) : Text :=
  ((table[m.group.name]?).map Group.dispatcher).getD []

theorem Declaration.written_of_getElem? {m : Declaration} (h : table[m.group.name]? = some group) :
    m.written table = group.dispatcher := by
  simp [written, h]

/-- What is written for the call of a dispatcher. -/
def Shorthand.written (m : Shorthand) : Text :=
  let rest := if m.arguments.trim.isEmpty then [] else [',', ' '] ++ m.arguments.trim
  m.group.name ++ ['('] ++ m.selector.trim ++ rest ++ [')']

theorem Shorthand.selector_isInfix_source (m : Shorthand) : m.selector <:+: m.source :=
  ⟨['{'] ++ (m.group.source ++ [':']), ['}'] ++ (m.gap ++ (['('] ++ (m.arguments ++ [')']))), by
    simp [source]⟩

theorem Shorthand.arguments_isInfix_source (m : Shorthand) : m.arguments <:+: m.source :=
  ⟨['{'] ++ (m.group.source ++ ([':'] ++ (m.selector ++ (['}'] ++ (m.gap ++ ['(']))))), [')'], by
    simp [source]⟩

theorem Shorthand.endsOutside_source {cls : Char → Bool} (hcls : cls ')' = false) (m : Shorthand) :
    Text.EndsOutside cls m.source := by
  have hconcat : m.source = (['{'] ++ (m.group.source ++ ([':'] ++ (m.selector ++ (['}'] ++ (m.gap ++
      (['('] ++ m.arguments))))))) ++ [')'] := by
    simp only [source, List.append_assoc]
  rw [hconcat, Text.endsOutside_concat]
  exact hcls

theorem Shorthand.endsOutside_written {cls : Char → Bool} (hcls : cls ')' = false) (m : Shorthand) :
    Text.EndsOutside cls m.written := by
  rw [written, Text.endsOutside_concat]
  exact hcls

/-- The text once its call sites are numbered. -/
def numberedText (t : Text) : Text :=
  CallSite.pattern.substitute (CallSite.written (CallSite.pattern.hits t)) t

/-- The text once its dispatchers are written out, too. -/
def declaredText (table : Table) (t : Text) : Text :=
  Declaration.pattern.substitute (Declaration.written table) (numberedText t)

theorem writeDispatcher_eq_ok_written {m : Declaration} {text : Text}
    (h : writeDispatcher m table = .ok (text, table')) :
    (∃ group, table[m.group.name]? = some group) ∧ text = m.written table ∧ table' = table := by
  obtain ⟨group, hgroup, h⟩ := bind_eq_ok_iff.mp h
  obtain ⟨rfl, rfl⟩ := Prod.mk.inj (Except.ok.inj h)
  have hgroup := Table.demand_eq_ok_iff.mp hgroup
  exact ⟨⟨group, hgroup⟩, (Declaration.written_of_getElem? hgroup).symm, rfl⟩

theorem writeCall_eq_ok_written {m : Shorthand} {text : Text}
    (h : writeCall m table = .ok (text, table')) :
    (∃ group, table[m.group.name]? = some group) ∧ text = m.written ∧ table' = table := by
  obtain ⟨group, hgroup, h⟩ := bind_eq_ok_iff.mp h
  obtain ⟨rfl, rfl⟩ := Prod.mk.inj (Except.ok.inj h)
  exact ⟨⟨group, Table.demand_eq_ok_iff.mp hgroup⟩, rfl, rfl⟩

/-- A source with its dispatchers written out is the source after three replacements, each of which
finds the groups of its markers in the table. -/
structure Synthesis.Writes (s : Synthesis) (t : Text) : Prop where
  exists_declared : ∃ declared, declareGroups t = .ok declared ∧
    Enrolled declared (CallSite.pattern.hits t) s.table
  text_eq : s.text = Shorthand.pattern.substitute Shorthand.written (declaredText s.table t)
  declarations : ∀ m ∈ Declaration.pattern.hits (numberedText t),
    ∃ group, s.table[m.group.name]? = some group
  shorthands : ∀ m ∈ Shorthand.pattern.hits (declaredText s.table t),
    ∃ group, s.table[m.group.name]? = some group

theorem synthesize_writes (h : synthesize t = .ok s) : s.Writes t := by
  obtain ⟨declared, hdeclared, h⟩ := bind_eq_ok_iff.mp h
  obtain ⟨⟨numbered, table⟩, hnumbered, h⟩ := bind_eq_ok_iff.mp h
  obtain ⟨⟨written, table₂⟩, hwritten, h⟩ := bind_eq_ok_iff.mp h
  obtain ⟨⟨called, table₃⟩, hcalled, h⟩ := bind_eq_ok_iff.mp h
  obtain rfl := Except.ok.inj h
  obtain ⟨hnumbers, henrolled⟩ := (Enrolled.of_declareGroups hdeclared).resolve_eq_ok hnumbered
  obtain rfl : numbered = numberedText t := hnumbers
  obtain ⟨hdeclarations, hwritten, rfl⟩ :=
    Pattern.resolve_eq_ok_of_forall_eq writeDispatcher_eq_ok_written hwritten
  obtain rfl : written = declaredText table₂ t := hwritten
  obtain ⟨hshorthands, hcalled, rfl⟩ :=
    Pattern.resolve_eq_ok_of_forall_eq writeCall_eq_ok_written hcalled
  exact ⟨⟨declared, hdeclared, henrolled⟩, hcalled, hdeclarations, hshorthands⟩

/-- A text is written out in three passes. The first puts for each call site the id of its function,
which is one more than the place of the function among those of its group, and the others put
dispatchers for declarations and calls for shorthands. The dispatcher of a group leads each id to the
call of its function, with the declared parameters in their order. -/
theorem synthesize_dispatches (h : synthesize t = .ok s) :
    let calls := CallSite.pattern.hits t
    let declarations := Declaration.pattern.hits t
    let numbered := CallSite.pattern.substitute
      (fun m => Text.ofNat (functionId calls m) ++ m.function.comment) t
    s.text = Shorthand.pattern.substitute Shorthand.written
      (Declaration.pattern.substitute (Declaration.written s.table) numbered) ∧
    (∃ declared, declareGroups t = .ok declared ∧
      CallSite.pattern.resolve numberCallSite t declared = .ok (numbered, s.table)) ∧
    (∀ m ∈ calls, ∃ d ∈ declarations, d.group.name = m.group.name) ∧
    ∀ d ∈ declarations, (∀ p ∈ d.parameters, '*' ∉ p.name) ∧
      ∃ group, s.table[d.group.name]? = some group ∧ d.written s.table = group.dispatcher ∧
        ∃ e, Conditional.ofDispatcher? group.dispatcher = some e ∧
          e.Dispatches (functionsOf d.group.name calls) d.parameters := by
  intro calls declarations numbered
  have hwrites := synthesize_writes h
  obtain ⟨declared, text, hdeclared, hnumbered⟩ := exists_numbered_of_synthesize h
  obtain ⟨rfl, henrolled⟩ := (Enrolled.of_declareGroups hdeclared).resolve_eq_ok hnumbered
  have hcalls : ∀ m ∈ calls, IsName m.function := Pattern.forall_mem_hits CallSite.isName_of_read?
  have hnames : ∀ d ∈ declarations, IsName d.group.name ∧ ∀ p ∈ d.parameters, IsName p.name :=
    Pattern.forall_mem_hits Declaration.of_read?
  refine ⟨hwrites.text_eq, ⟨declared, hdeclared, hnumbered⟩, ?_, ?_⟩
  · intro m hm
    obtain ⟨start, hstart⟩ := henrolled.exists_declared hm
    obtain ⟨d, hd, hname, -⟩ := (declareGroups_eq_ok hdeclared m.group.name start).mp hstart
    exact ⟨d, hd, hname⟩
  · intro d hd
    have hstart := (declareGroups_eq_ok hdeclared d.group.name d.declared).mpr ⟨d, hd, rfl, rfl⟩
    refine ⟨fun p hp => ((hnames d hd).2 p hp).not_mem (by decide), ?_⟩
    obtain ⟨group, hgroup, hread⟩ := henrolled.dispatches hcalls hstart (hnames d hd)
    exact ⟨group, hgroup, Declaration.written_of_getElem? hgroup, hread⟩

/-- Three call sites of two functions, one of them in a shorthand, before the group is declared. -/
theorem synthesize_dispatches_low_high :
    let t := "{ops} low; {ops} high; {ops: {ops} low}(a, b); function {ops}(x, y*)".toList
    let shown := ("1/*low*/; 2/*high*/; ops(1/*low*/, a, b); function ops(function_id, x, y*) (\n" ++
      "\t(function_id < 2 ?\n\t\t(function_id < 1 ?\n\t\t\t0\n\t\t\t: low(x, y)\n\t\t)\n" ++
      "\t\t: high(x, y)\n\t);\n);").toList
    ∃ s group e, synthesize t = .ok s ∧
      s.text = Shorthand.pattern.substitute Shorthand.written (declaredText s.table t) ∧
      s.text = shown ∧ s.table["ops".toList]? = some group ∧
      Conditional.ofDispatcher? group.dispatcher = some e ∧ e.eval 0 = ['0'] ∧
      e.eval 1 = "low(x, y)".toList ∧ e.eval 2 = "high(x, y)".toList ∧
      ∀ n, 2 < n → e.eval n = "high(x, y)".toList := by
  intro t shown
  obtain ⟨s, hs⟩ : ∃ s, synthesize t = .ok s := exists_eq_ok_of_isSome (by decide +kernel)
  have hshown : (synthesize t).toOption.map (·.text) = some shown := by decide +kernel
  rw [hs] at hshown
  let d : Declaration := ⟨[' '], ⟨[], "ops".toList, []⟩, [], "x, y*".toList⟩
  have hd : d ∈ Declaration.pattern.hits t := by decide +kernel
  obtain ⟨htext, -, -, hall⟩ := synthesize_dispatches hs
  obtain ⟨-, group, hgroup, -, e, he, heval⟩ := hall d hd
  have hfunctions : functionsOf d.group.name (CallSite.pattern.hits t) =
      ["low".toList, "high".toList] := by decide +kernel
  rw [hfunctions] at heval
  have hlow : callText "low".toList d.parameters = "low(x, y)".toList := by decide +kernel
  have hhigh : callText "high".toList d.parameters = "high(x, y)".toList := by decide +kernel
  refine ⟨s, group, e, hs, htext, Option.some.inj hshown, hgroup, he, heval.eval_zero, ?_, ?_, ?_⟩
  · rw [← hlow]
    exact heval.eval_id "low".toList (by simp)
  · rw [← hhigh]
    exact heval.eval_id "high".toList (by simp)
  · intro n hn
    rw [← hhigh]
    exact heval.eval_above "high".toList rfl n hn

/-- A text without markers stays as it is. -/
theorem synthesize_of_hits_eq_nil (hdeclarations : Declaration.pattern.hits t = [])
    (hcalls : CallSite.pattern.hits t = []) (hshorthands : Shorthand.pattern.hits t = []) :
    synthesize t = .ok ⟨t, ∅⟩ := by
  have hnone : declareGroups t = .ok ∅ := by
    rw [declareGroups, hdeclarations]
    rfl
  apply bind_eq_ok_iff.mpr ⟨_, hnone, ?_⟩
  apply bind_eq_ok_iff.mpr ⟨_, Pattern.resolve_of_hits_eq_nil hcalls _ _, ?_⟩
  apply bind_eq_ok_iff.mpr ⟨_, Pattern.resolve_of_hits_eq_nil hdeclarations _ _, ?_⟩
  exact bind_eq_ok_iff.mpr ⟨_, Pattern.resolve_of_hits_eq_nil hshorthands _ _, rfl⟩

/-- The parameters of a dispatcher as its definition shows them. -/
def Group.signature (group : Group) : Text :=
  Text.join [',', ' '] (selectorName :: group.parameters.map Parameter.formal)

theorem Group.exists_dispatcher_eq (group : Group) : ∃ body, group.dispatcher =
    keyword ++ ' ' :: (group.name ++ '(' :: (group.signature ++ ')' :: (body ++ [';']))) := by
  have hkeyword : "function ".toList = keyword ++ [' '] := by decide
  refine ⟨[' ', '('] ++ nest (group.tree.layout selectorName (group.call group.functionsById)) ++
    [';', '\n', ')'], ?_⟩
  unfold dispatcher
  -- The keyword is not to be taken apart into its characters.
  generalize "function ".toList = word at hkeyword
  subst hkeyword
  simp only [signature, List.append_assoc, List.cons_append, List.nil_append]

theorem Group.endsOutside_dispatcher {cls : Char → Bool} (hcls : cls ';' = false) (group : Group) :
    Text.EndsOutside cls group.dispatcher := by
  obtain ⟨body, hbody⟩ := group.exists_dispatcher_eq
  have hconcat : group.dispatcher = (keyword ++ ' ' :: (group.name ++ '(' :: (group.signature ++
      ')' :: body))) ++ [';'] := by
    simp only [hbody, List.append_assoc, List.cons_append]
  rw [hconcat, Text.endsOutside_concat]
  exact hcls

/-- A group in which everything that is named has a proper name. -/
structure Group.Named (group : Group) : Prop where
  name : IsName group.name
  parameters : ∀ p ∈ group.parameters, IsName p.name
  functions : ∀ (id : Nat) (f : Text), group.functionsById[id]? = some f → IsName f

/-- The groups of a source have proper names once its call sites are numbered. -/
theorem Enrolled.named (h : Enrolled declared (CallSite.pattern.hits t) table)
    (hdeclared : declareGroups t = .ok declared) {name : Text}
    (hgroup : table[name]? = some group) : group.Named := by
  have hparameters := h.parameters_eq name
  rw [hgroup, Option.map_some, eq_comm, Option.map_eq_some_iff] at hparameters
  obtain ⟨start, hstart, heq⟩ := hparameters
  obtain ⟨d, hd, rfl, rfl⟩ := (declareGroups_eq_ok hdeclared name start).mp hstart
  obtain ⟨hname, hall⟩ := Declaration.isName_of_mem_hits hd
  have hcalls : ∀ m ∈ CallSite.pattern.hits t, IsName m.function :=
    Pattern.forall_mem_hits CallSite.isName_of_read?
  obtain ⟨hsame, hnumbers⟩ := h.numbers hgroup
  refine ⟨hsame ▸ hname, heq ▸ hall, ?_⟩
  intro id f hf
  obtain ⟨-, hmem⟩ := hnumbers.functionsById_eq_some_iff.mp hf
  obtain ⟨m, hm, -, rfl⟩ := exists_of_mem_functionsOf (List.mem_of_getElem? hmem)
  exact hcalls m hm

theorem Synthesis.Writes.named (h : s.Writes t) {name : Text}
    (hgroup : s.table[name]? = some group) : group.Named := by
  obtain ⟨declared, hdeclared, henrolled⟩ := h.exists_declared
  exact henrolled.named hdeclared hgroup

/-- Every declaration that is left has a group, whose dispatcher is written for it. -/
theorem Synthesis.Writes.exists_dispatcher (h : s.Writes t) {d : Declaration}
    (hd : d ∈ Declaration.pattern.hits (numberedText t)) : ∃ group,
      s.table[d.group.name]? = some group ∧ d.written s.table = group.dispatcher ∧ group.Named := by
  obtain ⟨group, hgroup⟩ := h.declarations d hd
  exact ⟨group, hgroup, Declaration.written_of_getElem? hgroup, h.named hgroup⟩

/-- The characters of a dispatcher that are not part of a name. -/
def punctuation : Text :=
  "\n\t (),*:;<?".toList

def isCodeChar (c : Char) : Bool :=
  isNameChar c || c ∈ punctuation

theorem IsName.isCodeChar {name : Text} (h : IsName name) : ∀ c ∈ name, isCodeChar c = true := by
  intro c hc
  simp [Dispatch.isCodeChar, h.forall_mem c hc]

theorem isName_selectorName : IsName selectorName :=
  ⟨by decide, List.all_eq_true.mp (by decide)⟩

theorem isCodeChar_of_mem_ofNat {n : Nat} : ∀ c ∈ Text.ofNat n, isCodeChar c = true := by
  intro c hc
  simp [isCodeChar, isNameChar, Char.isAlphanum, Text.isDigit_of_mem_ofNat hc]

theorem isCodeChar_of_mem_join {texts : List Text}
    (h : ∀ t ∈ texts, ∀ c ∈ t, isCodeChar c = true) :
    ∀ c ∈ Text.join [',', ' '] texts, isCodeChar c = true := by
  intro c hc
  rcases Text.mem_join hc with hsep | ⟨t, ht, hc⟩
  · have hcode : ∀ c ∈ [',', ' '], isCodeChar c = true := List.all_eq_true.mp (by decide)
    exact hcode c hsep
  · exact h t ht c hc

theorem isCodeChar_of_mem_nest {code : Text} (h : ∀ c ∈ code, isCodeChar c = true) :
    ∀ c ∈ nest code, isCodeChar c = true := by
  have hline : ∀ c ∈ ['\n', '\t'], isCodeChar c = true := List.all_eq_true.mp (by decide)
  intro c hc
  rw [nest_eq] at hc
  rcases List.mem_append.mp hc with hc | hc
  · exact hline c hc
  · obtain ⟨d, hd, hc⟩ := List.mem_flatMap.mp hc
    split at hc
    · exact hline c hc
    · rw [List.mem_singleton.mp hc]
      exact h d (code.trim_isInfix.subset hd)

namespace Group.Named

variable (h : group.Named)
include h

theorem isCodeChar_of_mem_call (id : Nat) :
    ∀ c ∈ group.call group.functionsById id, isCodeChar c = true := by
  intro c hc
  unfold call at hc
  split at hc
  · rename_i function hfunction
    have hjoin : ∀ c ∈ Text.join [',', ' '] (group.parameters.map (·.name)),
        isCodeChar c = true := by
      apply isCodeChar_of_mem_join
      intro t ht
      obtain ⟨p, hp, rfl⟩ := List.mem_map.mp ht
      exact (h.parameters p hp).isCodeChar
    simp only [List.mem_append] at hc
    rcases hc with ((hc | hc) | hc) | hc
    · exact (h.functions id function hfunction).isCodeChar c hc
    · rw [List.mem_singleton.mp hc]
      decide
    · exact hjoin c hc
    · rw [List.mem_singleton.mp hc]
      decide
  · rw [List.mem_singleton.mp hc]
    decide

theorem isCodeChar_of_mem_layout (tree : SelectorTree) :
    ∀ c ∈ tree.layout selectorName (group.call group.functionsById), isCodeChar c = true := by
  induction tree with
  | leaf id =>
    rw [SelectorTree.layout]
    split
    · exact List.all_eq_true.mp (by decide)
    · exact h.isCodeChar_of_mem_call id
  | branch threshold below above ihb iha =>
    have hcolon : ∀ c ∈ [':', ' '], isCodeChar c = true := List.all_eq_true.mp (by decide)
    have habove := isCodeChar_of_mem_nest (List.forall_mem_append.mpr ⟨hcolon, iha⟩)
    have hbelow := isCodeChar_of_mem_nest ihb
    rw [SelectorTree.layout_branch]
    simp only [List.forall_mem_append]
    refine ⟨⟨⟨⟨⟨⟨⟨?_, ?_⟩, ?_⟩, isCodeChar_of_mem_ofNat⟩, ?_⟩, hbelow⟩, habove⟩, ?_⟩
    · exact List.all_eq_true.mp (by decide)
    · exact List.all_eq_true.mp (by decide)
    · exact List.all_eq_true.mp (by decide)
    · exact List.all_eq_true.mp (by decide)
    · exact List.all_eq_true.mp (by decide)

/-- A dispatcher is made of names and a little punctuation. -/
theorem isCodeChar_of_mem_dispatcher : ∀ c ∈ group.dispatcher, isCodeChar c = true := by
  have hsignature : ∀ c ∈ Text.join [',', ' ']
      (selectorName :: group.parameters.map Parameter.formal), isCodeChar c = true := by
    apply isCodeChar_of_mem_join
    rw [List.forall_mem_cons, List.forall_mem_map]
    refine ⟨isName_selectorName.isCodeChar, fun p hp => ?_⟩
    unfold Parameter.formal
    split
    · exact List.forall_mem_append.mpr ⟨(h.parameters p hp).isCodeChar, List.all_eq_true.mp (by decide)⟩
    · exact (h.parameters p hp).isCodeChar
  have hkeyword : ∀ c ∈ "function ".toList, isCodeChar c = true :=
    List.all_eq_true.mp (by decide)
  have hbody := isCodeChar_of_mem_nest (h.isCodeChar_of_mem_layout group.tree)
  unfold dispatcher
  -- The keyword is not to be taken apart into its characters.
  generalize "function ".toList = keyword at hkeyword
  simp only [List.forall_mem_append]
  refine ⟨⟨⟨⟨⟨⟨hkeyword, h.name.isCodeChar⟩, ?_⟩, hsignature⟩, ?_⟩, hbody⟩, ?_⟩
  · exact List.all_eq_true.mp (by decide)
  · exact List.all_eq_true.mp (by decide)
  · exact List.all_eq_true.mp (by decide)

theorem not_mem_dispatcher (hc : isCodeChar c = false) : c ∉ group.dispatcher := by
  intro hmem
  rw [h.isCodeChar_of_mem_dispatcher c hmem] at hc
  exact Bool.noConfusion hc

end Group.Named

end JsfxSugar.Dispatch
