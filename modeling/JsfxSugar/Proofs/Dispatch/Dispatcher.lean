import JsfxSugar.Proofs.Dispatch.Conditional
import JsfxSugar.Proofs.Dispatch.Declarations
import JsfxSugar.Proofs.Dispatch.Enrolment
import JsfxSugar.Proofs.Dispatch.Search

/-! What a dispatcher does, read off its text: each selector is led to the call of the function that
has it as its id. -/

namespace JsfxSugar

/-- What stands before `tail`, when the text ends with it. -/
def Text.skipEnd? (tail t : Text) : Option Text :=
  (Text.skip? tail.reverse t.reverse).map List.reverse

theorem Text.skipEnd?_append (t tail : Text) : Text.skipEnd? tail (t ++ tail) = some t := by
  simp [Text.skipEnd?, List.reverse_append]

namespace Dispatch

/-- The expression that the text of a dispatcher gives for its selector. -/
def Conditional.ofDispatcher? (t : Text) : Option Conditional := do
  let t ← Text.skip? "function ".toList t
  let (_, t) ← Text.upTo? '(' t
  let (_, t) ← Text.upTo? ')' t
  let t ← Text.skip? [' ', '('] t
  let body ← Text.skipEnd? [';', '\n', ')', ';'] t
  ofText? selectorName body

/-- The call of a function with parameters in their order, whether by reference or not. -/
def callText (function : Text) (parameters : List Parameter) : Text :=
  function ++ ['('] ++ Text.join [',', ' '] (parameters.map (·.name)) ++ [')']

theorem oneLine_callText {function : Text} {parameters : List Parameter} (hf : IsName function)
    (hp : ∀ p ∈ parameters, IsName p.name) : OneLine (callText function parameters) := by
  refine ⟨by simp [callText], ?_, ?_, ?_⟩
  · intro hmem
    simp only [callText, List.mem_append] at hmem
    rcases hmem with ((hmem | hmem) | hmem) | hmem
    · exact hf.not_mem (by decide) hmem
    · revert hmem
      decide
    · obtain hsep | ⟨name, hname, hmem⟩ := Text.mem_join hmem
      · revert hsep
        decide
      · obtain ⟨p, hmemp, rfl⟩ := List.mem_map.mp hname
        exact (hp p hmemp).not_mem (by decide) hmem
    · revert hmem
      decide
  · obtain ⟨c, rest, rfl⟩ := List.exists_cons_of_ne_nil hf.ne_nil
    simp only [callText, List.cons_append, Text.startsOutside_cons]
    exact isBlank_eq_false_of_isNameChar (hf.forall_mem c List.mem_cons_self)
  · rw [callText, Text.endsOutside_concat]
    decide

theorem head?_callText_ne {function : Text} (parameters : List Parameter) (hf : IsName function) :
    (callText function parameters).head? ≠ some '(' := by
  obtain ⟨c, rest, rfl⟩ := List.exists_cons_of_ne_nil hf.ne_nil
  simp only [callText, List.cons_append, List.head?_cons]
  intro h
  have hc := hf.forall_mem c List.mem_cons_self
  rw [Option.some.inj h] at hc
  revert hc
  decide

namespace Group.Numbers

variable {group : Group} {functions : List Text} {n : Nat}

/-- The index by id holds the functions at their places. -/
theorem functionsById_eq_some_iff (h : group.Numbers functions) {id : Nat} {function : Text} :
    group.functionsById[id]? = some function ↔
      1 ≤ id ∧ functions[id - 1]? = some function := by
  have hkeys : (group.functions.entries.map Prod.swap).map Prod.fst =
      List.range' 1 functions.length := by
    rw [h.entries_eq, List.map_map, ← List.zipIdx_map_snd]
    rfl
  have hdistinct : (group.functions.entries.map Prod.swap).Pairwise
      fun a b => ¬ compare a.1 b.1 = .eq := by
    have hlt : ((group.functions.entries.map Prod.swap).map Prod.fst).Pairwise (· < ·) :=
      hkeys ▸ List.pairwise_lt_range'
    refine (List.pairwise_map.mp hlt).imp fun hab heq => ?_
    exact absurd (Std.compare_eq_iff_eq.mp heq) (Nat.ne_of_lt hab)
  have hmem : ∀ {f}, 1 ≤ id ∧ functions[id - 1]? = some f →
      group.functionsById[id]? = some f := by
    intro f hf
    refine Std.ExtTreeMap.getElem?_ofList_of_mem (Std.compare_eq_iff_eq.mpr rfl) hdistinct ?_
    rw [h.entries_eq]
    exact List.mem_map.mpr ⟨(f, id), List.mk_mem_zipIdx_iff_le_and_getElem?_sub.mpr hf, rfl⟩
  constructor
  · intro hid
    by_cases hrange : 1 ≤ id ∧ id - 1 < functions.length
    · have hget := List.getElem?_eq_getElem hrange.2
      rw [hmem ⟨hrange.1, hget⟩] at hid
      exact ⟨hrange.1, hget.trans hid⟩
    · have hnone : group.functionsById[id]? = none := by
        refine Std.ExtTreeMap.getElem?_ofList_of_contains_eq_false ?_
        rw [hkeys, List.contains_eq_mem, decide_eq_false_iff_not, List.mem_range'_1]
        omega
      simp [hnone] at hid
  · exact hmem

theorem ids_eq (h : group.Numbers functions) :
    noFunction :: group.functions.entries.map (·.2) = List.range (functions.length + 1) := by
  rw [h.entries_eq, List.zipIdx_map_snd, List.range_eq_range', List.range'_succ]
  rfl

/-- The tree leads a selector to itself, or to the last id when it is above. -/
theorem select_tree (h : group.Numbers functions) (n : Nat) :
    group.tree.select n = min n functions.length := by
  rw [tree, h.ids_eq, SelectorTree.select_ofIds_range]

theorem call_eq (h : group.Numbers functions) {id : Nat} {function : Text} (hid : 1 ≤ id)
    (hf : functions[id - 1]? = some function) :
    group.call group.functionsById id = callText function group.parameters := by
  rw [call, h.functionsById_eq_some_iff.mpr ⟨hid, hf⟩]
  rfl

theorem eval_zero (h : group.Numbers functions) :
    (group.tree.conditional (group.call group.functionsById)).eval 0 = ['0'] := by
  rw [SelectorTree.eval_conditional, h.select_tree, Nat.zero_min]
  rfl

theorem eval_of_functions_eq_nil (h : group.Numbers []) (n : Nat) :
    (group.tree.conditional (group.call group.functionsById)).eval n = ['0'] := by
  rw [SelectorTree.eval_conditional, h.select_tree, List.length_nil, Nat.min_zero]
  rfl

/-- A selector that is an id, or above all ids, is led to the call of a function. -/
theorem eval_of_pos (h : group.Numbers functions) {n : Nat} {function : Text} (hn : 0 < n)
    (hf : functions[min n functions.length - 1]? = some function) :
    (group.tree.conditional (group.call group.functionsById)).eval n =
      callText function group.parameters := by
  have hlt := (List.getElem?_eq_some_iff.mp hf).1
  have hne : min n functions.length ≠ noFunction := by
    unfold noFunction
    omega
  rw [SelectorTree.eval_conditional, h.select_tree, SelectorTree.leafText, if_neg hne]
  exact h.call_eq (by omega) hf

variable (h : group.Numbers functions) (hfunctions : ∀ f ∈ functions, IsName f)
  (hparameters : ∀ p ∈ group.parameters, IsName p.name)
include h hfunctions hparameters

/-- Every call that the dispatcher may write stands on one line and does not look like a
comparison. -/
theorem oneLine_call (id : Nat) : OneLine (group.call group.functionsById id) ∧
    (group.call group.functionsById id).head? ≠ some '(' := by
  cases hid : group.functionsById[id]? with
  | none =>
    have hcall : group.call group.functionsById id = ['0'] := by
      rw [call, hid]
    rw [hcall]
    exact ⟨SelectorTree.oneLine_zero, by decide⟩
  | some function =>
    obtain ⟨hpos, hf⟩ := h.functionsById_eq_some_iff.mp hid
    have hname := hfunctions function (List.mem_of_getElem? hf)
    rw [h.call_eq hpos hf]
    exact ⟨oneLine_callText hname hparameters, head?_callText_ne group.parameters hname⟩

/-- The text of a dispatcher reads as its tree. -/
theorem ofDispatcher?_dispatcher (hname : IsName group.name) :
    Conditional.ofDispatcher? group.dispatcher =
      some (group.tree.conditional (group.call group.functionsById)) := by
  have hcall := fun id => (h.oneLine_call hfunctions hparameters id).1
  have hparen := fun id => (h.oneLine_call hfunctions hparameters id).2
  have hopen : '(' ∉ group.name := hname.not_mem (by decide)
  have hclose :
      ')' ∉ Text.join [',', ' '] (selectorName :: group.parameters.map Parameter.formal) := by
    intro hmem
    obtain hsep | ⟨formal, hformal, hmem⟩ := Text.mem_join hmem
    · revert hsep
      decide
    · rcases List.mem_cons.mp hformal with rfl | hformal
      · revert hmem
        decide
      · obtain ⟨p, hp, rfl⟩ := List.mem_map.mp hformal
        have hp := (hparameters p hp).not_mem (c := ')') (by decide)
        unfold Parameter.formal at hmem
        split at hmem <;> simp_all
  have hselector : '\n' ∉ selectorName := by decide
  have hlayout : nest (group.tree.layout selectorName (group.call group.functionsById)) =
      ['\n', '\t'] ++ group.tree.layoutAt selectorName (group.call group.functionsById) 1 := by
    rw [SelectorTree.layout_eq_layoutAt hselector hcall,
      SelectorTree.nest_layoutAt hselector hcall]
  have hdispatcher : group.dispatcher = "function ".toList ++ (group.name ++ '(' ::
      (Text.join [',', ' '] (selectorName :: group.parameters.map Parameter.formal) ++ ')' ::
        ([' ', '('] ++ (['\n', '\t'] ++ group.tree.layoutAt selectorName
          (group.call group.functionsById) 1 ++ [';', '\n', ')', ';'])))) := by
    unfold dispatcher
    -- The keyword is not to be taken apart into its characters.
    generalize "function ".toList = keyword
    simp only [hlayout, List.append_assoc, List.cons_append, List.nil_append]
  have hindent : ∀ c ∈ ['\n', '\t'], Conditional.isLayout c = true := by
    simp [Conditional.isLayout]
  simp only [hdispatcher, Conditional.ofDispatcher?, Text.skip?_append, Text.upTo?_append hopen,
    Text.upTo?_append hclose, Text.skipEnd?_append, Option.bind_eq_bind, Option.bind_some]
  exact Conditional.ofText?_layoutAt hcall hparen 1 group.tree hindent

end Group.Numbers

/-- An expression that leads each id to the call of its function: the functions have the ids from one
on in their order. No function is called by zero, and the last one by all that is above its id. -/
structure Conditional.Dispatches (functions : List Text) (parameters : List Parameter)
    (e : Conditional) : Prop where
  eval_zero : e.eval 0 = ['0']
  eval_of_eq_nil : functions = [] → ∀ n, e.eval n = ['0']
  eval_id : ∀ f ∈ functions, e.eval (1 + functions.idxOf f) = callText f parameters
  eval_above : ∀ f, functions.getLast? = some f → ∀ n, functions.length < n →
    e.eval n = callText f parameters

theorem Group.Numbers.dispatches {group : Group} {functions : List Text}
    (h : group.Numbers functions) :
    (group.tree.conditional (group.call group.functionsById)).Dispatches functions
      group.parameters := by
  refine ⟨h.eval_zero, ?_, ?_, ?_⟩
  · rintro rfl
    exact h.eval_of_functions_eq_nil
  · intro f hf
    have hlt := List.idxOf_lt_length_of_mem hf
    refine h.eval_of_pos (by omega) ?_
    rw [Nat.min_eq_left (by omega), Nat.add_sub_cancel_left]
    exact List.getElem?_idxOf hf
  · intro f hf n hn
    refine h.eval_of_pos (by omega) ?_
    rw [Nat.min_eq_right (by omega), ← List.getLast?_eq_getElem?]
    exact hf

variable {t : Text}

/-- The groups of a source as they stand before its call sites are numbered. -/
theorem Enrolled.of_declareGroups {table : Table} (h : declareGroups t = .ok table) :
    Enrolled table [] table := by
  refine ⟨fun _ => rfl, ?_, by simp⟩
  intro name group hgroup
  obtain ⟨m, -, rfl, rfl⟩ := (declareGroups_eq_ok h name group).mp hgroup
  exact ⟨rfl, rfl, rfl⟩

theorem writeDispatcher_eq_ok {m : Declaration} {table table' : Table} {text : Text}
    (h : writeDispatcher m table = .ok (text, table')) : table' = table := by
  obtain ⟨group, -, h⟩ := bind_eq_ok_iff.mp h
  exact (congrArg Prod.snd (Except.ok.inj h)).symm

theorem writeCall_eq_ok {m : Shorthand} {table table' : Table} {text : Text}
    (h : writeCall m table = .ok (text, table')) : table' = table := by
  obtain ⟨group, -, h⟩ := bind_eq_ok_iff.mp h
  exact (congrArg Prod.snd (Except.ok.inj h)).symm

/-- The groups of a source are as they stand when its call sites have been numbered. -/
theorem exists_numbered_of_synthesize {s : Synthesis} (h : synthesize t = .ok s) :
    ∃ declared numbered, declareGroups t = .ok declared ∧
      CallSite.pattern.resolve numberCallSite t declared = .ok (numbered, s.table) := by
  obtain ⟨declared, hdeclared, h⟩ := bind_eq_ok_iff.mp h
  obtain ⟨⟨numbered, table₁⟩, hnumbered, h⟩ := bind_eq_ok_iff.mp h
  obtain ⟨⟨written, table₂⟩, hwritten, h⟩ := bind_eq_ok_iff.mp h
  obtain ⟨⟨called, table₃⟩, hcalled, h⟩ := bind_eq_ok_iff.mp h
  obtain rfl := Except.ok.inj h
  have h₂ : table₂ = table₁ :=
    Pattern.state_of_resolve_eq_ok (f := id) writeDispatcher_eq_ok hwritten
  have h₃ : table₃ = table₂ := Pattern.state_of_resolve_eq_ok (f := id) writeCall_eq_ok hcalled
  obtain rfl := h₃.trans h₂
  exact ⟨declared, numbered, hdeclared, hnumbered⟩

/-- The group of a declaration once call sites have been numbered: its dispatcher leads the ids to
their functions. -/
theorem Enrolled.dispatches {declared table : Table} {calls : List CallSite}
    (h : Enrolled declared calls table) (hcalls : ∀ m ∈ calls, IsName m.function)
    {d : Declaration} (hd : declared[d.group.name]? = some d.declared)
    (hnames : IsName d.group.name ∧ ∀ p ∈ d.parameters, IsName p.name) :
    ∃ group, table[d.group.name]? = some group ∧
      ∃ e, Conditional.ofDispatcher? group.dispatcher = some e ∧
        e.Dispatches (functionsOf d.group.name calls) d.parameters := by
  have hparameters := h.parameters_eq d.group.name
  rw [hd, Option.map_some, Option.map_eq_some_iff] at hparameters
  obtain ⟨group, hgroup, heq⟩ := hparameters
  have heq : group.parameters = d.parameters := heq
  obtain ⟨hname, hnumbers⟩ := h.numbers hgroup
  have hfunctions : ∀ f ∈ functionsOf d.group.name calls, IsName f := by
    intro f hf
    obtain ⟨m, hm, -, rfl⟩ := exists_of_mem_functionsOf hf
    exact hcalls m hm
  have hread := hnumbers.ofDispatcher?_dispatcher hfunctions (heq ▸ hnames.2) (hname ▸ hnames.1)
  exact ⟨group, hgroup, _, hread, heq ▸ hnumbers.dispatches⟩

end Dispatch

end JsfxSugar
