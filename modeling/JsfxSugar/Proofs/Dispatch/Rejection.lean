import JsfxSugar.Proofs.Dispatch.Leftover

/-! Which sources have no dispatchers written, and for which fault: a group that is declared twice, or
else a call site, or else a call, of a group that is not declared. -/

namespace JsfxSugar.Dispatch

/-- The names of the groups that a source declares, in the order of the declarations. -/
def declaredNames (t : Text) : List Text :=
  (Declaration.pattern.hits t).map (·.group.name)

/-- Why the dispatchers of a source cannot be written. A call is looked for in the text `written`
that stands there when the dispatchers are. -/
inductive Rejects (t : Text) : Fault → Prop
  | duplicate {before after : List Text} {name : Text}
      (names_eq : declaredNames t = before ++ name :: after) (nodup : before.Nodup)
      (repeated : name ∈ before) :
      Rejects t (.duplicateGroup name)
  | callSite {m : CallSite} (nodup : (declaredNames t).Nodup)
      (first : (CallSite.pattern.hits t).find? (·.group.name ∉ declaredNames t) = some m) :
      Rejects t (.unknownGroup .dispatch m.group.name m.source)
  | shorthand {m : Shorthand} {declared table : Table} {numbered written : Text}
      (nodup : (declaredNames t).Nodup)
      (known : ∀ m ∈ CallSite.pattern.hits t, m.group.name ∈ declaredNames t)
      (groups : declareGroups t = .ok declared)
      (calls : CallSite.pattern.resolve numberCallSite t declared = .ok (numbered, table))
      (dispatchers : Declaration.pattern.resolve writeDispatcher numbered table =
        .ok (written, table))
      (first : (Shorthand.pattern.hits written).find? (·.group.name ∉ declaredNames t) = some m) :
      Rejects t (.unknownGroup .dispatch m.group.name m.source)

variable {t : Text} {declared table table' : Table} {calls before : List CallSite} {fault : Fault}

/-- Adding groups fails at the first one whose name was there before. -/
theorem addGroups_eq_error {ms : List Declaration}
    (h : ms.foldlM (fun table m => table.addGroup m.group.name m.parameters) table = .error fault) :
    ∃ before name after, ms.map (·.group.name) = before ++ name :: after ∧ before.Nodup ∧
      (∀ other ∈ before, other ∉ table) ∧ (name ∈ before ∨ name ∈ table) ∧
      fault = .duplicateGroup name := by
  induction ms generalizing table with
  | nil => cases h
  | cons m ms ih =>
    rw [List.foldlM_cons, Table.addGroup] at h
    by_cases hknown : m.group.name ∈ table
    · rw [if_pos hknown] at h
      obtain rfl := Except.error.inj h
      exact ⟨[], m.group.name, ms.map (·.group.name), rfl, .nil, by simp, Or.inr hknown, rfl⟩
    · rw [if_neg hknown] at h
      obtain ⟨before, name, after, hnames, hnodup, hbefore, hname, rfl⟩ := ih h
      simp only [Std.ExtTreeMap.mem_insert, Std.compare_eq_iff_eq, not_or] at hbefore hname
      refine ⟨m.group.name :: before, name, after, by rw [List.map_cons, hnames]; rfl, ?_, ?_, ?_, rfl⟩
      · refine List.nodup_cons.mpr ⟨fun hmem => ?_, hnodup⟩
        exact (hbefore m.group.name hmem).1 rfl
      · exact List.forall_mem_cons.mpr ⟨hknown, fun other hother => (hbefore other hother).2⟩
      · rcases hname with hname | rfl | hname
        · exact Or.inl (List.mem_cons_of_mem _ hname)
        · exact Or.inl List.mem_cons_self
        · exact Or.inr hname

/-- Declaring the groups of a source fails only for a name that is repeated. -/
theorem Rejects.of_declareGroups (h : declareGroups t = .error fault) : Rejects t fault := by
  obtain ⟨before, name, after, hnames, hnodup, -, hrepeated, rfl⟩ := addGroups_eq_error h
  have hrepeated : name ∈ before := by simpa using hrepeated
  exact .duplicate hnames hnodup hrepeated

theorem Table.demand_eq_error_iff {name reference : Text} :
    table.demand name reference = .error fault ↔
      table[name]? = none ∧ fault = .unknownGroup .dispatch name reference := by
  unfold demand
  cases table[name]? with
  | none => simp [eq_comm]
  | some group => simp

/-- A function can be enrolled where its id is a word. -/
theorem Group.Numbers.enroll_succeeds {group : Group} {functions : List Text} {function : Text}
    (h : group.Numbers functions)
    (hroom : (functions ++ if function ∈ functions then [] else [function]).length < idCount) :
    ∃ id group', group.enroll function = (.ok id, group') := by
  unfold enroll
  by_cases hmem : function ∈ functions
  · rw [h.id?_of_mem hmem]
    exact ⟨_, group, rfl⟩
  · rw [if_neg hmem, List.length_append, List.length_singleton] at hroom
    have hnext := h.next_eq
    have hword : group.counter.next < idCount := by omega
    have hlimit : group.counter.next < Counter.limit := Nat.lt_of_lt_of_le hword (by decide)
    rw [h.id?_of_not_mem hmem, Counter.take?_of_lt hlimit]
    dsimp only
    rw [if_pos hword]
    exact ⟨_, _, rfl⟩

/-- Numbering a call site fails only when its group is not there. -/
theorem numberCallSite_eq_error {m : CallSite} (h : Enrolled declared before table)
    (hroom : ∀ group, table[m.group.name]? = some group →
      (functionsOf m.group.name (before ++ [m])).length < idCount)
    (herror : numberCallSite m table = .error fault) :
    table[m.group.name]? = none ∧ fault = .unknownGroup .dispatch m.group.name m.source := by
  rcases bind_eq_error_iff.mp herror with hdemand | ⟨group, hdemand, herror⟩
  · exact Table.demand_eq_error_iff.mp hdemand
  · have hgroup := Table.demand_eq_ok_iff.mp hdemand
    have hlength := hroom group hgroup
    rw [functionsOf_concat] at hlength
    obtain ⟨id, group', henroll⟩ := (h.numbers hgroup).2.enroll_succeeds hlength
    simp [henroll, bind, Except.bind, pure, Except.pure] at herror

/-- A marker that names no known group is the first one to do so when all markers before it name known
groups. -/
theorem find?_eq_some_of_append {α : Type} {name : α → Text} {names : List Text} {ms front back : List α}
    {m : α} (hsplit : ms = front ++ m :: back) (hfront : ∀ a ∈ front, name a ∈ names)
    (hm : name m ∉ names) : ms.find? (name · ∉ names) = some m := by
  rw [List.find?_eq_some_iff_append]
  refine ⟨by simpa using hm, front, back, hsplit, fun a ha => ?_⟩
  simpa using hfront a ha

/-- Numbering the call sites of a source fails only at the first one whose group is not declared. -/
theorem Enrolled.resolve_eq_error (hdeclared : declareGroups t = .ok declared)
    (hroom : ∀ name ∈ declaredNames t, (functionsOf name (CallSite.pattern.hits t)).length < idCount)
    (herror : CallSite.pattern.resolve numberCallSite t declared = .error fault) :
    ∃ m, (CallSite.pattern.hits t).find? (·.group.name ∉ declaredNames t) = some m ∧
      fault = .unknownGroup .dispatch m.group.name m.source := by
  obtain ⟨front, m, back, table, hsplit, henrolled, hfault⟩ := Pattern.resolve_eq_error
    (Enrolled declared) (fun h hok => (h.step hok).2) [] (Enrolled.of_declareGroups hdeclared) herror
  rw [List.nil_append] at henrolled
  have hfirst : front ++ [m] <+: CallSite.pattern.hits t := ⟨back, by simp [hsplit]⟩
  have hsmall : ∀ group, table[m.group.name]? = some group →
      (functionsOf m.group.name (front ++ [m])).length < idCount := by
    intro group hgroup
    have hname := (henrolled.exists_group_iff hdeclared).mp ⟨group, hgroup⟩
    -- The functions so far are among those of the whole source, so their ids have room.
    have hfunctions : functionsOf m.group.name (front ++ [m]) <+:
        functionsOf m.group.name (CallSite.pattern.hits t) :=
      eraseDups_isPrefix ((hfirst.filter (·.group.name = m.group.name)).map (·.function))
    exact Nat.lt_of_le_of_lt hfunctions.length_le (hroom m.group.name hname)
  obtain ⟨hnone, rfl⟩ := numberCallSite_eq_error henrolled hsmall hfault
  refine ⟨m, find?_eq_some_of_append hsplit ?_ ?_, rfl⟩
  · intro c hc
    exact (henrolled.exists_group_iff hdeclared).mp (henrolled.declared c hc)
  · intro hname
    obtain ⟨group, hgroup⟩ := (henrolled.exists_group_iff hdeclared).mpr hname
    simp [hnone] at hgroup

theorem writeDispatcher_eq_error {m : Declaration} (h : writeDispatcher m table = .error fault) :
    table[m.group.name]? = none := by
  rcases bind_eq_error_iff.mp h with hdemand | ⟨group, -, h⟩
  · exact (Table.demand_eq_error_iff.mp hdemand).1
  · cases h

theorem writeCall_eq_error {m : Shorthand} (h : writeCall m table = .error fault) :
    table[m.group.name]? = none ∧ fault = .unknownGroup .dispatch m.group.name m.source := by
  rcases bind_eq_error_iff.mp h with hdemand | ⟨group, -, h⟩
  · exact Table.demand_eq_error_iff.mp hdemand
  · cases h

/-- Every declaration that is left when the call sites are numbered finds its group. -/
theorem Enrolled.resolve_writeDispatcher
    (h : Enrolled declared (CallSite.pattern.hits t) table) (hdeclared : declareGroups t = .ok declared) :
    Declaration.pattern.resolve writeDispatcher (numberedText t) table =
      .ok (declaredText table t, table) := by
  cases hrun : Declaration.pattern.resolve writeDispatcher (numberedText t) table with
  | ok out =>
    obtain ⟨written, table'⟩ := out
    obtain ⟨-, rfl, rfl⟩ := Pattern.resolve_eq_ok_of_forall_eq writeDispatcher_eq_ok_written hrun
    rfl
  | error fault =>
    obtain ⟨front, m, back, state, hsplit, rfl, hfault⟩ := Pattern.resolve_eq_error
      (fun _ state => state = table) (fun hstate hok => (writeDispatcher_eq_ok hok).trans hstate) []
      rfl hrun
    have hm : m ∈ Declaration.pattern.hits t :=
      (Declaration.hits_numbered (CallSite.pattern.hits t) t).1.subset (hsplit ▸ by simp)
    obtain ⟨group, hgroup⟩ := (h.exists_group_iff hdeclared).mpr (List.mem_map_of_mem hm)
    rw [writeDispatcher_eq_error hfault] at hgroup
    cases hgroup

/-- Writing calls out fails only at the first one whose group is not declared. -/
theorem Enrolled.resolve_writeCall (h : Enrolled declared calls table)
    (hdeclared : declareGroups t = .ok declared) {written : Text}
    (herror : Shorthand.pattern.resolve writeCall written table = .error fault) :
    ∃ m, (Shorthand.pattern.hits written).find? (·.group.name ∉ declaredNames t) = some m ∧
      fault = .unknownGroup .dispatch m.group.name m.source := by
  obtain ⟨front, m, back, state, hsplit, ⟨hfront, hstate⟩, hfault⟩ := Pattern.resolve_eq_error
    (fun (seen : List Shorthand) state =>
      (∀ c ∈ seen, c.group.name ∈ declaredNames t) ∧ state = table)
    (fun {seen state c text state'} hseen hok => by
      obtain ⟨hall, rfl⟩ := hseen
      obtain ⟨hgroup, -, hstate⟩ := writeCall_eq_ok_written hok
      have hc := (h.exists_group_iff hdeclared).mp hgroup
      exact ⟨List.forall_mem_append.mpr ⟨hall, List.forall_mem_singleton.mpr hc⟩, hstate⟩)
    [] ⟨List.forall_mem_nil _, rfl⟩ herror
  obtain rfl : state = table := hstate
  obtain ⟨hnone, rfl⟩ := writeCall_eq_error hfault
  refine ⟨m, find?_eq_some_of_append hsplit hfront ?_, rfl⟩
  intro hname
  obtain ⟨group, hgroup⟩ := (h.exists_group_iff hdeclared).mpr hname
  simp [hnone] at hgroup

/-- A source that fails is rejected for what it fails with. -/
theorem Rejects.of_synthesize
    (hroom : ∀ name ∈ declaredNames t, (functionsOf name (CallSite.pattern.hits t)).length < idCount)
    (h : synthesize t = .error fault) : Rejects t fault := by
  rcases bind_eq_error_iff.mp h with hdeclare | ⟨declared, hdeclared, h⟩
  · exact .of_declareGroups hdeclare
  have hnodup : (declaredNames t).Nodup := (nodup_of_addGroups hdeclared).1
  rcases bind_eq_error_iff.mp h with hcalls | ⟨⟨numbered, table⟩, hnumbered, h⟩
  · obtain ⟨m, hfirst, rfl⟩ := Enrolled.resolve_eq_error hdeclared hroom hcalls
    exact .callSite hnodup hfirst
  obtain ⟨hnumberedText, henrolled⟩ := (Enrolled.of_declareGroups hdeclared).resolve_eq_ok hnumbered
  obtain rfl : numbered = numberedText t := hnumberedText
  have hdispatchers := henrolled.resolve_writeDispatcher hdeclared
  rcases bind_eq_error_iff.mp h with hwrite | ⟨⟨written, table'⟩, hwritten, h⟩
  · rw [hdispatchers] at hwrite
    cases hwrite
  obtain ⟨rfl, rfl⟩ := Prod.mk.inj (Except.ok.inj (hdispatchers.symm.trans hwritten))
  rcases bind_eq_error_iff.mp h with hcall | ⟨out, -, h⟩
  · obtain ⟨m, hfirst, rfl⟩ := henrolled.resolve_writeCall hdeclared hcall
    have hknown : ∀ m ∈ CallSite.pattern.hits t, m.group.name ∈ declaredNames t := fun m hm =>
      (henrolled.exists_group_iff hdeclared).mp (henrolled.declared m hm)
    exact .shorthand hnodup hknown hdeclared hnumbered hwritten hfirst
  · cases h

/-- No two names are the first to be repeated. -/
theorem eq_of_first_repeated {names before after before' after' : List Text} {name name' : Text}
    (h : names = before ++ name :: after) (hnodup : before.Nodup) (hname : name ∈ before)
    (h' : names = before' ++ name' :: after') (hnodup' : before'.Nodup) (hname' : name' ∈ before') :
    name = name' := by
  have hnot : ∀ {front : List Text} {other : Text}, other ∈ front → ¬ (front ++ [other]).Nodup := by
    intro front other hother hboth
    exact (List.nodup_append.mp hboth).2.2 other hother other (by simp) rfl
  have hfront : before ++ [name] <+: names := ⟨after, by simp [h]⟩
  have hfront' : before' ++ [name'] <+: names := ⟨after', by simp [h']⟩
  -- The shorter of two beginnings with a repetition would lie within what is still distinct.
  rcases Nat.lt_trichotomy before.length before'.length with hlt | heq | hgt
  · have hshort : before ++ [name] <+: before' := List.prefix_of_prefix_length_le hfront
      ⟨name' :: after', h'.symm⟩ (by simpa using Nat.succ_le_of_lt hlt)
    exact absurd (hnodup'.sublist hshort.sublist) (hnot hname)
  · have hsame := (List.append_inj (h.symm.trans h') heq).2
    exact (List.cons.inj hsame).1
  · have hshort : before' ++ [name'] <+: before := List.prefix_of_prefix_length_le hfront'
      ⟨name :: after, h.symm⟩ (by simpa using Nat.succ_le_of_lt hgt)
    exact absurd (hnodup.sublist hshort.sublist) (hnot hname')

theorem not_nodup_of_repeated {before after : List Text} {name : Text}
    (h : declaredNames t = before ++ name :: after) (hname : name ∈ before) :
    ¬ (declaredNames t).Nodup := by
  intro hnodup
  rw [h] at hnodup
  exact (List.nodup_append.mp hnodup).2.2 name hname name List.mem_cons_self rfl

theorem not_find?_of_known {α : Type} {name : α → Text} {names : List Text} {ms : List α} {m : α}
    (hknown : ∀ a ∈ ms, name a ∈ names) : ms.find? (name · ∉ names) ≠ some m := by
  intro hfind
  have hnot := List.find?_some hfind
  exact of_decide_eq_true hnot (hknown m (List.mem_of_find?_eq_some hfind))

/-- A source is rejected for one fault only. -/
theorem Rejects.eq {fault' : Fault} (h : Rejects t fault) (h' : Rejects t fault') :
    fault = fault' := by
  cases h with
  | duplicate hnames hnodup hrepeated =>
    cases h' with
    | duplicate hnames' hnodup' hrepeated' =>
      rw [eq_of_first_repeated hnames hnodup hrepeated hnames' hnodup' hrepeated']
    | callSite hdistinct => exact absurd hdistinct (not_nodup_of_repeated hnames hrepeated)
    | shorthand hdistinct => exact absurd hdistinct (not_nodup_of_repeated hnames hrepeated)
  | callSite hdistinct hfirst =>
    cases h' with
    | duplicate hnames _ hrepeated => exact absurd hdistinct (not_nodup_of_repeated hnames hrepeated)
    | callSite _ hfirst' =>
      obtain rfl := Option.some.inj (hfirst.symm.trans hfirst')
      rfl
    | shorthand _ hknown => exact absurd hfirst (not_find?_of_known hknown)
  | shorthand hdistinct hknown hgroups hcalls hdispatchers hfirst =>
    cases h' with
    | duplicate hnames _ hrepeated => exact absurd hdistinct (not_nodup_of_repeated hnames hrepeated)
    | callSite _ hfirst' => exact absurd hfirst' (not_find?_of_known hknown)
    | shorthand _ _ hgroups' hcalls' hdispatchers' hfirst' =>
      obtain rfl := Except.ok.inj (hgroups.symm.trans hgroups')
      obtain ⟨rfl, rfl⟩ := Prod.mk.inj (Except.ok.inj (hcalls.symm.trans hcalls'))
      obtain ⟨rfl, -⟩ := Prod.mk.inj (Except.ok.inj (hdispatchers.symm.trans hdispatchers'))
      obtain rfl := Option.some.inj (hfirst.symm.trans hfirst')
      rfl

/-- A source whose dispatchers are written is not rejected. -/
theorem not_rejects_of_synthesize {s : Synthesis} (h : synthesize t = .ok s) : ¬ Rejects t fault := by
  have hwrites := synthesize_writes h
  obtain ⟨declared, numbered, hdeclared, hnumbered⟩ := exists_numbered_of_synthesize h
  obtain ⟨hnumberedText, henrolled⟩ := (Enrolled.of_declareGroups hdeclared).resolve_eq_ok hnumbered
  obtain rfl : numbered = numberedText t := hnumberedText
  intro hrejects
  cases hrejects with
  | duplicate hnames _ hrepeated =>
    exact not_nodup_of_repeated hnames hrepeated (nodup_of_addGroups hdeclared).1
  | callSite _ hfirst =>
    refine not_find?_of_known (fun m hm => ?_) hfirst
    exact (henrolled.exists_group_iff hdeclared).mp (henrolled.declared m hm)
  | shorthand _ _ hgroups hcalls hdispatchers hfirst =>
    obtain rfl := Except.ok.inj (hdeclared.symm.trans hgroups)
    obtain ⟨rfl, rfl⟩ := Prod.mk.inj (Except.ok.inj (hnumbered.symm.trans hcalls))
    rw [henrolled.resolve_writeDispatcher hdeclared] at hdispatchers
    obtain ⟨rfl, -⟩ := Prod.mk.inj (Except.ok.inj hdispatchers)
    refine not_find?_of_known (fun m hm => ?_) hfirst
    exact (henrolled.exists_group_iff hdeclared).mp (hwrites.shorthands m hm)

/-- No declaration is left in the end. -/
theorem Synthesis.Writes.hits_declarations {s : Synthesis} (h : s.Writes t) :
    Declaration.pattern.hits s.text = [] := by
  rw [h.text_eq]
  apply Declaration.hits_substitute_shorthand
  apply Declaration.hits_substitute_declaration
  intro d hd
  obtain ⟨group, -, hdispatcher, hnamed⟩ := h.exists_dispatcher hd
  rw [hdispatcher]
  exact ⟨hnamed.isReplacement_dispatcher, hnamed.not_mem_dispatcher (by decide),
    group.endsOutside_dispatcher (by decide)⟩

/-- Where every function of a declared group can have an id, a source fails exactly for the fault that
it is rejected for. The declarations that are left when its call sites are numbered are declarations
of the source, and writing their dispatchers does not fail; in the end no declaration is left. -/
theorem synthesize_eq_error_iff (t : Text) (hroom : ∀ name ∈ declaredNames t,
      (functionsOf name (CallSite.pattern.hits t)).length < idCount) :
    (∀ fault, synthesize t = .error fault ↔ Rejects t fault) ∧
    (∀ declared numbered table, declareGroups t = .ok declared →
      CallSite.pattern.resolve numberCallSite t declared = .ok (numbered, table) →
      (Declaration.pattern.hits numbered).Sublist (Declaration.pattern.hits t) ∧
        ∃ written, Declaration.pattern.resolve writeDispatcher numbered table =
          .ok (written, table)) ∧
    ∀ s, synthesize t = .ok s → Declaration.pattern.hits s.text = [] := by
  refine ⟨fun fault => ⟨Rejects.of_synthesize hroom, fun hrejects => ?_⟩, ?_, ?_⟩
  · cases hrun : synthesize t with
    | ok s => exact absurd hrejects (not_rejects_of_synthesize hrun)
    | error other => rw [(Rejects.of_synthesize hroom hrun).eq hrejects]
  · intro declared numbered table hdeclared hnumbered
    obtain ⟨hnumberedText, henrolled⟩ :=
      (Enrolled.of_declareGroups hdeclared).resolve_eq_ok hnumbered
    obtain rfl : numbered = numberedText t := hnumberedText
    exact ⟨(Declaration.hits_numbered (CallSite.pattern.hits t) t).1, declaredText table t,
      henrolled.resolve_writeDispatcher hdeclared⟩
  · exact fun s hs => (synthesize_writes hs).hits_declarations

/-- A group that is declared twice, a call site and a call of a group that is not declared, and a
source with none of these. -/
theorem synthesize_eq_error_iff_lead :
    let twice := "function {a}(x) {q} f; function {b}() function {b}(y) function {a}()".toList
    let named := "{a} f; {q} g; {r} h; function {a}(x)".toList
    let called := "{a} f; function {a}(x) {a: 1}(2) {q: 1}(2) {r: 1}()".toList
    let plain := "{lead} f; function {lead}(x) {lead: 1}(2)".toList
    synthesize twice = .error (.duplicateGroup ['b']) ∧
      synthesize named = .error (.unknownGroup .dispatch ['q'] "{q} g".toList) ∧
      synthesize called = .error (.unknownGroup .dispatch ['q'] "{q: 1}(2)".toList) ∧
      ∃ s, synthesize plain = .ok s ∧ Declaration.pattern.hits s.text = [] := by
  intro twice named called plain
  obtain ⟨hcalled, hpasses, -⟩ := synthesize_eq_error_iff called (by decide +kernel)
  obtain ⟨-, -, hfinished⟩ := synthesize_eq_error_iff plain (by decide +kernel)
  refine ⟨?_, ?_, ?_, ?_⟩
  · have hnames : declaredNames twice = [['a'], ['b']] ++ ['b'] :: [['a']] := by decide +kernel
    rw [(synthesize_eq_error_iff twice (by decide +kernel)).1]
    exact Rejects.duplicate hnames (by decide) (by decide)
  · let m : CallSite := ⟨⟨[], ['q'], []⟩, [' '], ['g']⟩
    have hfirst : (CallSite.pattern.hits named).find? (·.group.name ∉ declaredNames named) = some m := by
      decide +kernel
    rw [(synthesize_eq_error_iff named (by decide +kernel)).1]
    exact Rejects.callSite (by decide +kernel) hfirst
  · let m : Shorthand := ⟨⟨[], ['q'], []⟩, " 1".toList, [], ['2']⟩
    let first : Except Fault (Option Shorthand) := do
      let declared ← declareGroups called
      let numbered ← CallSite.pattern.resolve numberCallSite called declared
      let written ← Declaration.pattern.resolve writeDispatcher numbered.1 numbered.2
      return (Shorthand.pattern.hits written.1).find? (·.group.name ∉ declaredNames called)
    obtain ⟨found, hfound⟩ : ∃ found, first = .ok found := exists_eq_ok_of_isSome (by decide +kernel)
    have hfirst : first.toOption = some (some m) := by decide +kernel
    rw [hfound] at hfirst
    obtain rfl := Option.some.inj hfirst
    obtain ⟨declared, hdeclared, hcalls⟩ := bind_eq_ok_iff.mp hfound
    obtain ⟨⟨numbered, table⟩, hnumbered, hdispatchers⟩ := bind_eq_ok_iff.mp hcalls
    obtain ⟨⟨written, table'⟩, hwritten, hfirst⟩ := bind_eq_ok_iff.mp hdispatchers
    obtain ⟨-, written', hwritten'⟩ := hpasses declared numbered table hdeclared hnumbered
    obtain ⟨rfl, rfl⟩ := Prod.mk.inj (Except.ok.inj (hwritten.symm.trans hwritten'))
    rw [hcalled]
    exact Rejects.shorthand (by decide +kernel) (by decide +kernel) hdeclared hnumbered hwritten
      (Except.ok.inj hfirst)
  · obtain ⟨s, hs⟩ : ∃ s, synthesize plain = .ok s := exists_eq_ok_of_isSome (by decide +kernel)
    exact ⟨s, hs, hfinished s hs⟩

end JsfxSugar.Dispatch
