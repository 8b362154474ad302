import JsfxSugar.Dispatch.Synthesis
import JsfxSugar.Proofs.Substitution
import JsfxSugar.Proofs.Text

/-! The groups that a source declares, and the names that its markers hold. -/

namespace JsfxSugar.Dispatch

variable {t r : Text} {c : Char}

theorem isBlank_eq_false_of_isNameChar (h : isNameChar c = true) : Text.isBlank c = false := by
  simp only [isNameChar, Bool.or_eq_true, decide_eq_true_eq] at h
  rcases h with (h | rfl) | rfl
  · exact Text.isBlank_eq_false_of_isAlphanum h
  · decide
  · decide

/-- A name as the markers of dispatch hold it. -/
abbrev IsName (name : Text) : Prop := Text.IsRun isNameChar name

theorem isName_of_name? {gap name : Text} (h : name? t = some (gap, name, r)) : IsName name := by
  simp only [name?, Option.map_eq_some_iff, Prod.mk.injEq, Prod.exists] at h
  obtain ⟨run, s, hrun, rfl, rfl, rfl⟩ := h
  exact Text.isRun_of_run? hrun

theorem Padded.isName_of_read? {mark : Text} {p : Padded} (h : Padded.read? mark t = some (p, r)) :
    IsName p.name := by
  simp only [Padded.read?, Option.bind_eq_bind, Option.bind_eq_some_iff, Prod.exists,
    Option.pure_def, Option.some.injEq, Prod.mk.injEq] at h
  obtain ⟨before, name, s, hname, after, _, _, rfl, rfl⟩ := h
  exact isName_of_name? hname

theorem CallSite.isName_of_read? {m : CallSite} (h : CallSite.read? t = some (m, r)) :
    IsName m.function := by
  simp only [CallSite.read?, Option.bind_eq_bind, Option.bind_eq_some_iff, Prod.exists,
    Option.pure_def, Option.some.injEq, Prod.mk.injEq] at h
  obtain ⟨s, _, group, s₁, hgroup, gap, function, s₂, hname, rfl, rfl⟩ := h
  exact isName_of_name? hname

theorem Shorthand.isName_of_read? {m : Shorthand} {r : Text}
    (h : Shorthand.read? t = some (m, r)) : IsName m.group.name := by
  simp only [Shorthand.read?, group?, Option.bind_eq_bind, Option.bind_eq_some_iff, Prod.exists,
    Option.pure_def, Option.some.injEq, Prod.mk.injEq] at h
  obtain ⟨group, _, ⟨_, -, hgroup⟩, _, _, -, _, _, _, -, rfl, rfl⟩ := h
  exact Padded.isName_of_read? hgroup

theorem isName_of_isParameter {raw : Text} (h : isParameter raw = true) :
    IsName (Parameter.ofDeclared raw).name := by
  simp only [isParameter, Bool.and_eq_true, Bool.not_eq_true', List.isEmpty_eq_false_iff,
    List.all_eq_true] at h
  exact ⟨h.1, h.2⟩

/-- Renumbering puts a name in the place of a name. -/
theorem Parameter.isName_atIndex {raw : Text} (h : isParameter raw = true) (index : Nat) :
    IsName (Parameter.atIndex raw index).name := by
  simp only [Parameter.atIndex]
  split
  · have harg : "arg".toList.all Dispatch.isNameChar = true := by decide
    refine ⟨by simp, fun c hc => ?_⟩
    rcases List.mem_append.mp hc with hc | hc
    · exact List.all_eq_true.mp harg c hc
    · simp [Dispatch.isNameChar, Char.isAlphanum, Text.isDigit_of_mem_ofNat hc]
  · exact isName_of_isParameter h

theorem Parameter.isName_of_mem_parseList {list : Text} (h : isParameterList list = true)
    {p : Parameter} (hp : p ∈ Parameter.parseList list) : IsName p.name := by
  unfold Parameter.parseList at hp
  split at hp
  · simp at hp
  · rename_i hblank
    obtain ⟨index, hindex, rfl⟩ := List.mem_mapIdx.mp hp
    simp only [isParameterList, Bool.or_eq_true, hblank, Bool.false_eq_true, false_or,
      List.all_eq_true] at h
    exact isName_atIndex (h _ (List.getElem_mem hindex)) index

namespace Declaration

theorem of_read? {m : Declaration} (h : Declaration.read? t = some (m, r)) :
    IsName m.group.name ∧ ∀ p ∈ m.parameters, IsName p.name := by
  simp only [Declaration.read?, Option.bind_eq_bind, Option.bind_eq_some_iff, Prod.exists,
    Option.pure_def] at h
  obtain ⟨_, _, gap, _, _, group, _, hgroup, space, _, _, list, _, _, h⟩ := h
  split at h
  · rename_i hlist
    simp only [Option.some.injEq, Prod.mk.injEq] at h
    obtain ⟨rfl, rfl⟩ := h
    exact ⟨Padded.isName_of_read? hgroup, fun p => Parameter.isName_of_mem_parseList hlist⟩
  · simp at h

/-- The names in the declarations of a text. -/
theorem isName_of_mem_hits {d : Declaration} (hd : d ∈ Declaration.pattern.hits t) :
    IsName d.group.name ∧ ∀ p ∈ d.parameters, IsName p.name :=
  Pattern.forall_mem_hits (P := fun d : Declaration =>
    IsName d.group.name ∧ ∀ p ∈ d.parameters, IsName p.name) of_read? d hd

theorem one_le_limit : 1 ≤ Counter.limit := by decide

/-- The group that a declaration brings in. -/
def declared (m : Declaration) : Group where
  name := m.group.name
  parameters := m.parameters
  counter := .ofNext 1 one_le_limit

end Declaration

/-- Groups that are added stand in the table as they were declared, next to those that it had. -/
theorem addGroups_eq_ok {ms : List Declaration} {table table' : Table}
    (h : ms.foldlM (fun table m => table.addGroup m.group.name m.parameters) table = .ok table')
    (name : Text) (group : Group) :
    table'[name]? = some group ↔
      table[name]? = some group ∨ ∃ m ∈ ms, m.group.name = name ∧ group = m.declared := by
  induction ms generalizing table with
  | nil =>
    obtain rfl := Except.ok.inj h
    simp
  | cons m ms ih =>
    rw [List.foldlM_cons, Table.addGroup] at h
    split at h
    · simp [bind, Except.bind] at h
    · rename_i hnew
      have hnone : table[m.group.name]? = none := Std.ExtTreeMap.getElem?_eq_none hnew
      rw [ih h, NameTable.getElem?_insert]
      by_cases hname : name = m.group.name
      · subst hname
        simp [hnone, Declaration.declared, eq_comm]
      · simp [hname, Ne.symm hname]

/-- The groups of a source are those that it declares. -/
theorem declareGroups_eq_ok {table : Table} (h : declareGroups t = .ok table) (name : Text)
    (group : Group) : table[name]? = some group ↔
      ∃ m ∈ Declaration.pattern.hits t, m.group.name = name ∧ group = m.declared := by
  rw [addGroups_eq_ok h]
  simp

end JsfxSugar.Dispatch
