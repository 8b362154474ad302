import JsfxSugar.Proofs.Dispatch.Search
import JsfxSugar.Symbols
import Mathlib.Algebra.Group.Nat.Defs
import Mathlib.Data.Nat.Log

/-! A selector tree over `n` ids takes no more comparisons than it must: `⌈log₂ n⌉` at most, and
`⌊log₂ n⌋` at the least. -/

namespace JsfxSugar.Dispatch.SelectorTree

variable {ids : List Nat} {tree : SelectorTree} {tip : Nat × Nat}

/-- The ids from left to right, each with the number of comparisons that lead to it. -/
def leaves : SelectorTree → List (Nat × Nat)
  | leaf id => [(id, 0)]
  | branch _ below above => (below.leaves ++ above.leaves).map fun (id, level) => (id, level + 1)

theorem map_fst_leaves (tree : SelectorTree) : tree.leaves.map (·.1) = tree.ids := by
  induction tree with
  | leaf id => rfl
  | branch threshold below above hbelow habove =>
    rw [leaves, ids, ← hbelow, ← habove, List.map_map, ← List.map_append]
    rfl

theorem mem_leaves_branch {threshold : Nat} {below above : SelectorTree} :
    tip ∈ (branch threshold below above).leaves ↔
      ∃ inner, (inner ∈ below.leaves ∨ inner ∈ above.leaves) ∧
        tip = (inner.1, inner.2 + 1) := by
  simp only [leaves, List.mem_map, List.mem_append, eq_comm]

theorem level_le_depth (h : tip ∈ tree.leaves) : tip.2 ≤ tree.depth := by
  induction tree generalizing tip with
  | leaf id =>
    obtain rfl := List.mem_singleton.mp h
    exact Nat.le_refl _
  | branch threshold below above hbelow habove =>
    obtain ⟨inner, hinner | hinner, rfl⟩ := mem_leaves_branch.mp h
    · have := hbelow hinner
      simp only [depth]
      omega
    · have := habove hinner
      simp only [depth]
      omega

/-- Each comparison at most doubles the number of ids that can be told apart. -/
theorem length_ids_le (tree : SelectorTree) : tree.ids.length ≤ 2 ^ tree.depth := by
  induction tree with
  | leaf id => exact Nat.le_refl 1
  | branch threshold below above hbelow habove =>
    have hleft : 2 ^ below.depth ≤ 2 ^ max below.depth above.depth :=
      Nat.pow_le_pow_right (by decide) (Nat.le_max_left _ _)
    have hright : 2 ^ above.depth ≤ 2 ^ max below.depth above.depth :=
      Nat.pow_le_pow_right (by decide) (Nat.le_max_right _ _)
    rw [ids, depth, List.length_append, Nat.add_comm 1, Nat.pow_succ]
    omega

theorem two_le_length {first rest : List Nat} (hne : first ≠ []) (id : Nat) :
    2 ≤ (first ++ id :: rest).length := by
  have := List.length_pos_iff.mpr hne
  rw [List.length_append, List.length_cons]
  omega

/-- The longer half decides the depth, and it is the one that is rounded up. -/
theorem depth_ofIds (ids : List Nat) : (ofIds ids).depth = Nat.clog 2 ids.length := by
  induction ids using ofIds_induction with
  | nil => simp [depth]
  | single id => simp [depth]
  | halves first id rest hne hlength htree hbelow habove =>
    have hclog : Nat.clog 2 (first ++ id :: rest).length = Nat.clog 2 first.length + 1 := by
      rw [hlength]
      exact Nat.clog_of_two_le Nat.one_lt_two (two_le_length hne id)
    have hle : Nat.clog 2 (id :: rest).length ≤ Nat.clog 2 first.length := by
      apply Nat.clog_mono_right
      rw [List.length_append] at hlength
      omega
    rw [htree, depth, hbelow, habove, hclog, Nat.max_eq_left hle, Nat.add_comm]

/-- Not even the shorter half, the one that is rounded down, has a leaf above this level. -/
theorem log_le_level (h : tip ∈ (ofIds ids).leaves) : Nat.log 2 ids.length ≤ tip.2 := by
  induction ids using ofIds_induction generalizing tip with
  | nil => simp
  | single id => simp
  | halves first id rest hne hlength htree hbelow habove =>
    have hhalf : (id :: rest).length = (first ++ id :: rest).length / 2 := by
      rw [List.length_append] at hlength ⊢
      omega
    have hlog : Nat.log 2 (first ++ id :: rest).length = Nat.log 2 (id :: rest).length + 1 := by
      rw [hhalf]
      exact Nat.log_of_one_lt_of_le Nat.one_lt_two (two_le_length hne id)
    have hle : Nat.log 2 (id :: rest).length ≤ Nat.log 2 first.length := by
      apply Nat.log_mono_right
      omega
    rw [htree] at h
    obtain ⟨inner, hinner | hinner, rfl⟩ := mem_leaves_branch.mp h
    · have := hbelow hinner
      omega
    · have := habove hinner
      omega

theorem clog_le_log_add_one (n : Nat) : Nat.clog 2 n ≤ Nat.log 2 n + 1 :=
  Nat.clog_le_of_le_pow (Nat.le_of_lt (Nat.lt_pow_succ_log_self Nat.one_lt_two n))

/-- The levels of all leaves differ by one at most. -/
theorem level_eq (h : tip ∈ (ofIds ids).leaves) :
    tip.2 = Nat.log 2 ids.length ∨ tip.2 = Nat.clog 2 ids.length := by
  have hleast := log_le_level h
  have hmost := level_le_depth h
  rw [depth_ofIds] at hmost
  have := clog_le_log_add_one ids.length
  omega

end SelectorTree

theorem Group.depth_tree (group : Group) :
    group.tree.depth = Nat.clog 2 (group.functions.entries.length + 1) := by
  rw [tree, SelectorTree.depth_ofIds, List.length_cons, List.length_map]

namespace SelectorTree

/-- The tree over some ids takes as few comparisons as any tree over them, and the paths to its
leaves differ by one comparison at most. So the report tells for each group the logarithm of the
number of its functions, the id for none counted as one. -/
theorem ofIds_balanced :
    (∀ ids : List Nat, ids ≠ [] →
      (ofIds ids).depth = Nat.clog 2 ids.length ∧
        (∀ tree : SelectorTree, tree.ids = ids → (ofIds ids).depth ≤ tree.depth) ∧
        (ofIds ids).leaves.map (·.1) = ids ∧
        ∀ tip ∈ (ofIds ids).leaves,
          tip.2 = Nat.log 2 ids.length ∨ tip.2 = Nat.clog 2 ids.length) ∧
      (∀ group : Group, group.tree.depth = Nat.clog 2 (group.functions.entries.length + 1)) ∧
      ∀ (enumerations : Enumeration.Table) (dispatch : Table),
        (Symbols.ofTables enumerations dispatch).dispatch.map
            (fun entry => (entry.group, entry.functions, entry.treeDepth)) =
          dispatch.values.map fun group => (group.name, group.functions.entries,
            Nat.clog 2 (group.functions.entries.length + 1)) := by
  refine ⟨fun ids hne => ⟨depth_ofIds ids, ?_, ?_, fun _ => level_eq⟩, Group.depth_tree, ?_⟩
  · rintro tree rfl
    rw [depth_ofIds]
    exact Nat.clog_le_of_le_pow (length_ids_le tree)
  · rw [map_fst_leaves, ids_ofIds hne]
  · intro enumerations dispatch
    rw [Symbols.ofTables, List.map_map]
    apply List.map_congr_left
    intro group _
    simp only [Function.comp_apply, Group.entry, Group.depth_tree]

/-- Each of five ids, with gaps between them, is found by two or three comparisons. -/
theorem ofIds_balanced_five :
    (ofIds [0, 1, 4, 9, 16]).depth = 3 ∧
      (ofIds [0, 1, 4, 9, 16]).leaves.map (·.1) = [0, 1, 4, 9, 16] ∧
      ∀ tip ∈ (ofIds [0, 1, 4, 9, 16]).leaves, tip.2 = 2 ∨ tip.2 = 3 := by
  obtain ⟨hdepth, -, hids, hlevels⟩ :=
    ofIds_balanced.1 [0, 1, 4, 9, 16] (List.cons_ne_nil 0 [1, 4, 9, 16])
  have hlog : Nat.log 2 [0, 1, 4, 9, 16].length = 2 := by decide
  have hclog : Nat.clog 2 [0, 1, 4, 9, 16].length = 3 := by decide
  rw [hlog, hclog] at hlevels
  exact ⟨hdepth.trans hclog, hids, hlevels⟩

end JsfxSugar.Dispatch.SelectorTree
