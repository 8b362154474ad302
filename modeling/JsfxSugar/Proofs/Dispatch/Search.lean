import JsfxSugar.Dispatch.SelectorTree
import Mathlib.Data.List.Basic
import Mathlib.Order.Bounds.Basic

/-! A selector tree over ascending ids leads a selector to the last id that is not above it. -/

namespace JsfxSugar.Dispatch.SelectorTree

variable {ids : List Nat} {n k : Nat}

@[simp] theorem ofIds_nil : ofIds [] = leaf noFunction := by
  simp [ofIds]

@[simp] theorem ofIds_singleton (id : Nat) : ofIds [id] = leaf id := by
  simp [ofIds]

/-- Induction along the halves from which a tree is built. -/
theorem ofIds_induction {motive : List Nat → Prop} (nil : motive [])
    (single : ∀ id, motive [id])
    (halves : ∀ first id rest, first ≠ [] →
      first.length = ((first ++ id :: rest).length + 1) / 2 →
      ofIds (first ++ id :: rest) = branch id (ofIds first) (ofIds (id :: rest)) →
      motive first → motive (id :: rest) → motive (first ++ id :: rest))
    (ids : List Nat) : motive ids := by
  induction hn : ids.length using Nat.strongRecOn generalizing ids with
  | ind n ih =>
    subst hn
    by_cases h : 2 ≤ ids.length
    · obtain ⟨middle, hmiddle⟩ : ∃ middle, middle = (ids.length + 1) / 2 := ⟨_, rfl⟩
      have hlt : middle < ids.length := by omega
      have hfirst : (ids.take middle).length = middle := by
        rw [List.length_take]
        omega
      have hdrop : ids.drop middle = ids[middle] :: ids.drop (middle + 1) :=
        List.drop_eq_getElem_cons hlt
      have hids : ids = ids.take middle ++ ids[middle] :: ids.drop (middle + 1) := by
        rw [← hdrop, List.take_append_drop]
      have hne : ids.take middle ≠ [] := by
        intro he
        rw [he] at hfirst
        simp only [List.length_nil] at hfirst
        omega
      have hbelow := ih _ (by omega) (ids.take middle) rfl
      have habove := ih _ (by rw [List.length_drop]; omega) (ids.drop middle) rfl
      rw [hdrop] at habove
      have htree : ofIds ids =
          branch ids[middle] (ofIds (ids.take middle)) (ofIds (ids.drop middle)) := by
        subst hmiddle
        rw [ofIds, dif_pos h]
      rw [hdrop] at htree
      have := halves (ids.take middle) ids[middle] (ids.drop (middle + 1)) hne
        (by rw [← hids, hfirst, hmiddle]) (by rw [← hids, htree]) hbelow habove
      rwa [← hids] at this
    · match ids with
      | [] => exact nil
      | [id] => exact single id
      | _ :: _ :: _ => simp at h

/-- A tree holds the ids from which it is built, in their order. -/
theorem ids_ofIds (h : ids ≠ []) : (ofIds ids).ids = ids := by
  induction ids using ofIds_induction with
  | nil => exact absurd rfl h
  | single id => simp [SelectorTree.ids]
  | halves first id rest hne _ htree hbelow habove =>
    rw [htree, SelectorTree.ids, hbelow hne, habove (by simp)]

theorem filter_le_eq_nil (h : ∀ id ∈ ids, n < id) : ids.filter (· ≤ n) = [] := by
  rw [List.filter_eq_nil_iff]
  intro id hid
  have := h id hid
  simp only [decide_eq_true_eq]
  omega

/-- The search for a selector ends at the last id that is not above it, or at the first id when all
are. -/
theorem select_ofIds (hs : ids.Pairwise (· < ·)) (n : Nat) :
    (ofIds ids).select n = ((ids.filter (· ≤ n)).getLast?).getD (ids.headD noFunction) := by
  induction ids using ofIds_induction with
  | nil => simp [select]
  | single id => by_cases h : id ≤ n <;> simp [select, h]
  | halves first id rest hne _ htree hbelow habove =>
    obtain ⟨hfirst, hrest, -⟩ := List.pairwise_append.mp hs
    rw [htree, select, List.filter_append, List.getLast?_append]
    by_cases h : n < id
    · have hlater : ∀ other ∈ id :: rest, n < other := by
        intro other hother
        rcases List.mem_cons.mp hother with rfl | hmem
        · exact h
        · exact Nat.lt_trans h ((List.pairwise_cons.mp hrest).1 other hmem)
      obtain ⟨head, tail, rfl⟩ := List.exists_cons_of_ne_nil hne
      rw [if_pos h, hbelow hfirst, filter_le_eq_nil hlater]
      simp
    · have hmem : id ∈ (id :: rest).filter (· ≤ n) := by simp; omega
      rw [if_neg h, habove hrest, List.getLast?_eq_some_getLast (List.ne_nil_of_mem hmem),
        Option.some_or, Option.getD_some, Option.getD_some]

/-- Among all ids that are not above the selector, the search ends at the greatest. -/
theorem isGreatest_select_ofIds (hs : ids.Pairwise (· < ·)) (h : ∃ id ∈ ids, id ≤ n) :
    IsGreatest {id | id ∈ ids ∧ id ≤ n} ((ofIds ids).select n) := by
  obtain ⟨least, hleast, hle⟩ := h
  have hmem : least ∈ ids.filter (· ≤ n) := by simp [hleast, hle]
  obtain ⟨smaller, last, hlast⟩ := (List.eq_nil_or_concat' (ids.filter (· ≤ n))).resolve_left
    (List.ne_nil_of_mem hmem)
  have hselect : (ofIds ids).select n = last := by
    rw [select_ofIds hs, hlast, List.getLast?_concat, Option.getD_some]
  have hiff : ∀ id, id ∈ ids ∧ id ≤ n ↔ id ∈ smaller ∨ id = last := by
    intro id
    rw [← List.mem_singleton, ← List.mem_append, ← hlast]
    simp
  -- The filter keeps the order, so all that stand before its last id are less.
  have hsmaller : ∀ id ∈ smaller, id < last := by
    have hsorted := hs.filter (· ≤ n)
    rw [hlast, List.pairwise_append] at hsorted
    exact fun id hid => hsorted.2.2 id hid last (List.mem_singleton.mpr rfl)
  rw [hselect]
  constructor
  · exact (hiff last).mpr (.inr rfl)
  · intro id hid
    obtain hid | rfl := (hiff id).mp hid
    · exact Nat.le_of_lt (hsmaller id hid)
    · exact Nat.le_refl _

/-- A selector below all ids is led to the first. -/
theorem select_ofIds_of_lt (hs : ids.Pairwise (· < ·)) (h : ∀ id ∈ ids, n < id) :
    (ofIds ids).select n = ids.headD noFunction := by
  rw [select_ofIds hs, filter_le_eq_nil h, List.getLast?_nil, Option.getD_none]

theorem select_ofIds_self (hs : ids.Pairwise (· < ·)) (hid : k ∈ ids) :
    (ofIds ids).select k = k := by
  have hself : IsGreatest {id | id ∈ ids ∧ id ≤ k} k := ⟨⟨hid, Nat.le_refl _⟩, fun _ h => h.2⟩
  exact (isGreatest_select_ofIds hs ⟨k, hid, Nat.le_refl _⟩).unique hself

/-- At each branch the threshold parts the ids: it is above all of `below`, and the first of
`above`. -/
inductive Ordered : SelectorTree → Prop
  | leaf (id : Nat) : Ordered (leaf id)
  | branch {threshold : Nat} {below above : SelectorTree}
      (under : ∀ id ∈ below.ids, id < threshold) (first : above.ids.head? = some threshold)
      (left : Ordered below) (right : Ordered above) : Ordered (branch threshold below above)

theorem ordered_ofIds (hs : ids.Pairwise (· < ·)) : (ofIds ids).Ordered := by
  induction ids using ofIds_induction with
  | nil => simpa using Ordered.leaf noFunction
  | single id => simpa using Ordered.leaf id
  | halves first id rest hne _ htree hbelow habove =>
    obtain ⟨hfirst, hrest, hacross⟩ := List.pairwise_append.mp hs
    rw [htree]
    refine .branch ?_ ?_ (hbelow hfirst) (habove hrest)
    · intro other hother
      rw [ids_ofIds hne] at hother
      exact hacross other hother id List.mem_cons_self
    · rw [ids_ofIds (List.cons_ne_nil id rest), List.head?_cons]

/-- Dispatch is predecessor search, whatever gaps the ids have. A selector ends at the greatest id
that is not above it, or at the first when all are, so each id is found under itself. -/
theorem select_ofIds_predecessor (hne : ids ≠ []) (hs : ids.Pairwise (· < ·)) :
    (ofIds ids).ids = ids ∧
      (∀ n, (∃ id ∈ ids, id ≤ n) →
        IsGreatest {id | id ∈ ids ∧ id ≤ n} ((ofIds ids).select n)) ∧
      (∀ n, (∀ id ∈ ids, n < id) → (ofIds ids).select n = ids.head hne) ∧
      (∀ id ∈ ids, (ofIds ids).select id = id) ∧
      (ofIds ids).Ordered := by
  refine ⟨ids_ofIds hne, fun n => isGreatest_select_ofIds hs, fun n h => ?_,
    fun id => select_ofIds_self hs, ordered_ofIds hs⟩
  rw [select_ofIds_of_lt hs h, List.headD_eq_head?_getD, List.head?_eq_some_head hne,
    Option.getD_some]

/-- Between 5 and the greatest 32-bit word lies no id here, and none lies below 2. -/
theorem select_ofIds_predecessor_sparse :
    IsGreatest {id | id ∈ [2, 5, 4294967295] ∧ id ≤ 4000000000}
        ((ofIds [2, 5, 4294967295]).select 4000000000) ∧
      (ofIds [2, 5, 4294967295]).select 1 = 2 := by
  obtain ⟨-, hgreatest, hfirst, -⟩ :=
    select_ofIds_predecessor (List.cons_ne_nil 2 [5, 4294967295]) (by decide)
  exact ⟨hgreatest 4000000000 ⟨5, by decide, by decide⟩, hfirst 1 (by decide)⟩

/-- Over the ids from nought to `k` a selector is led to itself, or to `k` when it is above. -/
theorem select_ofIds_range (k n : Nat) : (ofIds (List.range (k + 1))).select n = min n k := by
  rw [select_ofIds List.pairwise_lt_range]
  have hfilter : (List.range (k + 1)).filter (· ≤ n) = List.range (min n k + 1) := by
    induction k with
    | zero => simp
    | succ k ih =>
      rw [List.range_succ, List.filter_append, ih]
      by_cases h : k + 1 ≤ n
      · rw [Nat.min_eq_right (by omega : k ≤ n), Nat.min_eq_right h, List.range_succ (n := k + 1)]
        simp [h]
      · rw [Nat.min_eq_left (by omega : n ≤ k), Nat.min_eq_left (by omega : n ≤ k + 1)]
        simp [h]
  rw [hfilter, List.range_succ, List.getLast?_concat, Option.getD_some]

end JsfxSugar.Dispatch.SelectorTree
