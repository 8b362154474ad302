import JsfxSugar.Proofs.Enumeration.Tokens

/-! What numbering makes of a text in which no value is forced: its tokens replaced from left to right
by what the groups say of them in the end. -/

namespace JsfxSugar.Enumeration

variable {t : Text} {n : Numbering} {token : Token}

/-- What a table says of a token that comes after others: of a reference the id, of a count the total
of its group, and of the first count of a group the suffixes as well. -/
def Table.written (table : Table) (seen : List Token) : Token → Text
  | .reference m =>
    let id := ((table.group m.group).id? m.suffix).getD 0
    Text.ofNat id ++ Text.comment (m.group ++ [':'] ++ m.suffix)
  | .count m =>
    let list :=
      if ∃ other ∈ seen.filterMap Token.count?, other.group = m.group then []
      else ": ".toList ++ Text.join ", ".toList (table.group m.group).suffixes
    Text.ofNat (table.group m.group).total ++ Text.comment (m.group ++ list)

/-- What is written for a token that comes after others. -/
def Usage.written (u : Usage) (seen : List Token) : Token → Text
  | .reference m => u.numbered m
  | .count m => u.counted (seen.filterMap Token.count?) m

/-- Showing the counts between numbered references writes what is written for the tokens. -/
theorem Token.inscribe_countSegments (u : Usage) (seen : List Token)
    (segs : List (Segment Token)) :
    Pattern.inscribe u.counted (seen.filterMap count?) (segs.flatMap (countSegments u)) =
      Pattern.inscribe u.written seen segs := by
  induction segs generalizing seen with
  | nil => rfl
  | cons seg segs ih =>
    rw [List.flatMap_cons, Pattern.inscribe_append]
    rcases seg with c | m | m
    · have hhits : (countSegments u (.plain c)).filterMap Segment.hit? = [] := rfl
      rw [hhits, List.append_nil, ih]
      rfl
    · have hseen : (seen ++ [reference m]).filterMap count? = seen.filterMap count? := by
        simp [count?]
      rw [countSegments, Pattern.inscribe_map_plain, Pattern.filterMap_hit?_map_plain,
        List.append_nil, ← hseen, ih]
      rfl
    · have hseen : (seen ++ [count m]).filterMap count? = seen.filterMap count? ++ [m] := by
        simp [count?]
      have hhits : (countSegments u (.hit (count m))).filterMap Segment.hit? = [m] := rfl
      rw [hhits, ← hseen, ih]
      simp [countSegments, Pattern.inscribe, Usage.written]

namespace Table.Follows

variable {table : Table} {u : Usage} {counts : List Counting}

/-- A group that is counted stands in the table. -/
theorem mem_of_mem_counts (h : table.Follows u counts) {m : Counting} (hm : m ∈ counts) :
    m.group ∈ table := by
  by_contra hnot
  have hnew : table.group m.group = { name := m.group } := Std.ExtTreeMap.getD_eq_fallback hnot
  have hcounts := (h m.group).2
  rw [hnew, eq_comm, List.length_eq_zero_iff, List.filter_eq_nil_iff] at hcounts
  exact hcounts m hm (by simp)

/-- What the groups say in the end is what is written. -/
theorem written_eq (h : table.Follows u counts) (seen : List Token)
    (htoken : ∀ m, token = .reference m → m ∈ u.references) :
    table.written seen token = u.written seen token := by
  cases token with
  | reference m =>
    obtain ⟨id, hid⟩ := Option.isSome_iff_exists.mp (h.isSome_id? (htoken m rfl))
    rw [written, Usage.written, Usage.numbered, ← (h m.group).1.eq_idOf hid, hid]
    rfl
  | count m =>
    obtain ⟨hassigns, -⟩ := h m.group
    have htotal : (table.group m.group).total = u.total m.group := hassigns.next_eq
    rw [written, Usage.written, Usage.counted, htotal, hassigns.suffixes_eq]
    rfl

end Table.Follows

/-- No token begins within a name: it would have begun with the character before. -/
theorem Token.isNameChar_eq_false {left right : List (Segment Token)} {c : Char}
    (h : Token.pattern.segments t = left ++ .plain c :: .hit token :: right) :
    isNameChar c = false := by
  have hnone := Pattern.read?_of_segments_eq_cons_plain (Pattern.segments_flatMap_text h)
  rw [List.append_cons] at h
  have hread := Pattern.read?_of_segments_eq_cons_hit (Pattern.segments_flatMap_text h)
  rw [Bool.eq_false_iff]
  intro hc
  have hrest := hread.symm.trans (read?_eq_none_of_cons hnone hc)
  cases hrest

/-- Where no value is forced, numbering a text replaces its tokens in one go from left to right, each
by what the groups say of it in the end. Every reference has an id there and every count a group, and
no token begins in the middle of a name. The number of counts of a group has no limit here, so for a
number of 32 bits this speaks of texts with fewer than 2^32 counts of each group. -/
theorem number_eq_substituteAfter_written (hforced : Forcing.pattern.hits t = [])
    (h : number t = .ok n) :
    n.text = Token.pattern.substituteAfter n.table.written [] t ∧
    (∀ m, .reference m ∈ Token.pattern.hits t →
      m.group ∈ n.table ∧ ((n.table.group m.group).id? m.suffix).isSome) ∧
    (∀ m, .count m ∈ Token.pattern.hits t → m.group ∈ n.table) ∧
    ∀ left c token right, Token.pattern.segments t = left ++ .plain c :: .hit token :: right →
      isNameChar c = false := by
  obtain ⟨htext, hfollows⟩ := number_eq_ok h
  have hreleased : released t = t := Pattern.substitute_of_hits_eq_nil hforced _
  have hreference : (Usage.ofText t).referenceText t =
      Token.pattern.substitute (Token.numbered (Usage.ofText t)) t := by
    rw [Usage.referenceText, hreleased, Token.substitute_reference]
  have hreferences : ∀ m, .reference m ∈ Token.pattern.hits t → m ∈ (Usage.ofText t).references := by
    intro m hm
    rw [Usage.ofText, hreleased, Token.hits_reference]
    exact List.mem_filterMap.mpr ⟨_, hm, rfl⟩
  have hcounts : ∀ m, .count m ∈ Token.pattern.hits t →
      m ∈ Counting.pattern.hits ((Usage.ofText t).referenceText t) := by
    intro m hm
    rw [hreference, Token.hits_counting]
    exact List.mem_filterMap.mpr ⟨_, hm, rfl⟩
  refine ⟨?_, ?_, ?_, fun _ _ _ _ => Token.isNameChar_eq_false⟩
  -- The two passes come to one, and that one writes what the groups hold in the end.
  · calc n.text
        = Counting.pattern.substituteAfter (Usage.ofText t).counted []
            ((Usage.ofText t).referenceText t) := htext
      _ = Token.pattern.substituteAfter (Usage.ofText t).written [] t := by
          rw [Pattern.substituteAfter, hreference, Token.segments_counting]
          exact Token.inscribe_countSegments _ [] _
      _ = Token.pattern.substituteAfter n.table.written [] t := by
          apply Pattern.substituteAfter_congr
          intro seen token htoken
          refine (hfollows.written_eq seen ?_).symm
          rintro m rfl
          exact hreferences m htoken
  · intro m hm
    have hsome := hfollows.isSome_id? (hreferences m hm)
    have hgroup := Table.Follows.getElem?_eq_some hsome
    exact ⟨Std.ExtTreeMap.mem_iff_isSome_getElem?.mpr (Option.isSome_of_eq_some hgroup), hsome⟩
  · intro m hm
    exact hfollows.mem_of_mem_counts (hcounts m hm)

/-- References and counts that touch each other, and counts before the last reference of their
group. -/
theorem number_touching_tokens :
    let t := "j#x k#; k#a#b j##k#c k#".toList
    let shown := "0/*j:x*/ 2/*k: a, c*/; 0/*k:a*/#b 1/*j: x*/1/*k:c*/ 2/*k*/".toList
    ∃ n, number t = .ok n ∧ n.text = Token.pattern.substituteAfter n.table.written [] t ∧
      n.text = shown := by
  intro t shown
  obtain ⟨n, hn⟩ : ∃ n, number t = .ok n := exists_eq_ok_of_isSome (by decide +kernel)
  have hforced : Forcing.pattern.hits t = [] := by decide +kernel
  obtain ⟨htext, -⟩ := number_eq_substituteAfter_written hforced hn
  have hshown : (number t).map (·.text) = .ok shown := by decide +kernel
  rw [hn] at hshown
  exact ⟨n, hn, htext, Except.ok.inj hshown⟩

end JsfxSugar.Enumeration
