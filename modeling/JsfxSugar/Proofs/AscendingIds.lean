import JsfxSugar.Counter
import JsfxSugar.Proofs.Transcript

/-! What a counter does over a whole run: the ids that it hands out ascend, whatever floors it is moved
up to between them, and at the limit it stands still. -/

namespace JsfxSugar.Counter

variable {counter counter' : Counter} {use : Step} {answer : Option Nat} {steps : List Step}
  {id floor : Nat}

/-- All that a step can do: the step, the id that is taken, and the counter after it. -/
inductive Moves (counter : Counter) : Step → Option Nat → Counter → Prop
  | taken (hroom : counter.next < limit) :
    Moves counter .take (some counter.next) (ofNext (counter.next + 1) hroom)
  | full (hfull : counter.next = limit) : Moves counter .take none counter
  | raised (floor : Nat) (hfloor : floor ≤ limit) :
    Moves counter (.skipTo floor hfloor) none (counter.skipTo floor hfloor)

theorem moves_step (counter : Counter) (use : Step) :
    Moves counter use (counter.step use).1 (counter.step use).2 := by
  cases use with
  | take =>
    by_cases hroom : counter.next < limit
    · simp only [step, take?_of_lt hroom]
      exact .taken hroom
    · have hfull : counter.next = limit := Nat.le_antisymm counter.next_le (Nat.not_lt.mp hroom)
      have htake : counter.take? = none := dif_neg hroom
      simp only [step, htake]
      exact .full hfull
  | skipTo floor hfloor => exact .raised floor hfloor

theorem Moves.next_le (h : Moves counter use answer counter') : counter.next ≤ counter'.next := by
  cases h with
  | taken => exact Nat.le_succ _
  | full => exact Nat.le_refl _
  | raised floor => exact Nat.le_max_left _ _

/-- An id is taken exactly while there is room for the total after it. -/
theorem Moves.answer_take_iff (h : Moves counter .take answer counter') :
    answer = some id ↔ id = counter.next ∧ id < limit := by
  cases h with
  | taken hroom =>
    rw [Option.some.injEq, eq_comm]
    exact ⟨fun hid => ⟨hid, hid ▸ hroom⟩, And.left⟩
  | full hfull =>
    refine iff_of_false (by simp) ?_
    rintro ⟨rfl, hroom⟩
    exact Nat.ne_of_lt hroom hfull

theorem Moves.next_eq_of_some (h : Moves counter use answer counter') (hid : answer = some id) :
    counter.next = id := by
  cases h with
  | taken => exact Option.some.inj hid
  | full | raised => cases hid

theorem Moves.lt_next (h : Moves counter use answer counter') (hid : answer = some id) :
    id < counter'.next := by
  cases h with
  | taken =>
    obtain rfl := Option.some.inj hid
    exact Nat.lt_succ_self _
  | full | raised => cases hid

theorem Moves.next_eq_limit (h : Moves counter .take answer counter') (hnone : answer = none) :
    counter.next = limit := by
  cases h with
  | taken => cases hnone
  | full hfull => exact hfull

/-- At the limit a counter stands still. -/
theorem Moves.of_full (h : Moves counter use answer counter') (hfull : counter.next = limit) :
    answer = none ∧ counter' = counter := by
  cases h with
  | taken hroom => exact absurd hfull (Nat.ne_of_lt hroom)
  | full => exact ⟨rfl, rfl⟩
  | raised floor hfloor =>
    have hnext : max counter.next floor = counter.next := Nat.max_eq_left (hfull ▸ hfloor)
    refine ⟨rfl, ?_⟩
    obtain ⟨next, hle⟩ := counter
    simpa only [skipTo, mk.injEq] using hnext

theorem next_le_stateAfter (counter : Counter) (steps : List Step) :
    counter.next ≤ (stateAfter step counter steps).next :=
  stateAfter_induction (P := fun later : Counter => counter.next ≤ later.next) (Nat.le_refl _)
    fun later use _ hle => Nat.le_trans hle (later.moves_step use).next_le

theorem floor_le_stateAfter (counter : Counter) {hfloor : floor ≤ limit}
    (h : .skipTo floor hfloor ∈ steps) : floor ≤ (stateAfter step counter steps).next := by
  obtain ⟨before, after, rfl⟩ := List.append_of_mem h
  rw [stateAfter_append, stateAfter_cons]
  generalize stateAfter step counter before = reached
  have hraised : floor ≤ (reached.skipTo floor hfloor).next := Nat.le_max_right _ _
  exact Nat.le_trans hraised (next_le_stateAfter _ after)

theorem stateAfter_of_full (hfull : counter.next = limit) (steps : List Step) :
    stateAfter step counter steps = counter :=
  stateAfter_induction (P := fun later => later = counter) rfl fun later use _ hlater => by
    subst hlater
    exact ((later.moves_step use).of_full hfull).2

/-- The ids that a run took, in their order. -/
def taken (run : List (Step × Option Nat)) : List Nat :=
  run.filterMap (·.2)

theorem taken_cons (use : Step) (answer : Option Nat) (run : List (Step × Option Nat)) :
    taken ((use, answer) :: run) = answer.toList ++ taken run := by
  rw [taken, List.filterMap_cons]
  cases answer <;> rfl

/-- No id of a run lies below what the counter showed at its start. -/
theorem next_le_of_mem_taken (h : id ∈ taken (transcript step counter steps)) :
    counter.next ≤ id := by
  induction steps generalizing counter with
  | nil => simp [transcript, taken] at h
  | cons use steps ih =>
    have hmove := counter.moves_step use
    rw [transcript, taken_cons, List.mem_append, Option.mem_toList] at h
    rcases h with hfirst | hrest
    · exact Nat.le_of_eq (hmove.next_eq_of_some hfirst)
    · exact Nat.le_trans hmove.next_le (ih hrest)

theorem pairwise_taken (counter : Counter) (steps : List Step) :
    (taken (transcript step counter steps)).Pairwise (· < ·) := by
  induction steps generalizing counter with
  | nil => exact .nil
  | cons use steps ih =>
    have hmove := counter.moves_step use
    rw [transcript, taken_cons, List.pairwise_append]
    refine ⟨?_, ih _, ?_⟩
    · cases (counter.step use).1 <;> simp
    · intro id hid other hother
      rw [Option.mem_toList] at hid
      exact Nat.lt_of_lt_of_le (hmove.lt_next hid) (next_le_of_mem_taken hother)

/-- In every run of a counter the ids that are taken ascend. What the counter shows never falls and
stays within the limit. An id is taken exactly while there is room for one: it is what the counter
shows just before, it lies no lower than any floor to which the counter was moved up before, and it
lies below all that the counter shows later. Once no id was left, the counter stands still, and none
is taken again. -/
theorem ids_ascend (counter : Counter) (before after : List Step) :
    let reached := stateAfter step counter before
    let answer := (reached.step .take).1
    let later := stateAfter step counter (before ++ .take :: after)
    (taken (transcript step counter (before ++ after))).Pairwise (· < ·) ∧
    reached.next ≤ (stateAfter step counter (before ++ after)).next ∧ reached.next ≤ limit ∧
    (∀ id, answer = some id ↔ id = reached.next ∧ id < limit) ∧
    (∀ id, answer = some id →
      (∀ floor hfloor, .skipTo floor hfloor ∈ before → floor ≤ id) ∧ id < later.next) ∧
    (answer = none → later = reached ∧ (later.step .take).1 = none) := by
  intro reached answer later
  have hmove : Moves reached .take answer (reached.step .take).2 := reached.moves_step .take
  have hlater : later = stateAfter step (reached.step .take).2 after := stateAfter_append _ _
  refine ⟨pairwise_taken _ _, ?_, reached.next_le, fun _ => hmove.answer_take_iff, ?some, ?none⟩
  · rw [stateAfter_append]
    exact next_le_stateAfter _ _
  case some =>
    intro id hid
    constructor
    · intro floor hfloor hmem
      rw [← hmove.next_eq_of_some hid]
      exact floor_le_stateAfter counter hmem
    · rw [hlater]
      exact Nat.lt_of_lt_of_le (hmove.lt_next hid) (next_le_stateAfter _ _)
  case none =>
    intro hnone
    have hfull : reached.next = limit := hmove.next_eq_limit hnone
    have hstill : later = reached := by
      rw [hlater, (hmove.of_full hfull).2]
      exact stateAfter_of_full hfull after
    exact ⟨hstill, hstill ▸ hnone⟩

/-- One id below the limit, with floors that change nothing before it and after it. -/
theorem ids_ascend_last :
    let counter := ofNext (limit - 1)
    let before : List Step := [.skipTo 3 (by decide)]
    let after : List Step := [.skipTo 7 (by decide), .take]
    let spent := before ++ [.take]
    let reached := stateAfter step counter before
    (reached.step .take).1 = some (limit - 1) ∧ .skipTo 3 (by decide) ∈ before ∧ 3 ≤ limit - 1 ∧
      limit - 1 < (stateAfter step counter (before ++ .take :: after)).next ∧
      ((stateAfter step counter spent).step .take).1 = none ∧
      stateAfter step counter (spent ++ .take :: after) = stateAfter step counter spent := by
  intro counter before after spent reached
  obtain ⟨-, -, -, -, hsome, -⟩ := ids_ascend counter before after
  obtain ⟨-, -, -, -, -, hnone⟩ := ids_ascend counter spent after
  have htake : (reached.step .take).1 = some (limit - 1) := by decide +kernel
  have hleft : ((stateAfter step counter spent).step .take).1 = none := by decide +kernel
  have hmem : .skipTo 3 (by decide) ∈ before := List.mem_singleton_self _
  obtain ⟨hfloor, hlater⟩ := hsome _ htake
  exact ⟨htake, hmem, hfloor _ _ hmem, hlater, hleft, (hnone hleft).1⟩

end JsfxSugar.Counter
