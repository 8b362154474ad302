/-! Runs of a system that takes one use after the other, where a use that fails does not end the
run: the state that the system comes to, and what it answers. -/

namespace JsfxSugar

variable {σ α β : Type} {step : σ → α → β × σ} {s : σ}

/-- The state after some uses. -/
def stateAfter (step : σ → α → β × σ) (s : σ) (uses : List α) : σ :=
  uses.foldl (fun s use => (step s use).2) s

/-- The uses in their order, each with what it answers. -/
def transcript (step : σ → α → β × σ) : σ → List α → List (α × β)
  | _, [] => []
  | s, use :: uses => (use, (step s use).1) :: transcript step (step s use).2 uses

@[simp] theorem stateAfter_nil : stateAfter step s [] = s := rfl

@[simp] theorem stateAfter_cons (use : α) (uses : List α) :
    stateAfter step s (use :: uses) = stateAfter step (step s use).2 uses := rfl

theorem stateAfter_append (before after : List α) :
    stateAfter step s (before ++ after) = stateAfter step (stateAfter step s before) after :=
  List.foldl_append

theorem transcript_append (before after : List α) :
    transcript step s (before ++ after) =
      transcript step s before ++ transcript step (stateAfter step s before) after := by
  induction before generalizing s with
  | nil => rfl
  | cons use before ih => exact congrArg (_ :: ·) ih

@[simp] theorem map_fst_transcript (uses : List α) :
    (transcript step s uses).map (·.1) = uses := by
  induction uses generalizing s with
  | nil => rfl
  | cons use uses ih => exact congrArg (use :: ·) ih

/-- An entry of a transcript stands between the transcripts of what came before it and of what came
after it. -/
theorem transcript_eq_append_cons {uses : List α} {before after : List (α × β)} {use : α} {answer : β}
    (h : transcript step s uses = before ++ (use, answer) :: after) :
    let reached := stateAfter step s (before.map (·.1))
    uses = before.map (·.1) ++ use :: after.map (·.1) ∧
      transcript step s (before.map (·.1)) = before ∧ (step reached use).1 = answer ∧
      transcript step (step reached use).2 (after.map (·.1)) = after := by
  have huses : uses = before.map (·.1) ++ use :: after.map (·.1) := by
    have hmap := congrArg (List.map (·.1)) h
    simpa using hmap
  rw [huses, transcript_append] at h
  have hlength : (transcript step s (before.map (·.1))).length = before.length := by
    rw [← List.length_map (·.1), map_fst_transcript, List.length_map]
  obtain ⟨hbefore, hrest⟩ := List.append_inj h hlength
  obtain ⟨hentry, hafter⟩ := List.cons.inj hrest
  exact ⟨huses, hbefore, (Prod.mk.inj hentry).2, hafter⟩

/-- What every use keeps, a run keeps. -/
theorem stateAfter_induction {P : σ → Prop} {uses : List α} (hs : P s)
    (keep : ∀ s, ∀ use ∈ uses, P s → P (step s use).2) : P (stateAfter step s uses) := by
  induction uses generalizing s with
  | nil => exact hs
  | cons use uses ih =>
    have hnext := keep s use List.mem_cons_self hs
    exact ih hnext fun s other hother => keep s other (List.mem_cons_of_mem use hother)

/-- What every use keeps and answers by, the answers of a run keep to. -/
theorem forall_mem_transcript {P : σ → Prop} {Q : α × β → Prop} {uses : List α} (hs : P s)
    (keep : ∀ s, ∀ use ∈ uses, P s → Q (use, (step s use).1) ∧ P (step s use).2) :
    ∀ entry ∈ transcript step s uses, Q entry := by
  induction uses generalizing s with
  | nil => simp [transcript]
  | cons use uses ih =>
    obtain ⟨hanswer, hnext⟩ := keep s use List.mem_cons_self hs
    have hrest := ih hnext fun s other hother => keep s other (List.mem_cons_of_mem use hother)
    exact List.forall_mem_cons.mpr ⟨hanswer, hrest⟩

/-- States that no use tells apart answer alike in every run. -/
theorem transcript_congr {R : σ → σ → Prop} {s' : σ}
    (keep : ∀ s s' use, R s s' → (step s use).1 = (step s' use).1 ∧ R (step s use).2 (step s' use).2)
    (h : R s s') (uses : List α) : transcript step s uses = transcript step s' uses := by
  induction uses generalizing s s' with
  | nil => rfl
  | cons use uses ih =>
    obtain ⟨hanswer, hnext⟩ := keep s s' use h
    rw [transcript, transcript, hanswer, ih hnext]

/-- Uses that change nothing can be left out of a run, all of them or some: the others answer as they
did, and lead to the same state. -/
theorem transcript_of_sublist {lasting : α × β → Bool}
    (idle : ∀ s use, lasting (use, (step s use).1) = false → (step s use).2 = s)
    {uses : List α} {rest : List (α × β)} (hrest : rest.Sublist (transcript step s uses))
    (hlasting : rest.filter lasting = (transcript step s uses).filter lasting) :
    transcript step s (rest.map (·.1)) = rest ∧
      stateAfter step s (rest.map (·.1)) = stateAfter step s uses := by
  induction uses generalizing s rest with
  | nil =>
    obtain rfl := List.sublist_nil.mp hrest
    exact ⟨rfl, rfl⟩
  | cons use uses ih =>
    rw [transcript] at hrest hlasting
    cases hrest with
    | cons _ hrest =>
      cases hentry : lasting (use, (step s use).1) with
      | true =>
        have hlength := (hrest.filter lasting).length_le
        rw [hlasting, List.filter_cons_of_pos hentry, List.length_cons] at hlength
        omega
      | false =>
        have hidle := idle s use hentry
        rw [List.filter_cons_of_neg (Bool.not_eq_true _ ▸ hentry), hidle] at hlasting
        rw [hidle] at hrest
        rw [stateAfter_cons, hidle]
        exact ih hrest hlasting
    | cons_cons _ hrest =>
      rename_i rest
      have htail : rest.filter lasting = (transcript step (step s use).2 uses).filter lasting := by
        rw [List.filter_cons, List.filter_cons] at hlasting
        split at hlasting
        · exact (List.cons.inj hlasting).2
        · exact hlasting
      obtain ⟨hanswers, hstate⟩ := ih hrest htail
      exact ⟨congrArg (_ :: ·) hanswers, hstate⟩

end JsfxSugar
