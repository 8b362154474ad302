import JsfxSugar.Proofs.Substitution
import JsfxSugar.Proofs.Text
import JsfxSugar.Range.Mark
import Mathlib.Data.List.Chain

/-! Number signs and the characters before them. A text in which markers are replaced has a sign after
a character of some class only where the text before the replacement has one, when no replacement
holds one and none brings one about with its neighbours. -/

namespace JsfxSugar

namespace Text

variable {cls : Char → Bool} {s t : Text} {c : Char}

/-- No character of a class stands directly before a number sign. -/
def NoSignAfter (cls : Char → Bool) (t : Text) : Prop :=
  ∀ c, cls c = true → ¬ [c, '#'] <:+: t

theorem noSignAfter_iff_isChain :
    NoSignAfter cls t ↔ t.IsChain fun c d => cls c = true → d ≠ '#' := by
  rw [List.isChain_iff_forall_rel_of_append_cons_cons]
  constructor
  · rintro h c d before after rfl hc rfl
    exact h c hc ⟨before, after, by simp⟩
  · rintro h c hc ⟨before, after, rfl⟩
    exact h (List.append_assoc before [c, '#'] after) hc rfl

theorem noSignAfter_cons : NoSignAfter cls (c :: t) ↔
    (cls c = true → t.head? ≠ some '#') ∧ NoSignAfter cls t := by
  rw [noSignAfter_iff_isChain, noSignAfter_iff_isChain, List.isChain_cons]
  apply and_congr_left
  intro _
  constructor
  · intro h hc hhead
    exact h '#' hhead hc rfl
  · rintro h d hd hc rfl
    exact h hc hd

theorem noSignAfter_append : NoSignAfter cls (s ++ t) ↔
    NoSignAfter cls s ∧ NoSignAfter cls t ∧ (t.head? = some '#' → EndsOutside cls s) := by
  simp only [noSignAfter_iff_isChain, List.isChain_append]
  apply and_congr_right
  intro _
  apply and_congr_right
  intro _
  constructor
  · intro h hhead c hc
    rw [Bool.eq_false_iff]
    intro hcls
    exact h c hc '#' hhead hcls rfl
  · rintro h c hc d hd hcls rfl
    simp [h hd c hc] at hcls

theorem NoSignAfter.of_isInfix (h : NoSignAfter cls t) (hs : s <:+: t) : NoSignAfter cls s :=
  fun c hc hpair => h c hc (hpair.trans hs)

theorem noSignAfter_of_not_mem (h : '#' ∉ t) : NoSignAfter cls t :=
  fun _ _ hpair => h (hpair.subset (by simp))

/-- A text that can be put between any others without a sign coming to stand after a character of the
class. -/
structure Sealed (cls : Char → Bool) (t : Text) : Prop where
  ne_nil : t ≠ []
  head?_ne : t.head? ≠ some '#'
  endsOutside : EndsOutside cls t
  noSignAfter : NoSignAfter cls t

theorem sealed_concat (hne : t ≠ []) (hhead : t.head? ≠ some '#') (ht : NoSignAfter cls t)
    (hc : cls c = false) (hsign : c ≠ '#') : Sealed cls (t ++ [c]) where
  ne_nil := by simp
  head?_ne := by rwa [List.head?_append_of_ne_nil _ hne]
  endsOutside := endsOutside_concat.mpr hc
  noSignAfter := by
    refine noSignAfter_append.mpr ⟨ht, noSignAfter_of_not_mem ?_, by simp [hsign]⟩
    simp [Ne.symm hsign]

/-- A comment after some text is sealed, whatever stands in it but a sign. -/
theorem sealed_append_comment (hs : '#' ∉ s) (ht : '#' ∉ t) (hcls : cls '/' = false) :
    Sealed cls (s ++ comment t) := by
  have hconcat : s ++ comment t = (s ++ ['/', '*'] ++ t ++ ['*']) ++ ['/'] := by simp [comment]
  have hsign : '#' ∉ s ++ ['/', '*'] ++ t ++ ['*'] := by simp [hs, ht]
  rw [hconcat]
  apply sealed_concat (by simp) ?_ (noSignAfter_of_not_mem hsign) hcls (by decide)
  exact fun hhead => hsign (List.mem_of_head? hhead)

end Text

/-- A brace with a sign after it is a mark of a range block. -/
theorem noSignAfter_brace_iff {t : Text} :
    Text.NoSignAfter (· = '{') t ↔ ¬ Range.Mark.stray.source <:+: t := by
  constructor
  · exact fun h => h '{' (by decide)
  · rintro h c hc
    obtain rfl := of_decide_eq_true hc
    exact h

namespace Pattern

variable {α : Type} {p : Pattern α} {cls : Char → Bool} {t : Text} {a : α}
  {written : List α → α → Text} {seen : List α} {single : α → Text}

/-- A sign that stands first in the end has stood there from the start. -/
theorem head?_of_head?_substituteAfter
    (hwritten : ∀ seen, ∀ a ∈ p.hits t, Text.Sealed cls (written seen a))
    (h : (p.substituteAfter written seen t).head? = some '#') :
    p.read? t = none ∧ t.head? = some '#' := by
  cases hread : p.read? t with
  | some out =>
    obtain ⟨a, r⟩ := out
    have hsealed := hwritten seen a (by simp [hits_of_read? hread])
    rw [substituteAfter_of_read? hread, List.head?_append_of_ne_nil _ hsealed.ne_nil] at h
    exact absurd h hsealed.head?_ne
  | none =>
    cases t with
    | nil => simp [substituteAfter, inscribe] at h
    | cons c t =>
      rw [substituteAfter_of_read?_eq_none hread] at h
      exact ⟨rfl, h⟩

/-- Writing sealed texts for the markers brings no sign behind a character of the class, where none
stands behind such a character outside the markers. -/
theorem noSignAfter_substituteAfter
    (hplain : ∀ c s, c :: '#' :: s <:+ t → p.read? (c :: '#' :: s) = none → cls c = false)
    (hwritten : ∀ seen, ∀ a ∈ p.hits t, Text.Sealed cls (written seen a)) :
    Text.NoSignAfter cls (p.substituteAfter written seen t) := by
  induction t using p.scan_induction generalizing seen with
  | nil => simp [substituteAfter, inscribe, Text.NoSignAfter]
  | plain c t hc ih =>
    rw [hits_of_read?_eq_none hc] at hwritten
    rw [substituteAfter_of_read?_eq_none hc, Text.noSignAfter_cons]
    constructor
    · intro hcls hhead
      obtain ⟨-, hsign⟩ := head?_of_head?_substituteAfter hwritten hhead
      obtain ⟨s, rfl⟩ := List.head?_eq_some_iff.mp hsign
      rw [hplain c s List.suffix_rfl hc] at hcls
      exact Bool.false_ne_true hcls
    · exact ih (fun d s hs => hplain d s (hs.trans (List.suffix_cons c t))) hwritten
  | hit t a r ht ih =>
    have hsealed := hwritten seen a (by simp [hits_of_read? ht])
    have hr : r <:+ t := p.eq_append_of_read? ht ▸ List.suffix_append _ _
    rw [hits_of_read? ht] at hwritten
    rw [substituteAfter_of_read? ht, Text.noSignAfter_append]
    refine ⟨hsealed.noSignAfter, ?_, fun _ => hsealed.endsOutside⟩
    exact ih (fun d s hs => hplain d s (hs.trans hr))
      fun seen b hb => hwritten seen b (List.mem_cons_of_mem a hb)

theorem noSignAfter_substituteAfter_of_noSignAfter (ht : Text.NoSignAfter cls t)
    (hwritten : ∀ seen, ∀ a ∈ p.hits t, Text.Sealed cls (written seen a)) :
    Text.NoSignAfter cls (p.substituteAfter written seen t) := by
  refine noSignAfter_substituteAfter (fun c s hs _ => ?_) hwritten
  have hpair : [c, '#'] <:+: c :: '#' :: s := ⟨[], s, rfl⟩
  rw [Bool.eq_false_iff]
  exact fun hcls => ht c hcls (hpair.trans hs.isInfix)

theorem noSignAfter_substitute (ht : Text.NoSignAfter cls t)
    (hsingle : ∀ a ∈ p.hits t, Text.Sealed cls (single a)) :
    Text.NoSignAfter cls (p.substitute single t) := by
  have hsame : p.substituteAfter (fun _ => single) [] t = p.substitute single t :=
    substituteAfter_eq_substitute fun _ _ _ => rfl
  rw [← hsame]
  exact noSignAfter_substituteAfter_of_noSignAfter ht fun _ => hsingle

end Pattern

end JsfxSugar
