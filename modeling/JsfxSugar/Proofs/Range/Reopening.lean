import JsfxSugar.Proofs.Range.Placeholders
import JsfxSugar.Proofs.Range.Settled
import JsfxSugar.Proofs.Signs

/-! Blocks that would come to hold a mark again. A number stands where a placeholder was, so a body
without marks has none in any of its copies; only where one copy ends and the next begins can a mark
come about. -/

namespace JsfxSugar

namespace Text

variable {cls : Char → Bool} {t old new : Text} {c : Char}

theorem not_endsOutside_iff : ¬ EndsOutside (· = c) t ↔ [c] <:+ t := by
  constructor
  · intro h
    by_contra hsuffix
    refine h fun d hd => decide_eq_false ?_
    rintro rfl
    obtain ⟨front, rfl⟩ := List.getLast?_eq_some_iff.mp hd
    exact hsuffix (List.suffix_append front [d])
  · rintro ⟨front, rfl⟩
    simp

/-- A number brings about no mark with what stands around it. -/
theorem sealed_ofInt (z : Int) : Sealed (· = '{') (ofInt z) := by
  have hsign : '#' ∉ ofInt z := not_mem_ofInt (by decide) (by decide) z
  have hbrace : '{' ∉ ofInt z := not_mem_ofInt (by decide) (by decide) z
  refine ⟨ofInt_ne_nil z, fun hhead => hsign (List.mem_of_head? hhead), ?_,
    noSignAfter_of_not_mem hsign⟩
  refine endsOutside_of_forall fun c hc => decide_eq_false ?_
  rintro rfl
  exact hbrace hc

theorem noSignAfter_replaceAll (hold : old ≠ []) (hnew : Sealed cls new) (ht : NoSignAfter cls t) :
    NoSignAfter cls (t.replaceAll old new) := by
  rw [replaceAll, dif_pos hold]
  exact Pattern.noSignAfter_substitute ht fun _ _ => hnew

@[simp] theorem replaceAll_nil (hold : old ≠ []) (new : Text) : replaceAll [] old new = [] := by
  simp [replaceAll, hold]

theorem replaceAll_eq_nil_iff (hold : old ≠ []) (hnew : new ≠ []) :
    t.replaceAll old new = [] ↔ t = [] := by
  by_cases h : old <+: t
  · obtain ⟨u, rfl⟩ := h
    simp [replaceAll_append hold, hold, hnew]
  · cases t with
    | nil => simp [hold]
    | cons d t => simp [replaceAll_cons hold h]

/-- A character that begins neither the old text nor the new one begins a text after the replacement
if it did before. -/
theorem head?_replaceAll_eq_some_iff (hold : old ≠ []) (hnew : new ≠ []) (hc : old.head? ≠ some c)
    (hc' : new.head? ≠ some c) : (t.replaceAll old new).head? = some c ↔ t.head? = some c := by
  by_cases h : old <+: t
  · obtain ⟨u, rfl⟩ := h
    rw [replaceAll_append hold, List.head?_append_of_ne_nil _ hnew,
      List.head?_append_of_ne_nil _ hold]
    exact iff_of_false hc' hc
  · cases t with
    | nil => simp [hold]
    | cons d t => simp [replaceAll_cons hold h]

/-- Where neither the old text nor the new one ends with a character of the class, a text ends with
one after the replacement if it did before. -/
theorem endsOutside_replaceAll_iff (hold : old ≠ []) (hnew : new ≠ []) (hends : EndsOutside cls old)
    (hends' : EndsOutside cls new) :
    EndsOutside cls (t.replaceAll old new) ↔ EndsOutside cls t := by
  induction t using (Pattern.literal old hold).scan_induction with
  | nil => simp [hold]
  | plain c t h ih =>
    have hfront : ¬ old <+: c :: t := skip?_eq_none_iff.mp (Option.map_eq_none_iff.mp h)
    rw [replaceAll_cons hold hfront]
    by_cases ht : t = []
    · simp [ht, hold]
    · have ht' : replaceAll t old new ≠ [] := mt (replaceAll_eq_nil_iff hold hnew).mp ht
      have hlast : EndsOutside cls ([c] ++ t) ↔ EndsOutside cls t := endsOutside_append ht
      have hlast' : EndsOutside cls ([c] ++ replaceAll t old new) ↔
          EndsOutside cls (replaceAll t old new) := endsOutside_append ht'
      exact hlast'.trans (ih.trans hlast.symm)
  | hit t a r h ih =>
    obtain rfl : t = old ++ r := (Pattern.literal old hold).eq_append_of_read? h
    rw [replaceAll_append hold]
    by_cases hr : r = []
    · simp [hr, hold, hends, hends']
    · have hr' : replaceAll r old new ≠ [] := mt (replaceAll_eq_nil_iff hold hnew).mp hr
      rw [endsOutside_append hr, endsOutside_append hr', ih]

section Copies

variable {α : Type} {f : α → Text} {vs : List α} {P Q : Prop}

/-- Texts that all begin with a character, or none of them, begin with it together. -/
theorem head?_flatMap_eq_some_iff (h : ∀ v ∈ vs, (f v).head? = some c ↔ P) :
    (vs.flatMap f).head? = some c ↔ vs ≠ [] ∧ P := by
  induction vs with
  | nil => simp
  | cons v vs ih =>
    obtain ⟨hv, hvs⟩ := List.forall_mem_cons.mp h
    have hrest := ih hvs
    rw [List.flatMap_cons]
    cases hf : f v with
    | nil =>
      have hP : ¬ P := fun hP => by simpa [hf] using hv.mpr hP
      simp [hrest, hP]
    | cons d t =>
      rw [hf] at hv
      simpa using hv

/-- Texts without a sign behind a character of the class, which are alike in how they begin and end,
have one together just where two of them meet. -/
theorem noSignAfter_flatMap_iff (h : ∀ v ∈ vs, NoSignAfter cls (f v))
    (hstart : ∀ v ∈ vs, (f v).head? = some '#' ↔ P) (hstop : ∀ v ∈ vs, EndsOutside cls (f v) ↔ Q) :
    NoSignAfter cls (vs.flatMap f) ↔ (2 ≤ vs.length → P → Q) := by
  induction vs with
  | nil => simp [NoSignAfter]
  | cons v vs ih =>
    obtain ⟨hv, hvs⟩ := List.forall_mem_cons.mp h
    obtain ⟨-, hstarts⟩ := List.forall_mem_cons.mp hstart
    obtain ⟨hend, hends⟩ := List.forall_mem_cons.mp hstop
    have hlength : 2 ≤ (v :: vs).length ↔ vs ≠ [] := by
      cases vs <;> simp
    have hlater : 2 ≤ vs.length → vs ≠ [] := by
      rintro hlong rfl
      simp at hlong
    rw [List.flatMap_cons, noSignAfter_append, ih hvs hstarts hends,
      head?_flatMap_eq_some_iff hstarts, hend, hlength]
    constructor
    · rintro ⟨-, -, hmeet⟩ hne hP
      exact hmeet ⟨hne, hP⟩
    · intro hmeet
      exact ⟨hv, fun hlong => hmeet (hlater hlong), fun hboth => hmeet hboth.1 hboth.2⟩

end Copies

end Text

namespace Range

namespace Header

variable {header : Header} {body t : Text} {value : Int}

/-- The block has more than one copy, and where a copy ends and the next begins stands a mark. -/
structure Reopens (header : Header) (body : Text) : Prop where
  ne : header.start ≠ header.stop
  sign : ['#'] <+: body.trimStart
  brace : ['{'] <:+ body.trimStart

theorem head?_braced_ne (name : Text) : (Placeholder.braced.source name).head? ≠ some '#' := by
  simp [Placeholder.source]

theorem endsOutside_braced (name : Text) :
    Text.EndsOutside (· = '{') (Placeholder.braced.source name) := by
  rw [Placeholder.source, Text.endsOutside_concat]
  decide

theorem braced_ne_nil (name : Text) : Placeholder.braced.source name ≠ [] := by
  simp [Placeholder.source]

/-- Putting numbers for the name brings no mark into a copy. -/
theorem noSignAfter_copy (hname : IsLoopName header.name) (ht : Text.NoSignAfter (· = '{') t)
    (value : Int) : Text.NoSignAfter (· = '{') (header.copy t value) := by
  have hsealed := Text.sealed_ofInt value
  exact Text.noSignAfter_replaceAll hname.ne_nil hsealed
    (Text.noSignAfter_replaceAll (braced_ne_nil _) hsealed ht)

/-- A copy begins with a sign exactly when the body does. -/
theorem head?_copy_eq_sign_iff (hname : IsLoopName header.name) :
    (header.copy t value).head? = some '#' ↔ t.head? = some '#' := by
  have hsealed := Text.sealed_ofInt value
  have hsign : header.name.head? ≠ some '#' :=
    fun hhead => hname.not_mem (by decide) (List.mem_of_head? hhead)
  rw [copy_eq, Text.head?_replaceAll_eq_some_iff hname.ne_nil hsealed.ne_nil hsign hsealed.head?_ne,
    filled, Text.head?_replaceAll_eq_some_iff (braced_ne_nil _) hsealed.ne_nil (head?_braced_ne _)
      hsealed.head?_ne]

/-- A copy ends with a brace exactly when the body does. -/
theorem endsOutside_copy_iff (hname : IsLoopName header.name) :
    Text.EndsOutside (· = '{') (header.copy t value) ↔ Text.EndsOutside (· = '{') t := by
  have hsealed := Text.sealed_ofInt value
  have hends : Text.EndsOutside (· = '{') header.name := by
    refine Text.endsOutside_of_forall fun c hc => decide_eq_false ?_
    rintro rfl
    exact hname.not_mem (by decide) hc
  rw [copy_eq, Text.endsOutside_replaceAll_iff hname.ne_nil hsealed.ne_nil hends
    hsealed.endsOutside, filled, Text.endsOutside_replaceAll_iff (braced_ne_nil _) hsealed.ne_nil
      (endsOutside_braced _) hsealed.endsOutside]

theorem reopens_iff : header.Reopens body ↔ header.start ≠ header.stop ∧
    body.trimStart.head? = some '#' ∧ ¬ Text.EndsOutside (· = '{') body.trimStart := by
  rw [Text.not_endsOutside_iff, List.head?_eq_some_iff]
  constructor
  · rintro ⟨hne, ⟨rest, hrest⟩, hbrace⟩
    exact ⟨hne, ⟨rest, hrest.symm⟩, hbrace⟩
  · rintro ⟨hne, ⟨rest, hrest⟩, hbrace⟩
    exact ⟨hne, ⟨rest, hrest.symm⟩, hbrace⟩

theorem noSignAfter_trimStart (hbody : ¬ Mark.stray.source <:+: body) :
    Text.NoSignAfter (· = '{') body.trimStart :=
  (noSignAfter_brace_iff.mpr hbody).of_isInfix (List.dropWhile_suffix Text.isBlank).isInfix

/-- The copies of a body without marks hold one together exactly when there is more than one of them
and a mark stands where two meet. -/
theorem isInfix_unroll_iff (hname : IsLoopName header.name)
    (hbody : ¬ Mark.stray.source <:+: body) :
    Mark.stray.source <:+: header.unroll body ↔ header.Reopens body := by
  have htrim := noSignAfter_trimStart hbody
  have hcopies : Text.NoSignAfter (· = '{') (header.unroll body) ↔ _ :=
    Text.noSignAfter_flatMap_iff (fun v _ => noSignAfter_copy hname htrim v)
      (fun v _ => head?_copy_eq_sign_iff hname) fun v _ => endsOutside_copy_iff hname
  have hlength : 2 ≤ header.values.length ↔ header.start ≠ header.stop := by
    rw [header.values_spec.1]
    omega
  rw [← not_iff_not, ← noSignAfter_brace_iff, hcopies, hlength, reopens_iff]
  tauto

end Header

/-- A block as a scan has it: it has a loop name, and it is left as it is only for a mark in its
body. -/
structure OpenBlock.Sound (block : OpenBlock) : Prop where
  name : IsLoopName block.header.name
  marked : block.kept = true → Mark.stray.source <:+: block.body.reverse

theorem Mark.isLoopName_of_read? {t r : Text} {opening : Opening}
    (h : pattern.read? t = some (.opening opening, r)) : IsLoopName opening.name := by
  have hread : read? t = some (.opening opening, r) := h
  unfold read? at hread
  split at hread
  · simp at hread
  · split at hread
    · rename_i other s hother
      simp only [Option.some.injEq, Prod.mk.injEq, Mark.opening.injEq] at hread
      obtain ⟨rfl, rfl⟩ := hread
      exact (Opening.read?_eq_some_iff.mp hother).2.1
    · simp at hread

namespace Scan

variable {scan scan' : Scan} {block : OpenBlock} {text : Text} {seg : Segment Mark}

/-- All open blocks are as they should be. -/
def Sound (scan : Scan) : Prop :=
  ∀ block ∈ scan.blocks, block.Sound

namespace Sound

theorem put (h : scan.Sound) (text : Text) : (scan.put text).Sound := by
  obtain ⟨written, blocks⟩ := scan
  cases blocks with
  | nil => exact h
  | cons block outer =>
    obtain ⟨⟨hname, hmarked⟩, houter⟩ := List.forall_mem_cons.mp h
    refine List.forall_mem_cons.mpr ⟨⟨hname, fun hkept => ?_⟩, houter⟩
    rw [List.reverseAux_eq, List.reverse_append, List.reverse_reverse]
    exact (hmarked hkept).trans (List.prefix_append _ _).isInfix

theorem keep (h : scan.Sound) (htext : Mark.stray.source <:+: text) : (scan.keep text).Sound := by
  obtain ⟨written, blocks⟩ := scan
  cases blocks with
  | nil => exact h
  | cons block outer =>
    obtain ⟨⟨hname, -⟩, houter⟩ := List.forall_mem_cons.mp h
    refine List.forall_mem_cons.mpr ⟨⟨hname, fun _ => ?_⟩, houter⟩
    rw [List.reverseAux_eq, List.reverse_append, List.reverse_reverse]
    exact htext.trans (List.suffix_append _ _).isInfix

theorem enter {opening : Opening} (h : scan.Sound) (hname : IsLoopName opening.name)
    (hok : scan.enter opening = .ok scan') : scan'.Sound := by
  obtain ⟨header, hheader, hscan⟩ := bind_eq_ok_iff.mp hok
  obtain rfl := Except.ok.inj hscan
  refine List.forall_mem_cons.mpr ⟨⟨?_, by simp⟩, h⟩
  rw [Opening.name_header hheader]
  exact hname

theorem leave (h : scan.Sound) (hok : scan.leave = .ok scan') : scan'.Sound := by
  obtain ⟨written, blocks⟩ := scan
  cases blocks with
  | nil =>
    obtain rfl := Except.ok.inj hok
    exact h.put _
  | cons block outer =>
    have houter : Sound ⟨written, outer⟩ := (List.forall_mem_cons.mp h).2
    simp only [Scan.leave] at hok
    split at hok
    · obtain rfl := Except.ok.inj hok
      exact houter.keep (Body.isInfix_verbatim block.opening block.body.reverse)
    · split at hok
      · simp at hok
      · obtain rfl := Except.ok.inj hok
        exact houter.put _

/-- One character or mark more leaves the open blocks as they should be. -/
theorem step (h : scan.Sound)
    (hseg : ∀ opening, seg = .hit (.opening opening) → IsLoopName opening.name)
    (hok : scan.step seg = .ok scan') : scan'.Sound := by
  cases seg with
  | plain c =>
    obtain rfl := Except.ok.inj hok
    exact h.put [c]
  | hit mark =>
    cases mark with
    | close => exact h.leave hok
    | opening opening => exact h.enter (hseg opening rfl) hok
    | stray =>
      obtain rfl := Except.ok.inj hok
      exact h.keep List.infix_rfl

/-- So they are along a whole scan. -/
theorem run {segs : List (Segment Mark)} (h : scan.Sound)
    (hsegs : ∀ opening, .hit (.opening opening) ∈ segs → IsLoopName opening.name)
    (hok : segs.foldlM Scan.step scan = .ok scan') : scan'.Sound := by
  induction segs generalizing scan with
  | nil =>
    obtain rfl := Except.ok.inj hok
    exact h
  | cons seg segs ih =>
    rw [List.foldlM_cons] at hok
    obtain ⟨next, hnext, hrest⟩ := bind_eq_ok_iff.mp hok
    have hsound : next.Sound := by
      refine h.step (fun opening hopening => hsegs opening ?_) hnext
      rw [hopening]
      exact List.mem_cons_self
    exact ih hsound (fun opening hmem => hsegs opening (List.mem_cons_of_mem seg hmem)) hrest

/-- The scan of a text keeps its open blocks as they should be. -/
theorem of_segments {t : Text} {left right : List (Segment Mark)}
    (hsegs : Mark.pattern.segments t = left ++ right) (hok : left.foldlM Scan.step {} = .ok scan) :
    scan.Sound := by
  have hempty : ({} : Scan).Sound := by simp [Sound]
  refine hempty.run (fun opening hmem => ?_) hok
  have hhit : Mark.opening opening ∈ Mark.pattern.hits t := by
    refine List.mem_filterMap.mpr ⟨.hit (.opening opening), ?_, rfl⟩
    rw [hsegs]
    exact List.mem_append_left right hmem
  exact Pattern.forall_mem_hits (P := fun mark => ∀ opening, mark = .opening opening →
    IsLoopName opening.name)
    (fun hread opening hopening => Mark.isLoopName_of_read? (hopening ▸ hread)) _ hhit opening rfl

end Sound

/-- A close is at fault exactly when the block that it closes may be unrolled and its copies hold a
mark. -/
theorem leave_cases (h : scan.blocks.head? = some block) :
    ((block.kept = false ∧ Mark.stray.source <:+: block.header.unroll block.body.reverse) ∧
      scan.leave = .error (.reopening block.header.name)) ∨
    (¬ (block.kept = false ∧ Mark.stray.source <:+: block.header.unroll block.body.reverse) ∧
      ∃ scan', scan.leave = .ok scan') := by
  obtain ⟨written, blocks⟩ := scan
  obtain ⟨outer, rfl⟩ := List.head?_eq_some_iff.mp h
  simp only [leave, ← marked_iff]
  cases hkept : block.kept with
  | true => simp
  | false =>
    cases hmarked : marked (block.header.unroll block.body.reverse) with
    | true => simp
    | false => simp

theorem exists_block_of_leave_eq_error {fault : Fault} (h : scan.leave = .error fault) :
    ∃ block, scan.blocks.head? = some block ∧ fault = .reopening block.header.name := by
  obtain ⟨written, blocks⟩ := scan
  cases blocks with
  | nil => simp [leave] at h
  | cons block outer =>
    refine ⟨block, rfl, ?_⟩
    have hhead : (Scan.mk written (block :: outer)).blocks.head? = some block := rfl
    rcases leave_cases hhead with ⟨-, herror⟩ | ⟨-, scan', hok⟩
    · exact Except.error.inj (h.symm.trans herror)
    · simp [h] at hok

/-- Only a close reopens a block. -/
theorem eq_close_of_step_eq_error {name : Text} (h : scan.step seg = .error (.reopening name)) :
    seg = .hit .close := by
  cases seg with
  | plain c => simp [step] at h
  | hit mark =>
    cases mark with
    | close => rfl
    | opening opening =>
      rcases bind_eq_error_iff.mp h with hheader | ⟨header, -, hscan⟩
      · unfold Opening.header at hheader
        split at hheader
        · simp at hheader
        · simp at hheader
        · split at hheader <;> simp at hheader
      · simp [pure, Except.pure] at hscan
    | stray => simp [step] at h

/-- The scan of a text comes to a close when this block is the innermost open one. -/
def ComesToClose (t : Text) (scan : Scan) (block : OpenBlock) : Prop :=
  (∃ left right, Mark.pattern.segments t = left ++ .hit .close :: right ∧
    left.foldlM step {} = .ok scan) ∧ scan.blocks.head? = some block

end Scan

/-- A source is refused for a block that reopens exactly when the scan comes to a close that is at
fault for it. -/
theorem unroll_eq_reopening_iff {t name : Text} : unroll t = .error (.reopening name) ↔
    ∃ scan block, Scan.ComesToClose t scan block ∧ block.header.name = name ∧
      scan.leave = .error (.reopening name) := by
  have hmap : unroll t = .error (.reopening name) ↔
      (Mark.pattern.segments t).foldlM Scan.step {} = .error (.reopening name) := by
    unfold unroll
    cases (Mark.pattern.segments t).foldlM Scan.step {} <;> simp [Except.map]
  rw [hmap, foldlM_eq_error_iff]
  constructor
  · rintro ⟨left, seg, right, scan, hsegs, hleft, hfault⟩
    obtain rfl := Scan.eq_close_of_step_eq_error hfault
    obtain ⟨block, hblock, hname⟩ := Scan.exists_block_of_leave_eq_error hfault
    exact ⟨scan, block, ⟨⟨left, right, hsegs, hleft⟩, hblock⟩, (Fault.reopening.inj hname).symm,
      hfault⟩
  · rintro ⟨scan, block, ⟨⟨left, right, hsegs, hleft⟩, -⟩, -, hfault⟩
    exact ⟨left, .hit .close, right, scan, hsegs, hleft, hfault⟩

/-- No copy of a body without marks holds a mark, and the copies hold one together exactly when the
block reopens. So a close that the scan comes to with such a body is at fault exactly for a block
that reopens, and a source is refused for a block only by a close at fault. -/
theorem unroll_reopening :
    (∀ header : Header, IsLoopName header.name → ∀ body : Text, ¬ Mark.stray.source <:+: body →
      (∀ v, ¬ Mark.stray.source <:+: header.copy body.trimStart v) ∧
      (Mark.stray.source <:+: header.unroll body ↔ header.Reopens body)) ∧
    (∀ t scan block, Scan.ComesToClose t scan block → ¬ Mark.stray.source <:+: block.body.reverse →
      (scan.leave = .error (.reopening block.header.name) ↔
        block.header.Reopens block.body.reverse) ∧
      ((∃ scan', scan.leave = .ok scan') ↔ ¬ block.header.Reopens block.body.reverse)) ∧
    ∀ t name, unroll t = .error (.reopening name) ↔
      ∃ scan block, Scan.ComesToClose t scan block ∧ block.header.name = name ∧
        scan.leave = .error (.reopening name) := by
  refine ⟨fun header hname body hbody => ⟨fun v => ?_, Header.isInfix_unroll_iff hname hbody⟩, ?_,
    fun _ _ => unroll_eq_reopening_iff⟩
  · have htrim := Header.noSignAfter_trimStart hbody
    exact noSignAfter_brace_iff.mp (Header.noSignAfter_copy hname htrim v)
  · rintro t scan block ⟨⟨left, right, hsegs, hleft⟩, hblock⟩ hbody
    have hsound := Scan.Sound.of_segments hsegs hleft block (List.mem_of_head? hblock)
    have hkept : block.kept = false := by
      rw [← Bool.not_eq_true]
      exact mt hsound.marked hbody
    have hcases := Scan.leave_cases hblock
    rw [Header.isInfix_unroll_iff hsound.name hbody] at hcases
    rcases hcases with ⟨⟨-, hreopens⟩, herror⟩ | ⟨hnot, scan', hok⟩
    · simp [herror, hreopens]
    · have hnone : ¬ block.header.Reopens block.body.reverse := fun h => hnot ⟨hkept, h⟩
      simp [hok, hnone]

/-- Two copies of a body that begins with a sign, once its blanks are gone, and ends with a
brace. -/
theorem unroll_reopening_down :
    let t := "{#i=2,1} #i\x7b{#}".toList
    let header : Header := ⟨['i'], 2, 1⟩
    let body : Text := " #i\x7b".toList
    ¬ Mark.stray.source <:+: body ∧ header.Reopens body ∧
      ¬ Mark.stray.source <:+: header.copy body.trimStart 2 ∧
      Mark.stray.source <:+: header.unroll body ∧
      (∃ scan block, Scan.ComesToClose t scan block ∧
        scan.leave = .error (.reopening block.header.name)) ∧
      unroll t = .error (.reopening ['i']) := by
  intro t header body
  obtain ⟨hcopies, hcloses, hrefused⟩ := unroll_reopening
  have hname : IsLoopName header.name := .mk 'i' [] (isNameStart_iff.mp (by decide)) (by simp)
  have hbody : ¬ Mark.stray.source <:+: body := by decide +kernel
  have hreopens : header.Reopens body := ⟨by decide, by decide +kernel, by decide +kernel⟩
  let opening : Opening := ⟨['i'], ['2'], ['1']⟩
  let block : OpenBlock := ⟨opening, header, body.reverse, false⟩
  let scan : Scan := ⟨[], [block]⟩
  have hcomes : Scan.ComesToClose t scan block :=
    ⟨⟨.hit (.opening opening) :: body.map .plain, [], by decide +kernel, rfl⟩, rfl⟩
  have hfault : scan.leave = .error (.reopening ['i']) :=
    (hcloses t scan block hcomes hbody).1.mpr hreopens
  obtain ⟨hcopy, hunrolled⟩ := hcopies header hname body hbody
  exact ⟨hbody, hreopens, hcopy 2, hunrolled.mpr hreopens, ⟨scan, block, hcomes, hfault⟩,
    (hrefused t ['i']).mpr ⟨scan, block, hcomes, rfl, hfault⟩⟩

end Range

end JsfxSugar
