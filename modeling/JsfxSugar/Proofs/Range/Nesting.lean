import JsfxSugar.Proofs.Range.Outline
import JsfxSugar.Range.Unrolling

/-! The scan with its stack of open blocks comes to the value of the outline. -/

namespace JsfxSugar.Range

theorem marked_iff {t : Text} : marked t = true ↔ Mark.stray.source <:+: t := by
  fun_induction marked t with
  | case1 t => simpa [Mark.source] using List.infix_append [] Mark.stray.source t
  | case2 c t hne ih =>
    have hfront : ¬ Mark.stray.source <+: c :: t := by
      rintro ⟨r, hr⟩
      simp only [Mark.source, List.cons_append, List.nil_append, List.cons.injEq] at hr
      exact hne r hr.1.symm hr.2.symm
    rw [List.infix_cons_iff, ih]
    simp [hfront]
  | case3 => simp [Mark.source]

/-- A scan stands where an outline without faults ends. -/
inductive Follows (closed : List Body) : Body → List (Body × Opening) → Scan → Prop
  | ground (inner : Body) :
    Follows closed inner []
      ⟨(closed.flatMap (fun body => body.value ++ Mark.close.source) ++ inner.value).reverse, []⟩
  | block {before : Body} {outer : List (Body × Opening)} {written : Text}
    {blocks : List OpenBlock} {opening : Opening} {header : Header} (inner : Body)
    (hheader : opening.header = .ok header)
    (hbefore : Follows closed before outer ⟨written, blocks⟩) :
    Follows closed inner ((before, opening) :: outer)
      ⟨written, ⟨opening, header, inner.value.reverse, inner.kept⟩ :: blocks⟩

namespace Follows

variable {closed : List Body} {inner : Body} {outer : List (Body × Opening)} {scan : Scan}

theorem put (h : Follows closed inner outer scan) (inner' : Body) (text : Text)
    (hvalue : inner'.value = inner.value ++ text) (hkept : inner'.kept = inner.kept) :
    Follows closed inner' outer (scan.put text) := by
  cases h with
  | ground =>
    have hground : Follows closed inner' [] _ := ground inner'
    rw [hvalue] at hground
    simpa [Scan.put, List.reverseAux_eq] using hground
  | block _ hheader hbefore =>
    have hblock := block inner' hheader hbefore
    rw [hvalue, hkept] at hblock
    simpa [Scan.put, List.reverseAux_eq] using hblock

theorem keep (h : Follows closed inner outer scan) (inner' : Body) (text : Text)
    (hvalue : inner'.value = inner.value ++ text) (hkept : inner'.kept = true) :
    Follows closed inner' outer (scan.keep text) := by
  cases h with
  | ground =>
    have hground : Follows closed inner' [] _ := ground inner'
    rw [hvalue] at hground
    simpa [Scan.keep, Scan.put, List.reverseAux_eq] using hground
  | block _ hheader hbefore =>
    have hblock := block inner' hheader hbefore
    rw [hvalue, hkept] at hblock
    simpa [Scan.keep, Scan.put, List.reverseAux_eq] using hblock

theorem enter {opening : Opening} {header : Header} (h : Follows closed inner outer scan)
    (hheader : opening.header = .ok header) :
    Follows closed .empty ((inner, opening) :: outer)
      { scan with blocks := { opening, header } :: scan.blocks } :=
  block .empty hheader h

/-- A close that matches nothing is written like any other text. -/
theorem leave_of_nil (h : Follows closed inner [] scan) :
    ∃ scan', scan.leave = .ok scan' ∧ Follows (closed ++ [inner]) .empty [] scan' := by
  cases h with
  | ground =>
    have hground : Follows (closed ++ [inner]) .empty [] _ := ground .empty
    simp only [List.flatMap_append, List.flatMap_singleton, Body.value, List.append_nil,
      ← List.append_assoc] at hground
    refine ⟨_, rfl, ?_⟩
    simpa [Scan.put, List.reverseAux_eq] using hground

/-- A close that matches an opening puts the block into the body before it, or it fails. -/
theorem leave_of_cons {before : Body} {opening : Opening}
    (h : Follows closed inner ((before, opening) :: outer) scan) :
    match Body.closeFault? opening inner with
    | none => ∃ scan', scan.leave = .ok scan' ∧
        Follows closed (.block before opening inner) outer scan'
    | some fault => scan.leave = .error fault := by
  cases h with
  | block _ hheader hbefore =>
    rename_i written blocks header
    simp only [Body.closeFault?, hheader, ← marked_iff]
    -- A block that is left as it is makes the block around it stay as well.
    by_cases hkept : inner.kept = true
    · have hblock := hbefore.keep (.block before opening inner)
        (opening.source ++ inner.value ++ Mark.close.source)
        (by simp [Body.value, hkept, Opening.verbatim]) (by simp [Body.kept, hkept])
      simpa [Scan.leave, hkept] using hblock
    · have hblock := hbefore.put (.block before opening inner) (header.unroll inner.value)
        (by simp [Body.value, hkept, Opening.unrolled, hheader]) (by simp [Body.kept, hkept])
      by_cases hmarked : marked (header.unroll inner.value) = true
      · simp [Scan.leave, hkept, hmarked]
      · simpa [Scan.leave, hkept, hmarked] using hblock

theorem text_eq (h : Follows closed inner outer scan) :
    scan.text = Outline.value ⟨closed, outer, inner⟩ := by
  induction h with
  | ground inner => simp [Scan.text, Outline.value]
  | block inner hheader hbefore ih =>
    simp only [Scan.text, Outline.value] at ih
    simp [Scan.text, Outline.value, ← List.append_assoc, ih]

/-- The next character or mark takes a scan on as it takes the outline on, unless it is at fault. -/
theorem step (h : Follows closed inner outer scan) (seg : Segment Mark) :
    let o : Outline := ⟨closed, outer, inner⟩
    match o.pushFault? seg with
    | none => ∃ scan', scan.step seg = .ok scan' ∧
        Follows (o.push seg).closed (o.push seg).inner (o.push seg).outer scan'
    | some fault => scan.step seg = .error fault := by
  cases seg with
  | plain c => exact ⟨_, rfl, h.put (.plain inner c) [c] rfl rfl⟩
  | hit mark =>
    cases mark with
    | stray => exact ⟨_, rfl, h.keep (.stray inner) _ rfl rfl⟩
    | opening opening =>
      simp only [Outline.pushFault?, Opening.fault?]
      cases hheader : opening.header with
      | ok header =>
        have henter : scan.step (.hit (.opening opening)) =
            .ok { scan with blocks := { opening, header } :: scan.blocks } := by
          rw [Scan.step, Scan.enter, hheader]
          rfl
        exact ⟨_, henter, h.enter hheader⟩
      | error fault => simp [Scan.step, Scan.enter, hheader, bind, Except.bind]
    | close =>
      cases outer with
      | nil => exact h.leave_of_nil
      | cons frame outer => exact h.leave_of_cons

end Follows

/-- A scan of further characters and marks ends with the outline that they make, or with its first
fault. -/
theorem foldlM_step {o : Outline} {scan : Scan} (h : Follows o.closed o.inner o.outer scan)
    (ho : o.faults = []) (segs : List (Segment Mark)) :
    (segs.foldlM Scan.step scan).map Scan.text =
      match (segs.foldl Outline.push o).faults with
      | [] => .ok (segs.foldl Outline.push o).value
      | fault :: _ => .error fault := by
  induction segs generalizing o scan with
  | nil =>
    rw [List.foldl_nil, ho]
    exact congrArg Except.ok h.text_eq
  | cons seg segs ih =>
    have hstep := h.step seg
    have hfaults := o.faults_push seg
    rw [List.foldlM_cons, List.foldl_cons]
    cases hfault : o.pushFault? seg with
    | none =>
      simp only [hfault] at hstep
      obtain ⟨scan', hok, hfollows⟩ := hstep
      have hpush : (o.push seg).faults = [] := by simp [hfaults, ho, hfault]
      rw [hok]
      exact ih hfollows hpush
    | some fault =>
      simp only [hfault] at hstep
      obtain ⟨rest, hrest⟩ := (o.push seg).faults_isPrefix_foldl_push segs
      rw [hstep, ← hrest, hfaults, ho, hfault]
      rfl

end JsfxSugar.Range
