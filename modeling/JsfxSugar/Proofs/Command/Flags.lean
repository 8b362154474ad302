import JsfxSugar.Command.Arguments
import Mathlib.Tactic.SplitIfs

/-! A flag on a command line. Without the argument that sets it, the command line asks for the same
run but for the flag. -/

namespace JsfxSugar.Command

theorem Argument.eq_argument_of_ofLong {option : Text} {flag : Flag}
    (h : ofLong option = .flag flag) : '-' :: '-' :: option = flag.argument := by
  unfold ofLong at h
  split at h
  · split_ifs at h
  · split_ifs at h with _ hbanner hdeny hverbose <;> cases h
    · rw [hbanner]
      rfl
    · rw [hdeny]
      rfl
    · rw [hverbose]
      rfl

/-- A flag is set by one argument only. -/
theorem Argument.ofText_eq_flag_iff {argument : Text} {flag : Flag} :
    ofText argument = .flag flag ↔ argument = flag.argument := by
  constructor
  · intro h
    unfold ofText at h
    split at h
    case h_3 option _ => exact eq_argument_of_ofLong h
    all_goals cases h
  · rintro rfl
    cases flag <;> decide

/-- The names of the products are none of the flags. -/
theorem Product.ofName?_argument (flag : Flag) : ofName? flag.argument = none := by
  cases flag <;> decide

/-- The request without a flag. -/
def Request.without (request : Request) (flag : Flag) : Request :=
  { request with flags := request.flags.filter (· ≠ flag) }

namespace Invocation

/-- What is read without a flag. -/
def Reading.without (reading : Reading) (flag : Flag) : Reading :=
  { reading with flags := reading.flags.filter (· ≠ flag) }

/-- What one path or option makes of a reading, and the arguments that it takes up. -/
inductive Takes (reading : Reading) : List Text → Reading → Prop
  | path {argument path : Text} {next : Reading} (named : Argument.ofText argument = .path path)
      (added : reading.addPath? path = some next) : Takes reading [argument] next
  | flag {argument : Text} {flag : Flag} {next : Reading}
      (named : Argument.ofText argument = .flag flag) (added : reading.addFlag? flag = some next) :
      Takes reading [argument] next
  | emit {argument value : Text} {next : Reading}
      (named : Argument.ofText argument = .emit (some value))
      (chosen : reading.setProduct? value = some next) : Takes reading [argument] next
  | emitNext {argument value : Text} {next : Reading}
      (named : Argument.ofText argument = .emit none)
      (chosen : reading.setProduct? value = some next) : Takes reading [argument, value] next

/-- Arguments that ask for a run. -/
inductive Reads : Reading → List Text → Request → Prop
  | nil {reading : Reading} {request : Request} (finished : reading.finish = .run request) :
      Reads reading [] request
  | take {reading next : Reading} {words rest : List Text} {request : Request}
      (taken : Takes reading words next) (reads : Reads next rest request) :
      Reads reading (words ++ rest) request
  | paths {reading next : Reading} {argument : Text} {rest : List Text} {request : Request}
      (named : Argument.ofText argument = .endOfOptions)
      (added : rest.foldlM Reading.addPath? reading = some next)
      (finished : next.finish = .run request) : Reads reading (argument :: rest) request

variable {reading next : Reading} {words arguments : List Text} {request : Request} {flag : Flag}

theorem elim_eq_run_iff {reading? : Option Reading} {go : Reading → Invocation} :
    reading?.elim refused go = .run request ↔
      ∃ next, reading? = some next ∧ go next = .run request := by
  cases reading? <;> simp

/-- The relation is what is computed. -/
theorem read_eq_run_iff :
    read reading arguments = .run request ↔ Reads reading arguments request := by
  constructor
  · intro h
    fun_induction read reading arguments with
    | case1 => exact .nil h
    | case2 reading argument rest path named ih =>
      obtain ⟨next, added, h⟩ := elim_eq_run_iff.mp h
      exact .take (.path named added) (ih next h)
    | case3 reading argument rest flag named ih =>
      obtain ⟨next, added, h⟩ := elim_eq_run_iff.mp h
      exact .take (.flag named added) (ih next h)
    | case4 reading argument rest value named ih =>
      obtain ⟨next, chosen, h⟩ := elim_eq_run_iff.mp h
      exact .take (.emit named chosen) (ih next h)
    | case6 reading argument named value rest ih =>
      obtain ⟨next, chosen, h⟩ := elim_eq_run_iff.mp h
      exact .take (.emitNext named chosen) (ih next h)
    | case9 reading argument rest named =>
      obtain ⟨next, added, h⟩ := elim_eq_run_iff.mp h
      exact .paths named added h
    | case5 | case7 | case8 | case10 => cases h
  · intro h
    induction h with
    | nil finished => exact finished
    | take taken reads ih =>
      cases taken with
      | path named added | flag named added | emit named added | emitNext named added =>
        unfold read
        simp only [List.cons_append, List.nil_append, named]
        exact elim_eq_run_iff.mpr ⟨_, added, ih⟩
    | paths named added finished =>
      unfold read
      simp only [named]
      exact elim_eq_run_iff.mpr ⟨_, added, finished⟩

theorem Reading.finish_eq_run (h : reading.finish = .run request) (flag : Flag) :
    request.flags = reading.flags ∧ (reading.without flag).finish = .run (request.without flag) := by
  unfold finish at h
  split at h
  · rename_i output input hpaths
    obtain rfl := run.inj h
    refine ⟨rfl, ?_⟩
    simp only [finish, without, hpaths]
    rfl
  · cases h

theorem Reading.addPath?_eq_some {path : Text} (h : reading.addPath? path = some next)
    (flag : Flag) :
    next.flags = reading.flags ∧
      (reading.without flag).addPath? path = some (next.without flag) := by
  unfold addPath? at h
  split at h
  · rename_i hroom
    obtain rfl := Option.some.inj h
    exact ⟨rfl, if_pos hroom⟩
  · cases h

theorem Reading.foldlM_addPath?_eq_some {paths : List Text}
    (h : paths.foldlM addPath? reading = some next) (flag : Flag) : next.flags = reading.flags ∧
      paths.foldlM addPath? (reading.without flag) = some (next.without flag) := by
  induction paths generalizing reading with
  | nil =>
    obtain rfl := Option.some.inj h
    exact ⟨rfl, rfl⟩
  | cons path paths ih =>
    obtain ⟨middle, hfirst, hrest⟩ := Option.bind_eq_some_iff.mp h
    obtain ⟨hflags, hadded⟩ := addPath?_eq_some hfirst flag
    obtain ⟨hflags', hadded'⟩ := ih hrest
    exact ⟨hflags'.trans hflags, Option.bind_eq_some_iff.mpr ⟨_, hadded, hadded'⟩⟩

theorem Reading.setProduct?_eq_some {value : Text} (h : reading.setProduct? value = some next)
    (flag : Flag) :
    next.flags = reading.flags ∧
      (reading.without flag).setProduct? value = some (next.without flag) := by
  unfold setProduct? at h
  split at h
  · rename_i product hnone hproduct
    obtain rfl := Option.some.inj h
    refine ⟨rfl, ?_⟩
    simp only [setProduct?, without, hnone, hproduct]
  · cases h

theorem Reading.addFlag?_eq_some {other : Flag} (h : reading.addFlag? other = some next) :
    other ∉ reading.flags ∧ next = { reading with flags := other :: reading.flags } := by
  unfold addFlag? at h
  split at h
  · cases h
  · rename_i hnew
    exact ⟨hnew, (Option.some.inj h).symm⟩

theorem Reading.without_cons (hnew : flag ∉ reading.flags) :
    Reading.without { reading with flags := flag :: reading.flags } flag = reading := by
  have hflags : (flag :: reading.flags).filter (· ≠ flag) = reading.flags := by
    rw [List.filter_cons_of_neg (by simp), List.filter_eq_self]
    intro other hother
    rw [decide_eq_true_iff]
    rintro rfl
    exact hnew hother
  rw [without, hflags]

/-- One argument sets a flag; any other is read without the flag as it is with it. -/
theorem Takes.sets_or_keeps (h : Takes reading words next) (flag : Flag) :
    (words = [flag.argument] ∧ flag ∉ reading.flags ∧
      next = { reading with flags := flag :: reading.flags }) ∨
    (flag.argument ∉ words ∧ (flag ∈ next.flags ↔ flag ∈ reading.flags) ∧
      Takes (reading.without flag) words (next.without flag)) := by
  -- An argument that is no flag is not the one that sets it.
  have hother : ∀ {argument}, Argument.ofText argument ≠ .flag flag → flag.argument ≠ argument :=
    fun hne heq => hne (Argument.ofText_eq_flag_iff.mpr heq.symm)
  cases h with
  | @path argument path _ named added =>
    obtain ⟨hflags, hadded⟩ := Reading.addPath?_eq_some added flag
    have hne : flag.argument ≠ argument := hother (by simp [named])
    exact Or.inr ⟨by simpa using hne, by rw [hflags], .path named hadded⟩
  | @flag argument other _ named added =>
    obtain ⟨hnew, rfl⟩ := Reading.addFlag?_eq_some added
    by_cases heq : other = flag
    · subst heq
      left
      exact ⟨by rw [Argument.ofText_eq_flag_iff.mp named], hnew, rfl⟩
    · right
      have hne : flag.argument ≠ argument := hother (by simpa [named] using heq)
      refine ⟨by simpa using hne, by simp [Ne.symm heq], .flag named ?_⟩
      simp [Reading.addFlag?, Reading.without, hnew, heq]
  | @emit argument value _ named chosen =>
    obtain ⟨hflags, hchosen⟩ := Reading.setProduct?_eq_some chosen flag
    have hne : flag.argument ≠ argument := hother (by simp [named])
    exact Or.inr ⟨by simpa using hne, by rw [hflags], .emit named hchosen⟩
  | @emitNext argument value _ named chosen =>
    obtain ⟨hflags, hchosen⟩ := Reading.setProduct?_eq_some chosen flag
    have hne : flag.argument ≠ argument := hother (by simp [named])
    have hvalue : flag.argument ≠ value := by
      rintro rfl
      simp [Reading.setProduct?, Product.ofName?_argument] at chosen
    exact Or.inr ⟨by simp [hne, hvalue], by rw [hflags], .emitNext named hchosen⟩

/-- A flag that is set already is not set again. -/
theorem Reads.without (h : Reads reading arguments request) {flag : Flag}
    (hset : flag ∈ reading.flags) :
    Reads (reading.without flag) arguments (request.without flag) := by
  induction h with
  | nil finished => exact .nil (Reading.finish_eq_run finished flag).2
  | take taken reads ih =>
    rcases taken.sets_or_keeps flag with ⟨-, hnew, -⟩ | ⟨-, hflags, hkept⟩
    · exact absurd hset hnew
    · exact .take hkept (ih (hflags.mpr hset))
  | paths named added finished =>
    exact .paths named (Reading.foldlM_addPath?_eq_some added flag).2
      (Reading.finish_eq_run finished flag).2

/-- The argument that sets a flag can be left out. -/
theorem Reads.erase (h : Reads reading arguments request) (hnew : flag ∉ reading.flags)
    (hset : flag ∈ request.flags) :
    Reads reading (arguments.erase flag.argument) (request.without flag) := by
  induction h with
  | nil finished =>
    rw [(Reading.finish_eq_run finished flag).1] at hset
    exact absurd hset hnew
  | @take reading next words rest request taken reads ih =>
    rcases taken.sets_or_keeps flag with ⟨rfl, -, rfl⟩ | ⟨hwords, hflags, -⟩
    · -- Here the flag is set, so that the rest is read without it from what was there before.
      have hrest := reads.without (List.mem_cons_self (a := flag))
      rw [Reading.without_cons hnew] at hrest
      rwa [List.singleton_append, List.erase_cons_head]
    · rw [List.erase_append_right _ hwords]
      exact .take taken (ih (fun hmem => hnew (hflags.mp hmem)) hset)
  | paths named added finished =>
    rw [(Reading.finish_eq_run finished flag).1,
      (Reading.foldlM_addPath?_eq_some added flag).1] at hset
    exact absurd hset hnew

/-- A command line without the argument that sets a flag asks for the same run without the flag. -/
theorem ofArguments_erase (h : ofArguments arguments = .run request) (hset : flag ∈ request.flags) :
    ofArguments (arguments.erase flag.argument) = .run (request.without flag) :=
  read_eq_run_iff.mpr ((read_eq_run_iff.mp h).erase (by simp) hset)

end Invocation

end JsfxSugar.Command
