import JsfxSugar.Command.Arguments
import JsfxSugar.Command.Directory
import JsfxSugar.Command.Help
import JsfxSugar.Provenance
import JsfxSugar.Run
import JsfxSugar.Symbols

/-! Carrying out a command line. The output is written last and only when nothing went wrong, so that
a failed run leaves every file as it was. The program is the same on the files of a system and in a
directory; what it logs on the way is no part of it. Reports can always be written as texts, so no run
ends for want of one. -/

namespace JsfxSugar.Command

/-- What a run has to say, and the text that it writes unless it was rejected. -/
structure Report where
  messages : List Text
  output : Option Text
  deriving DecidableEq, Repr

/-- The text to write after a run. Only a program carries the banner. -/
def Request.written (request : Request) (run : Run) : Text :=
  match request.product with
  | .symbols => (Symbols.ofTables run.enumerations run.dispatch).json.text
  | .jsfx => if .noBanner ∈ request.flags then run.text else banner ++ ['\n'] ++ run.text
  | _ => run.text

/-- Works on a source as it is asked. -/
def Request.report (request : Request) (source : Text) : Report :=
  match request.product.lastStage? with
  | none => ⟨[], some (Provenance.ofSource source).json.text⟩
  | some stage =>
    match Run.upTo stage source with
    | .error failure => ⟨[failure.fault.diagnostic.display], none⟩
    | .ok run =>
      let messages := run.warnings.map Diagnostic.display
      if .denyWarnings ∈ request.flags ∧ run.warnings ≠ [] then
        let count := Text.ofNat run.warnings.length
        ⟨messages ++ [count ++ " warning(s) treated as errors".toList], none⟩
      else ⟨messages, some (request.written run)⟩

/-- A message on a line of its own, under the name of the program. -/
def line (message : Text) : Text :=
  "jsfxpp: ".toList ++ message ++ ['\n']

/-- The line about a file that cannot be read or written. -/
def fileLine (path reason : Text) : Text :=
  line ("error: ".toList ++ path ++ ": ".toList ++ reason)

/-- The answer to the question for the version. -/
def versionText : Text :=
  "jsfxpp ".toList ++ version ++ ['\n']

/-- What the program needs of the system around it. -/
structure Host (m : Type → Type) where
  read (path : Text) : m (Except FileError Text)
  write (path text : Text) : m (Except FileError Unit)
  print (text : Text) : m Unit
  printError (text : Text) : m Unit
  /-- Tells that a command line is refused. -/
  refuse : m Unit

section

variable {m : Type → Type} [Monad m] (host : Host m)

/-- Carries out a run, and answers its exit code. -/
def Request.perform (request : Request) : m Nat := do
  match ← host.read request.input with
  | .error e =>
    host.printError (fileLine request.input e.message)
    return 2
  | .ok source =>
    let report := request.report source
    host.printError (report.messages.flatMap line)
    match report.output with
    | none => return 1
    | some text =>
      match ← host.write request.output text with
      | .error e =>
        host.printError (fileLine request.output e.message)
        return 2
      | .ok () => return 0

/-- Carries out a command line, and answers its exit code. -/
def perform (arguments : List Text) : m Nat :=
  match Invocation.ofArguments arguments with
  | .run request => request.perform host
  | .version => do
    host.print versionText
    return 0
  | .help => do
    host.print helpText
    return 0
  | .refused => do
    host.refuse
    return 2

end

/-- What is left after a command line was carried out. -/
structure Outcome where
  exit : Nat
  refused : Bool := false
  stdout : Text := []
  stderr : Text := []
  directory : Directory

/-- Writes a text into a file of the directory that is left. -/
def Outcome.write (left : Outcome) (path text : Text) : Except FileError Unit × Outcome :=
  match left.directory.write path text with
  | .error e => (.error e, left)
  | .ok directory => (.ok (), { left with directory })

/-- A directory as all that there is of a system. -/
def Directory.host : Host (StateM Outcome) where
  read path := return (← get).directory.read path
  write path text := modifyGet (·.write path text)
  print text := modify fun left => { left with stdout := left.stdout ++ text }
  printError text := modify fun left => { left with stderr := left.stderr ++ text }
  refuse := modify ({ · with refused := true })

namespace Outcome

variable (left : Outcome)

/-- What is left after a program as well, with the exit code that it answers. -/
def after (program : StateM Outcome Nat) : Outcome :=
  let (exit, left) := program.run left
  { left with exit }

theorem after_read (path : Text) (next : Except FileError Text → StateM Outcome Nat) :
    left.after (Directory.host.read path >>= next) = left.after (next (left.directory.read path)) :=
  rfl

theorem after_write (path text : Text) (next : Except FileError Unit → StateM Outcome Nat) :
    left.after (Directory.host.write path text >>= next) =
      (left.write path text).2.after (next (left.write path text).1) :=
  rfl

theorem after_printError (text : Text) (next : Unit → StateM Outcome Nat) :
    left.after (Directory.host.printError text >>= next) =
      { left with stderr := left.stderr ++ text }.after (next ()) :=
  rfl

end Outcome

/-- Carries out a run in a directory. -/
def Request.execute (request : Request) (dir : Directory) : Outcome :=
  { exit := 0, directory := dir : Outcome }.after (request.perform Directory.host)

/-- Carries out a command line in a directory. -/
def execute (arguments : List Text) (dir : Directory) : Outcome :=
  { exit := 0, directory := dir : Outcome }.after (perform Directory.host arguments)

/-- What a run leaves, by the point at which it ends. -/
theorem Request.execute_eq (request : Request) (dir : Directory) : request.execute dir =
    match dir.read request.input with
    | .error e => { exit := 2, stderr := fileLine request.input e.message, directory := dir }
    | .ok source =>
      let report := request.report source
      let stderr := report.messages.flatMap line
      match report.output with
      | none => { exit := 1, stderr, directory := dir }
      | some text =>
        match dir.write request.output text with
        | .error e =>
          { exit := 2, stderr := stderr ++ fileLine request.output e.message, directory := dir }
        | .ok dir => { exit := 0, stderr, directory := dir } := by
  unfold execute perform
  rw [Outcome.after_read]
  dsimp only
  cases dir.read request.input with
  | error e => rfl
  | ok source =>
    dsimp only
    rw [Outcome.after_printError]
    cases (request.report source).output with
    | none => rfl
    | some text =>
      dsimp only
      rw [Outcome.after_write, Outcome.write]
      dsimp only
      cases dir.write request.output text with
      | error e => rfl
      | ok after => rfl

theorem execute_eq (arguments : List Text) (dir : Directory) : execute arguments dir =
    match Invocation.ofArguments arguments with
    | .run request => request.execute dir
    | .version => { exit := 0, stdout := versionText, directory := dir }
    | .help => { exit := 0, stdout := helpText, directory := dir }
    | .refused => { exit := 2, refused := true, directory := dir } := by
  unfold execute perform
  cases Invocation.ofArguments arguments <;> rfl

end JsfxSugar.Command
