import JsfxSugar.Stage

/-! Command lines: two paths, and options that may stand anywhere before a `--`. -/

namespace JsfxSugar.Command

/-- What a run writes: a program, the text after an earlier stage, or a report. -/
inductive Product where
  | jsfx
  | ranges
  | enumerations
  | symbols
  | buildInfo
  deriving DecidableEq, Repr

namespace Product

def ofName? (name : Text) : Option Product :=
  if name = "jsfx".toList then some jsfx
  else if name = "sequences".toList then some ranges
  else if name = "enums".toList then some enumerations
  else if name = "symbols".toList then some symbols
  else if name = "build-info".toList then some buildInfo
  else none

/-- The last stage that is needed; none for the report on the source itself. -/
def lastStage? : Product → Option Stage
  | jsfx | symbols => some .dispatch
  | ranges => some .ranges
  | enumerations => some .enumerations
  | buildInfo => none

end Product

/-- An option without a value. -/
inductive Flag where
  | noBanner
  | denyWarnings
  | verbose
  deriving DecidableEq, Repr

/-- The argument that sets a flag. -/
def Flag.argument : Flag → Text
  | noBanner => "--no-banner".toList
  | denyWarnings => "--deny-warnings".toList
  | verbose => "--verbose".toList

/-- What is asked of a run. -/
structure Request where
  input : Text
  output : Text
  product : Product := .jsfx
  flags : List Flag := []
  deriving DecidableEq, Repr

/-- A command line: a run, one of the two questions, or neither. -/
inductive Invocation where
  | run (request : Request)
  | version
  | help
  | refused
  deriving DecidableEq, Repr

/-- One argument, before the `--`. -/
inductive Argument where
  | path (t : Text)
  | flag (flag : Flag)
  | emit (value : Option Text)
  | version
  | help
  | endOfOptions
  | unknown
  deriving DecidableEq, Repr

namespace Argument

/-- An option in its long form; only the one that takes a value may have one after `=`. -/
def ofLong (option : Text) : Argument :=
  match Text.upTo? '=' option with
  | some (name, value) => if name = "emit".toList then emit (some value) else unknown
  | none =>
    if option = "emit".toList then emit none
    else if option = "no-banner".toList then flag .noBanner
    else if option = "deny-warnings".toList then flag .denyWarnings
    else if option = "verbose".toList then flag .verbose
    else if option = "version".toList then version
    else if option = "help".toList then help
    else unknown

/-- Short options may be run together, of which the first counts. A lone dash is a path; an empty
path is none. -/
def ofText : Text → Argument
  | [] => unknown
  | ['-', '-'] => endOfOptions
  | '-' :: '-' :: option => ofLong option
  | '-' :: 'V' :: _ => version
  | '-' :: 'h' :: _ => help
  | '-' :: _ :: _ => unknown
  | t => path t

end Argument

namespace Invocation

/-- The options read so far, and the paths in reverse. -/
structure Reading where
  paths : List Text := []
  product : Option Product := none
  flags : List Flag := []

namespace Reading

/-- A third path is one too many. -/
def addPath? (reading : Reading) (path : Text) : Option Reading :=
  if path ≠ [] ∧ reading.paths.length < 2 then some { reading with paths := path :: reading.paths }
  else none

/-- An option is given once only. -/
def addFlag? (reading : Reading) (flag : Flag) : Option Reading :=
  if flag ∈ reading.flags then none else some { reading with flags := flag :: reading.flags }

/-- The value must be one of the names. -/
def setProduct? (reading : Reading) (value : Text) : Option Reading :=
  match reading.product, Product.ofName? value with
  | none, some product => some { reading with product }
  | _, _ => none

def finish (reading : Reading) : Invocation :=
  match reading.paths with
  | [output, input] =>
    run { input, output, product := reading.product.getD .jsfx, flags := reading.flags }
  | _ => refused

end Reading

/-- Reads arguments in order. The first one that is wrong refuses them all, and the first question
is answered whatever comes after it. -/
def read (reading : Reading) : List Text → Invocation
  | [] => reading.finish
  | argument :: rest =>
    match Argument.ofText argument with
    | .path path => (reading.addPath? path).elim refused (read · rest)
    | .flag flag => (reading.addFlag? flag).elim refused (read · rest)
    | .emit (some value) => (reading.setProduct? value).elim refused (read · rest)
    | .emit none =>
      match rest with
      | [] => refused
      | value :: rest => (reading.setProduct? value).elim refused (read · rest)
    | .version => version
    | .help => help
    | .endOfOptions => (rest.foldlM Reading.addPath? reading).elim refused Reading.finish
    | .unknown => refused

/-- What a command line asks for. -/
def ofArguments (arguments : List Text) : Invocation :=
  read {} arguments

end Invocation

end JsfxSugar.Command
