import JsfxSugar.Command.Arguments

/-! The text that answers the question for help: what the program is for, and what may stand on its
command line. -/

namespace JsfxSugar.Command

namespace Product

/-- The products in the order in which they are shown. -/
def all : List Product :=
  [jsfx, ranges, enumerations, symbols, buildInfo]

theorem mem_all (product : Product) : product ∈ all := by
  cases product <;> decide

/-- The name of a product on a command line. -/
def name : Product → Text
  | jsfx => "jsfx".toList
  | ranges => "sequences".toList
  | enumerations => "enums".toList
  | symbols => "symbols".toList
  | buildInfo => "build-info".toList

/-- A product is asked for by its name. -/
theorem ofName?_name (product : Product) : ofName? product.name = some product := by
  cases product <;> decide

def description : Product → Text
  | jsfx => "Fully preprocessed JSFX, with banner".toList
  | ranges => "Text after range expansion".toList
  | enumerations => "Text after enum allocation".toList
  | symbols => "Symbol tables as JSON".toList
  | buildInfo => "Source hash and version as JSON".toList

/-- The line on a product. The descriptions stand below one another. -/
def line (product : Product) : Text :=
  ("- ".toList ++ product.name ++ [':']).rightpad 14 ' ' ++ product.description

end Product

def Flag.description : Flag → Text
  | noBanner => "Do not prefix the output with the generator banner".toList
  | denyWarnings => "Treat warnings as errors".toList
  | verbose => "Log passes and timing to stderr".toList

/-- What the program is for. -/
def about : Text :=
  "JSFX Pre-Processor — expands range templates, enums and function dispatch".toList

/-- The form of a command line. -/
def usage : Text :=
  "Usage: jsfxpp [OPTIONS] <INPUT> <OUTPUT>".toList

/-- How something is written on a command line, and below it, in paragraphs, what it means. -/
def entry (written : Text) (paragraphs : List (List Text)) : Text :=
  let indented := paragraphs.map fun lines =>
    Text.join ['\n'] (lines.map ("          ".toList ++ ·))
  "  ".toList ++ written ++ ['\n'] ++ Text.join ['\n', '\n'] indented

/-- The entry of an option without a short form. -/
def longEntry (written : Text) (paragraphs : List (List Text)) : Text :=
  entry ("    ".toList ++ written) paragraphs

def Flag.entry (flag : Flag) : Text :=
  longEntry flag.argument [[flag.description]]

/-- The answer to the question for help. -/
def helpText : Text :=
  let arguments := [
    entry "<INPUT>".toList [["Input source file".toList]],
    entry "<OUTPUT>".toList [["Output file path".toList]]]
  let options := [
    longEntry "--emit <EMIT>".toList [
      ["Output stage".toList],
      "Possible values:".toList :: Product.all.map Product.line,
      ["[default: ".toList ++ Product.jsfx.name ++ [']']]],
    Flag.noBanner.entry,
    Flag.denyWarnings.entry,
    Flag.verbose.entry,
    entry "-h, --help".toList [["Print help".toList]],
    entry "-V, --version".toList [["Print version".toList]]]
  Text.join ['\n', '\n'] [about, usage, "Arguments:\n".toList ++ Text.join ['\n', '\n'] arguments,
    "Options:\n".toList ++ Text.join ['\n', '\n'] options] ++ ['\n']

end JsfxSugar.Command
