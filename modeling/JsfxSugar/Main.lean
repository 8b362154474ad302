import JsfxSugar.Command.Execution

/-! The program on the files of the system. -/

namespace JsfxSugar.Command

/-- The reason that the system gives for a failure. -/
def reason (e : IO.Error) : FileError :=
  match e with
  | .noFileOrDirectory .. => .missing
  | .inappropriateType _ code _ => if code = 20 then .notFolder else .isFolder
  | .invalidArgument _ 36 _ => .nameTooLong
  | e => .other e.toString.toList

/-- The text of a file of the system. -/
def readText (path : Text) : IO (Except FileError Text) := do
  try
    let bytes ← IO.FS.readBinFile (String.ofList path)
    match String.fromUTF8? bytes with
    | some text => return .ok text.toList
    | none => return .error .notText
  catch e => return .error (reason e)

/-- Writes a text into a file of the system. -/
def writeText (path text : Text) : IO (Except FileError Unit) := do
  try
    IO.FS.writeBinFile (String.ofList path) (String.ofList text).toUTF8
    return .ok ()
  catch e => return .error (reason e)

/-- The system with its files. -/
def host : Host IO where
  read := readText
  write := writeText
  print text := IO.print (String.ofList text)
  printError text := IO.eprint (String.ofList text)
  refuse := IO.eprint (String.ofList (usage ++ ['\n']))

end JsfxSugar.Command

open JsfxSugar.Command in
def main (arguments : List String) : IO UInt32 := do
  return UInt32.ofNat (← perform host (arguments.map String.toList))
