import JsfxSugar.Text.Basic

/-! A directory with its files, and reading and writing them by path.

Paths and arguments are Unicode texts, and names are not links: each stands for the file or the folder
that was put there. Reading and writing fail where the path does not lead to a file, or where the file
is no text, and for no other reason: nothing is refused for want of permission or of space, and what is
written is written whole. -/

namespace JsfxSugar.Command

/-- Why a file cannot be read or written. -/
inductive FileError where
  | missing
  | notFolder
  | isFolder
  | nameTooLong
  | notText
  /-- Any other reason, as the system words it. -/
  | other (reason : Text)
  deriving DecidableEq, Repr

def FileError.message : FileError → Text
  | missing => "No such file or directory (os error 2)".toList
  | notFolder => "Not a directory (os error 20)".toList
  | isFolder => "Is a directory (os error 21)".toList
  | nameTooLong => "File name too long (os error 36)".toList
  | notText => "stream did not contain valid UTF-8".toList
  | other reason => reason

/-- The length of the longest path, in bytes. -/
def maxPathLength : Nat := 4095

/-- The length of the longest name, in bytes. -/
def maxNameLength : Nat := 255

/-- A path: whether it begins at the root, the names on it, and whether a slash ends it. -/
structure Path where
  absolute : Bool
  names : List Text
  slash : Bool
  deriving DecidableEq, Repr

namespace Path

/-- Slashes in a row count as one. -/
def ofText (t : Text) : Path where
  absolute := t.head? = some '/'
  names := (Text.pieces '/' t).filter (· ≠ [])
  slash := t.getLast? = some '/'

/-- A path that is not too long for the system. -/
def parse (t : Text) : Except FileError Path :=
  if t.byteLength ≤ maxPathLength then .ok (ofText t) else .error .nameTooLong

end Path

/-- A place in the directory, or one around it: the names on the way to it. Nothing is known of the
folders around the directory but that they are there, so all of them are one. -/
structure Location where
  around : Bool := false
  names : List Text := []
  deriving DecidableEq, Repr

namespace Location

/-- The folder that a location lies in. The root lies in itself. -/
def parent (here : Location) : Location :=
  if here.names = [] then { around := true } else { here with names := here.names.dropLast }

/-- Where a name leads from a folder, whether or not there is something. -/
def step (here : Location) (name : Text) : Except FileError Location :=
  if name = ['.'] then .ok here
  else if name = ['.', '.'] then .ok here.parent
  else if name.byteLength ≤ maxNameLength then .ok { here with names := here.names ++ [name] }
  else .error .nameTooLong

end Location

inductive Node where
  | file (bytes : ByteArray)
  | folder

/-- What lies in the directory and around it, each with the folders on the way to it. -/
structure Directory where
  nodes : List (Location × Node) := []

namespace Directory

/-- The node at a location. The directory itself is a folder, and so are those around it. -/
def node? (dir : Directory) (location : Location) : Option Node :=
  if location.names = [] then some .folder else dir.nodes.lookup location

/-- Puts a node at a location, in place of the one that is there. -/
def put (dir : Directory) (location : Location) (node : Node) : Directory where
  nodes := (location, node) :: dir.nodes.filter (·.1 ≠ location)

/-- Goes from a folder into the next one. -/
def enter (dir : Directory) (here : Location) (name : Text) : Except FileError Location := do
  let next ← here.step name
  match dir.node? next with
  | some .folder => return next
  | some (.file _) => throw .notFolder
  | none => throw .missing

/-- Follows names from a folder. All but the last must lead to folders. -/
def follow (dir : Directory) (here : Location) : List Text → Except FileError Location
  | [] => .ok here
  | [last] => here.step last
  | name :: rest => do dir.follow (← dir.enter here name) rest

/-- The text of the file at a path. What has a slash after it must be a folder. -/
def read (dir : Directory) (path : Text) : Except FileError Text := do
  let path ← Path.parse path
  let names := if path.slash then path.names ++ [['.']] else path.names
  let location ← dir.follow { around := path.absolute } names
  match dir.node? location with
  | none => throw .missing
  | some .folder => throw .isFolder
  | some (.file bytes) =>
    match String.fromUTF8? bytes with
    | some text => return text.toList
    | none => throw .notText

/-- The directory with a text in the file at a path, which may be new. With a slash after it the
path is one of a folder, even when there is none. -/
def write (dir : Directory) (path : Text) (text : Text) : Except FileError Directory := do
  let path ← Path.parse path
  let names := if path.slash then path.names.dropLast ++ [['.']] else path.names
  let location ← dir.follow { around := path.absolute } names
  match dir.node? location with
  | some .folder => throw .isFolder
  | _ => return dir.put location (.file (String.ofList text).toUTF8)

/-- The directory with a node at a path, and folders on the way to it. -/
def create (dir : Directory) (path : Text) (node : Node) : Directory :=
  let names := (Path.ofText path).names.filter (· ≠ ['.'])
  let folders := (List.range names.length).tail.map fun n => { names := names.take n }
  (folders.foldl (fun dir location => if (dir.node? location).isSome then dir else
    dir.put location .folder) dir).put { names } node

end Directory

end JsfxSugar.Command
