import Reckoner.Text

set_option autoImplicit false

namespace Reckoner

inductive InputFault where
  | missing
  | isFolder
  | throughFile
  | invalidText
  | other (reason : Text)
  deriving DecidableEq

namespace InputFault

def reason : InputFault → Text
  | .missing => "No such file or directory (os error 2)".toList
  | .isFolder => "Is a directory (os error 21)".toList
  | .throughFile => "Not a directory (os error 20)".toList
  | .invalidText => "stream did not contain valid UTF-8".toList
  | .other reason => reason

def message (path : Text) (f : InputFault) : Text :=
  "Failed to read the input file '".toList ++ path ++ "': ".toList ++ f.reason

end InputFault

def Text.ofBytes (b : ByteArray) : Except InputFault Text :=
  match String.fromUTF8? b with
  | some s => .ok s.toList
  | none => .error .invalidText

abbrev Folder := List (Text × ByteArray)

namespace Folder

def file? (d : Folder) (name : Text) : Option ByteArray :=
  (d.find? (·.1 == name)).map (·.2)

def staysInPlace (name : Text) : Bool := name.isEmpty || name == ['.']

/-- Follows a path from the folder itself. Nothing is known of the folders around it but that they
are folders. -/
def follow (d : Folder) : List Text → Except InputFault ByteArray
  | [] => .error .isFolder
  | n :: ns =>
    if staysInPlace n then follow d ns
    else if n == ['.', '.'] then outside ns
    else match d.file? n with
      | none => .error .missing
      | some b => if ns.isEmpty then .ok b else .error .throughFile
where
  outside (ns : List Text) : Except InputFault ByteArray :=
    if ns.all fun n => staysInPlace n || n == ['.', '.'] then .error .isFolder
    else .error .missing

def read (d : Folder) (path : Text) : Except InputFault Text := do
  let b ← match path with
    | '/' :: rest => follow.outside (Text.split '/' rest)
    | path => follow d (Text.split '/' path)
  Text.ofBytes b

end Folder

namespace Worksheet

def leftSide (t : Text) : Text :=
  if '=' ∈ t then Text.trimEnd (t.takeWhile (· != '=')) else t

/-- Blank lines hold no expression, and neither do comments, which begin with `#`. -/
def expression? (line : Text) : Option Text :=
  match line.trim with
  | [] => none
  | '#' :: _ => none
  | t => some (leftSide t)

def expressions (t : Text) : List Text := t.lines.filterMap expression?

theorem expressions_append_newline (s t : Text) :
    expressions (s ++ '\n' :: t) = expressions s ++ expressions t := by
  simp [expressions, Text.lines, Text.split_append_separator]

end Worksheet
end Reckoner
