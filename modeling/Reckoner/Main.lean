import Reckoner.CommandLine.Session

/-!
The program: arguments, files and the environment in, text and an exit status out.
-/
set_option autoImplicit false

namespace Reckoner

/-- The system's number for a folder where a file was wanted is 21, with or without a minus. -/
def InputFault.ofError : IO.Error → InputFault
  | .noFileOrDirectory _ _ _ => .missing
  | .inappropriateType _ code _ =>
    if code = 21 || code = 0 - 21 then .isFolder else .throughFile
  | e => .other e.toString.toList

def readInput (path : Text) : IO (Except InputFault Text) := do
  try return Text.ofBytes (← IO.FS.readBinFile (String.ofList path))
  catch e => return .error (.ofError e)

def answer (arguments : List String) (filter : Option String) : IO (Option Response) := do
  match Command.ofArguments? (arguments.map String.toList) with
  | none => return none
  | some c =>
    let input ← match c with
      | .evaluate ⟨some path, _, _, _, _⟩ => readInput path
      | _ => pure (.error .missing)
    return some (c.response .machine (filter.map String.toList) fun _ => input)

end Reckoner

def main (arguments : List String) : IO UInt32 := do
  match ← Reckoner.answer arguments (← IO.getEnv "RUST_LOG") with
  | none =>
    IO.eprintln "error: the arguments are not understood"
    return UInt32.ofNat Reckoner.refusedExit
  | some r =>
    IO.print (String.ofList r.output)
    IO.eprint (String.ofList r.errors)
    return UInt32.ofNat r.exit
