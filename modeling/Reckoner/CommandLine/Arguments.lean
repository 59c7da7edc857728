import Reckoner.Text

/-!
What the arguments of a call ask for. Options and expressions may be mixed; everything after `--`
is an expression, and so is a lone `-`.
-/
set_option autoImplicit false

namespace Reckoner

structure Request where
  file : Option Text
  tokens : Bool
  tree : Bool
  verbosity : Nat
  expressions : List Text
  deriving DecidableEq

inductive Command where
  | version
  | evaluate (r : Request)
  deriving DecidableEq

namespace Request

def empty : Request := ⟨none, false, false, 0, []⟩

def withFile? (r : Request) (name : Text) : Option Request :=
  if name.isEmpty || r.file.isSome then none else some { r with file := some name }

def withTokens? (r : Request) : Option Request :=
  if r.tokens then none else some { r with tokens := true }

def withTree? (r : Request) : Option Request :=
  if r.tree then none else some { r with tree := true }

def moreVerbose (r : Request) : Request := { r with verbosity := r.verbosity + 1 }

def withExpressions (r : Request) (es : List Text) : Request :=
  { r with expressions := r.expressions ++ es }

end Request

namespace Command

inductive Reading where
  | done (c : Command)
  | further (r : Request)
  | awaitingFile (r : Request)
  deriving DecidableEq

/-- A cluster of one-letter options; the letters after `f` are a file name, with or without an
equals sign before it. -/
def readLetters (r : Request) : Text → Option Reading
  | [] => some (.further r)
  | 'V' :: _ => some (.done .version)
  | 'v' :: cs => readLetters r.moreVerbose cs
  | ['f'] => some (.awaitingFile r)
  | 'f' :: '=' :: name => (r.withFile? name).map .further
  | 'f' :: name => (r.withFile? name).map .further
  | _ => none

def readWord (r : Request) (t : Text) : Option Reading :=
  let name := String.ofList (t.takeWhile (· != '='))
  match name, t.dropWhile (· != '=') with
  | "version", [] => some (.done .version)
  | "verbose", [] => some (.further r.moreVerbose)
  | "tokens", [] => r.withTokens?.map .further
  | "tree", [] => r.withTree?.map .further
  | "file", [] => some (.awaitingFile r)
  | "file", _ :: value => (r.withFile? value).map .further
  | _, _ => none

def isOption : Text → Bool
  | '-' :: _ :: _ => true
  | _ => false

def readArgument (r : Request) : Text → Option Reading
  | '-' :: '-' :: word => readWord r word
  | '-' :: c :: letters => readLetters r (c :: letters)
  | e => some (.further (r.withExpressions [e]))

def readAll : Reading → List Text → Option Command
  | .done c, _ => some c
  | .further r, [] => some (.evaluate r)
  | .awaitingFile _, [] => none
  | .further r, a :: as =>
    if a = ['-', '-'] then some (.evaluate (r.withExpressions as))
    else match readArgument r a with
      | none => none
      | some next => readAll next as
  | .awaitingFile r, a :: as =>
    if isOption a then none
    else match r.withFile? a with
      | none => none
      | some r => readAll (.further r) as

def ofArguments? (arguments : List Text) : Option Command :=
  readAll (.further Request.empty) arguments

end Command
end Reckoner
