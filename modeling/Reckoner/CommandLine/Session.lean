import Reckoner.CommandLine.Arguments
import Reckoner.CommandLine.Input
import Reckoner.Tree.Journal

/-!
A call from beginning to end: the expressions it evaluates, the lines it writes, its exit status.
-/
set_option autoImplicit false

namespace Reckoner

def demonstration : List Text :=
  ["3.5 + 4.5", "5.4 - 3.2", "4.2 * 1.2", "6.7 / 3.1", "(3.5 + 3.2) * 2", "4.2 / (1.2 * 2.3)",
    "2^3", "-5 + 2", "sin(0)", "cos(0)", "tan(0)", "cot(1.5708)", "ln(2.71)", "log(100)",
    "sqrt(144)", "2^3.5", "2^-0.5", "sinh(1)", "cosh(1)", "tanh(1)", "coth(1)", "sech(1)",
    "csch(1)", "5!"].map String.toList

inductive Line where
  | result (t : Text)
  | complaint (t : Text)
  | event (e : Event)
  deriving DecidableEq

namespace Line

def isComplaint : Line → Bool
  | .complaint _ => true
  | _ => false

def onOutput? : Line → Option Text
  | .result t => some t
  | _ => none

def onErrors? (told : Log) : Line → Option Text
  | .complaint t => some t
  | .event e => if told e then some e.text else none
  | .result _ => none

end Line

def Text.unlines (ls : List Text) : Text := ls.flatMap (· ++ ['\n'])

structure Response where
  exit : Nat
  output : Text
  errors : Text
  deriving DecidableEq

namespace Request

def complaint (e message : Text) : Line := .complaint (e ++ ": ".toList ++ message)

def readingEvents (e : Text) : List Event :=
  match Token.ofText e with
  | .error _ => []
  | .ok ts =>
    .tokenized ts.length :: .parsing e ts.length :: Tree.buildingEvents ts ++
      match Tree.ofTokens ts with
      | .error _ => []
      | .ok t => [.built t.height]

def valueLines (m : Elementary) (r : Request) (e : Text) (t : Tree) : List Line :=
  (if r.tree then [.result ("tree: ".toList ++ t.text)] else []) ++
    (t.valueEvents m).map .event ++
    match t.value m with
    | .error x => [complaint e x.message]
    | .ok v => [.result (e ++ " = ".toList ++ v.plain)]

def treeLines (m : Elementary) (r : Request) (e : Text) : List Line :=
  (readingEvents e).map .event ++
    match Tree.ofText e with
    | .error x => [complaint e x.message]
    | .ok t => valueLines m r e t

/-- What one expression adds to the output. A request for the tokens has them read twice: the first
time to be shown, so that what is wrong with the characters comes to light before the tree. -/
def expressionLines (m : Elementary) (r : Request) (e : Text) : List Line :=
  if r.tokens then
    match Token.ofText e with
    | .error x => [complaint e x.message]
    | .ok ts =>
      .event (.tokenized ts.length) :: .result ("tokens: ".toList ++ Token.listing ts) ::
        treeLines m r e
  else treeLines m r e

/-- The expressions of the file come first. The demonstration is for a call that names neither a
file nor an expression. -/
def allExpressions (r : Request) (worksheet : Option Text) : List Text :=
  match worksheet with
  | some t => Worksheet.expressions t ++ r.expressions
  | none => if r.expressions.isEmpty then demonstration else r.expressions

def lines (m : Elementary) (r : Request) (es : List Text) : List Line :=
  let body := es.flatMap (r.expressionLines m)
  let failures := body.countP Line.isComplaint
  .event (.collected es.length) :: body ++
    if failures = 0 then [] else [.event (.failed failures)]

def directive (r : Request) : Text :=
  match r.verbosity with
  | 0 => "treecalc=info".toList
  | 1 => "treecalc=debug".toList
  | _ => "treecalc=trace".toList

/-- A filter outweighs the verbosity, unless nothing can be made of it. What directives mean is for
`logs` to say. -/
def log (logs : Text → Option Log) (filter : Option Text) (r : Request) : Log :=
  match filter.bind logs with
  | some told => told
  | none => (logs r.directive).getD Log.silent

def response (m : Elementary) (told : Log) (r : Request) (es : List Text) : Response :=
  let ls := r.lines m es
  { exit := if ls.any Line.isComplaint then 1 else 0
    output := Text.unlines (ls.filterMap Line.onOutput?)
    errors := Text.unlines (ls.filterMap (Line.onErrors? told)) }

end Request

namespace Response

def version : Response := ⟨0, Text.unlines ["treecalc 0.1.0".toList], []⟩

def ofInputFault (path : Text) (f : InputFault) : Response :=
  ⟨1, [], Text.unlines [f.message path]⟩

end Response

namespace Command

def respond (m : Elementary) (logs : Text → Option Log) (filter : Option Text)
    (read : Text → Except InputFault Text) : Command → Response
  | .version => .version
  | .evaluate r =>
    match r.file with
    | none => r.response m (r.log logs filter) (r.allExpressions none)
    | some path =>
      match read path with
      | .error f => .ofInputFault path f
      | .ok t => r.response m (r.log logs filter) (r.allExpressions (some t))

def response (m : Elementary) (filter : Option Text) (read : Text → Except InputFault Text) :
    Command → Response := respond m Log.ofText? filter read

end Command

def refusedExit : Nat := 2

end Reckoner
