import Reckoner.Token

/-!
What happens during a calculation, as it is told in the log: one line an event.
-/
set_option autoImplicit false

namespace Reckoner

inductive Event where
  | collected (expressions : Nat)
  | tokenized (tokens : Nat)
  | parsing (source : Text) (tokens : Nat)
  | consuming (token : Token) (position depth : Nat)
  | stacked (operands : Nat)
  | built (height : Nat)
  | combined (op : Operator) (left right value : Binary64)
  | applied (f : Function) (operand value : Binary64)
  | failed (expressions : Nat)
  deriving DecidableEq

inductive Detail where
  | debug
  | trace
  deriving DecidableEq

namespace Detail

def text : Detail → Text
  | .debug => "DEBUG".toList
  | .trace => "TRACE".toList

end Detail

namespace Event

def detail : Event → Detail
  | .tokenized _ | .stacked _ | .combined _ _ _ _ | .applied _ _ _ => .trace
  | _ => .debug

def source : Event → Text
  | .collected _ | .failed _ => "treecalc".toList
  | .tokenized _ => "treecalc::interpreter::lexer".toList
  | .parsing _ _ | .consuming _ _ _ | .stacked _ | .built _ =>
    "treecalc::interpreter::parser::core".toList
  | .combined _ _ _ _ | .applied _ _ _ => "treecalc::interpreter::evaluator::core".toList

def message : Event → Text
  | .collected _ => "evaluating expressions".toList
  | .tokenized _ => "tokenized expression".toList
  | .parsing _ _ => "parsing expression".toList
  | .consuming _ _ _ => "consuming token".toList
  | .stacked _ => "operand stack".toList
  | .built _ => "built tree".toList
  | .combined _ _ _ _ => "evaluated binary node".toList
  | .applied _ _ _ => "evaluated unary node".toList
  | .failed _ => "some expressions failed".toList

def fields : Event → List (String × Text)
  | .collected n => [("count", .ofNat n)]
  | .tokenized n => [("count", .ofNat n)]
  | .parsing s n => [("source", s.quote), ("tokens", .ofNat n)]
  | .consuming t p d => [("token", t.text), ("position", .ofNat p), ("depth", .ofNat d)]
  | .stacked n => [("operands", .ofNat n)]
  | .built n => [("height", .ofNat n)]
  | .combined o l r v =>
    [("op", o.text), ("left", l.logged), ("right", r.logged), ("value", v.logged)]
  | .applied f x v => [("function", f.text), ("operand", x.logged), ("value", v.logged)]
  | .failed n => [("failures", .ofNat n)]

def text (e : Event) : Text :=
  e.detail.text ++ ' ' :: e.source ++ ": ".toList ++ e.message ++
    e.fields.flatMap fun f => ' ' :: f.1.toList ++ '=' :: f.2

end Event

/-- Which events are told. -/
abbrev Log := Event → Bool

/-- The details that are told of the parts of the program whose names begin with the target. -/
structure Directive where
  target : Text
  details : List Detail
  deriving DecidableEq

namespace Directive

def isTargetChar (c : Char) : Bool := c.isAlphanum || c == '_' || c == ':' || c == '-'

def details? (level : Text) : Option (List Detail) :=
  match String.ofList (level.map Char.toLower) with
  | "off" | "error" | "warn" | "info" | "0" | "1" | "2" | "3" => some []
  | "debug" | "4" => some [.debug]
  | "trace" | "5" => some [.debug, .trace]
  | _ => none

/-- A level for the whole program, or a target with a level, or a target alone, of which everything
is told. -/
def ofText? (t : Text) : Option Directive :=
  match details? t with
  | some ds => some ⟨[], ds⟩
  | none =>
    let target := t.takeWhile (· != '=')
    if target.isEmpty || !target.all isTargetChar then none
    else match t.dropWhile (· != '=') with
      | [] | ['='] => some ⟨target, [.debug, .trace]⟩
      | _ :: level => (details? level).map (⟨target, ·⟩)

/-- Of the directives for an event the one with the longest target; the last one, if there are
several. -/
def governing? (e : Event) : List Directive → Option Directive
  | [] => none
  | d :: ds =>
    match governing? e ds with
    | none => if d.target.isPrefixOf e.source then some d else none
    | some b =>
      if d.target.isPrefixOf e.source && b.target.length < d.target.length then some d else some b

end Directive

namespace Log

def silent : Log := fun _ => false

def ofDirectives (ds : List Directive) : Log := fun e =>
  (Directive.governing? e ds).any (·.details.contains e.detail)

def ofText? (t : Text) : Option Log :=
  (((Text.split ',' t).filter (· ≠ [])).mapM Directive.ofText?).map ofDirectives

end Log
end Reckoner
