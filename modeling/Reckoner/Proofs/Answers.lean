import Reckoner.CommandLine.Session

set_option autoImplicit false

namespace Reckoner

namespace Request

inductive Collects (read : Text → Except InputFault Text) (r : Request) : List Text → Prop where
  | file {path content : Text} (hf : r.file = some path) (hr : read path = .ok content) :
    Collects read r (Worksheet.expressions content ++ r.expressions)
  | arguments (hf : r.file = none) (he : r.expressions ≠ []) : Collects read r r.expressions
  | demonstration (hf : r.file = none) (he : r.expressions = []) :
    Collects read r Reckoner.demonstration

end Request

namespace Line

def isUnlogged : Line → Bool
  | .event _ => false
  | _ => true

@[simp] theorem filter_isUnlogged_result (t : Text) (ls : List Line) :
    (result t :: ls).filter isUnlogged = result t :: ls.filter isUnlogged := rfl

@[simp] theorem filter_isUnlogged_complaint (t : Text) (ls : List Line) :
    (complaint t :: ls).filter isUnlogged = complaint t :: ls.filter isUnlogged := rfl

@[simp] theorem filter_isUnlogged_event (e : Event) (ls : List Line) :
    (event e :: ls).filter isUnlogged = ls.filter isUnlogged := rfl

@[simp] theorem filter_isUnlogged_events (es : List Event) :
    (es.map event).filter isUnlogged = [] := by
  induction es with
  | nil => rfl
  | cons e es ih => simp [ih]

end Line

namespace Request

variable {m : Elementary} {r : Request} {es : List Text}

variable {logs : Text → Option Log} {filter : Option Text} {read : Text → Except InputFault Text}

/-- A call has expressions to evaluate, or it names a file that cannot be read. -/
theorem exists_collects_or_fault (m : Elementary) (logs : Text → Option Log)
    (filter : Option Text) (read : Text → Except InputFault Text) (r : Request) :
    (∃ es, r.Collects read es) ∨
      ∃ path f, r.file = some path ∧ read path = .error f ∧
        Command.respond m logs filter read (.evaluate r) = .ofInputFault path f := by
  cases hf : r.file with
  | none =>
    by_cases he : r.expressions = []
    · exact .inl ⟨_, .demonstration hf he⟩
    · exact .inl ⟨_, .arguments hf he⟩
  | some path =>
    cases hr : read path with
    | ok content => exact .inl ⟨_, .file hf hr⟩
    | error f => exact .inr ⟨path, f, rfl, hr, by simp [Command.respond, hf, hr]⟩

end Request

end Reckoner
