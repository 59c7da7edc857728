import Reckoner.Token

/-!
Why an expression has no value, and the wording of each reason. A reason may rest on a narrower
one, whose wording it repeats.
-/
set_option autoImplicit false

namespace Reckoner

/-- A place where no token can be read. Positions count bytes. -/
inductive LexicalError where
  | unknownCharacter (c : Char) (position : Nat)
  | malformedNumber (literal : Text) (position : Nat)
  | literalTooLarge (literal : Text) (position : Nat)
  deriving DecidableEq

inductive ReadingError where
  | lexical (e : LexicalError)
  | missingOperand
  | unbalanced
  | missingParenthesis (f : Function)
  | unexpected (t : Token)
  | incomplete
  | tooDeep (limit : Nat)
  deriving DecidableEq

inductive EvaluationError where
  | divisionByZero
  | cotangentUndefined
  | negativeRoot
  | negativeFactorial
  deriving DecidableEq

inductive Error where
  | reading (e : ReadingError)
  | evaluation (e : EvaluationError)
  deriving DecidableEq

instance decidableEqExcept {ε α : Type} [DecidableEq ε] [DecidableEq α] :
    DecidableEq (Except ε α)
  | .error e, .error e' => decidable_of_iff (e = e') ⟨congrArg _, Except.error.inj⟩
  | .ok a, .ok b => decidable_of_iff (a = b) ⟨congrArg _, Except.ok.inj⟩
  | .error _, .ok _ => isFalse (fun h => by cases h)
  | .ok _, .error _ => isFalse (fun h => by cases h)

theorem bind_eq_ok {ε α β : Type} {x : Except ε α} {f : α → Except ε β} {b : β}
    (h : x >>= f = .ok b) : ∃ a, x = .ok a ∧ f a = .ok b := by
  cases x with
  | error e => cases h
  | ok a => exact ⟨a, rfl, h⟩

theorem bind_eq_error {ε α β : Type} {x : Except ε α} {f : α → Except ε β} {e : ε}
    (h : x >>= f = .error e) : x = .error e ∨ ∃ a, x = .ok a ∧ f a = .error e := by
  cases x with
  | error e' =>
    cases h
    exact .inl rfl
  | ok a => exact .inr ⟨a, rfl, h⟩

theorem map_eq_ok {ε α β : Type} {x : Except ε α} {f : α → β} {b : β}
    (h : x.map f = .ok b) : ∃ a, x = .ok a ∧ f a = b := by
  cases x with
  | error e => cases h
  | ok a => exact ⟨a, rfl, Except.ok.inj h⟩

def inQuotes (t : Text) : Text := '\'' :: t ++ ['\'']

namespace LexicalError

def message : LexicalError → Text
  | .unknownCharacter c p => located p ("Unknown character ".toList ++ inQuotes [c] ++ ['.'])
  | .malformedNumber l p => located p ("Malformed number ".toList ++ inQuotes l ++ ['.'])
  | .literalTooLarge l p =>
    located p ("Literal ".toList ++ inQuotes l ++ " is too large.".toList)
where
  located (position : Nat) (t : Text) : Text :=
    "Error at ".toList ++ Text.ofNat position ++ ": ".toList ++ t

def shift (offset : Nat) : LexicalError → LexicalError
  | .unknownCharacter c p => .unknownCharacter c (offset + p)
  | .malformedNumber l p => .malformedNumber l (offset + p)
  | .literalTooLarge l p => .literalTooLarge l (offset + p)

def position : LexicalError → Nat
  | .unknownCharacter _ p | .malformedNumber _ p | .literalTooLarge _ p => p

end LexicalError

namespace ReadingError

def message : ReadingError → Text
  | .lexical e => e.message
  | .missingOperand => "Error: Not enough operands for operator.".toList
  | .unbalanced => "Error: Parentheses are not balanced.".toList
  | .missingParenthesis f =>
    "Error: Expected '(' after function ".toList ++ inQuotes f.text ++ ['.']
  | .unexpected t => "Error: Unexpected token: ".toList ++ t.text ++ ['.']
  | .incomplete => "Error: Expression does not reduce to a single value.".toList
  | .tooDeep n =>
    "Error: Expression is nested deeper than ".toList ++ Text.ofNat n ++ " levels.".toList

def causes : ReadingError → Nat
  | .lexical _ => 1
  | _ => 0

end ReadingError

namespace EvaluationError

def message : EvaluationError → Text
  | .divisionByZero => "Error: Division by zero.".toList
  | .cotangentUndefined => "Error: Cotangent is undefined where tan is zero.".toList
  | .negativeRoot => "Error: The square root of a negative number cannot be taken.".toList
  | .negativeFactorial => "Error: Factorial is not defined for negative numbers.".toList

end EvaluationError

namespace Error

def message : Error → Text
  | .reading e => e.message
  | .evaluation e => e.message

def causes : Error → Nat
  | .reading e => e.causes + 1
  | .evaluation _ => 1

end Error
end Reckoner
