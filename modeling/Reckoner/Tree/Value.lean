import Reckoner.Binary64.Bits
import Reckoner.Tree.Building

set_option autoImplicit false

namespace Reckoner

/-- A zero divisor of either sign is refused; every other operation follows the arithmetic. -/
def Operator.apply (m : Elementary) (o : Operator) (x y : Binary64) :
    Except EvaluationError Binary64 :=
  match o with
  | .plus => .ok (x.add y)
  | .minus => .ok (x.sub y)
  | .times => .ok (x.mul y)
  | .over => if y.isZero then .error .divisionByZero else .ok (x.div y)
  | .power => .ok (m.pow x y)

namespace Function

def reciprocal (x : Binary64) : Binary64 :=
  if x.isZero then .infinity false else Binary64.one.div x

def largestFactorial : Nat := 170

/-- The factorial of the part before the point. -/
def factorialValue (x : Binary64) : Except EvaluationError Binary64 :=
  if x = .nan then .ok .nan
  else if x.truncatesBelowZero then .error .negativeFactorial
  else match x.toCount? with
    | none => .ok (.infinity false)
    | some n => .ok (if largestFactorial < n then .infinity false else Binary64.productUpTo n)

def apply (m : Elementary) (f : Function) (x : Binary64) : Except EvaluationError Binary64 :=
  match f with
  | .sin => .ok (m.sin x)
  | .cos => .ok (m.cos x)
  | .tan => .ok (m.tan x)
  | .cot =>
    if (m.tan x).isZero then .error .cotangentUndefined else .ok (Binary64.one.div (m.tan x))
  | .ln => .ok (m.ln x)
  | .log => .ok (m.log10 x)
  | .sqrt => if x.isBelowZero then .error .negativeRoot else .ok x.sqrt
  | .sinh => .ok (m.sinh x)
  | .cosh => .ok (m.cosh x)
  | .tanh => .ok (m.tanh x)
  | .coth => .ok (reciprocal (m.tanh x))
  | .sech => .ok (Binary64.one.div (m.cosh x))
  | .csch => .ok (reciprocal (m.sinh x))
  | .factorial => factorialValue x

end Function

def Tree.value (m : Elementary) : Tree → Except EvaluationError Binary64
  | .constant v => .ok v
  | .binary o l r => do
    let x ← l.value m
    let y ← r.value m
    o.apply m x y
  | .unary f t => do
    let x ← t.value m
    f.apply m x

namespace Item

/-- One item on a stack of values; none if the stack has too few. -/
def run (m : Elementary) : Item → List Binary64 → Option (Except EvaluationError (List Binary64))
  | .constant v, stack => some (.ok (v :: stack))
  | .operator o, y :: x :: stack => some ((o.apply m x y).map (· :: stack))
  | .function f, x :: stack => some ((f.apply m x).map (· :: stack))
  | _, _ => none

def runAll (m : Elementary) :
    List Item → List Binary64 → Option (Except EvaluationError (List Binary64))
  | [], stack => some (.ok stack)
  | i :: items, stack =>
    match i.run m stack with
    | some (.ok stack) => runAll m items stack
    | r => r

theorem runAll_postorder_append (m : Elementary) (t : Tree) (items : List Item)
    (stack : List Binary64) :
    runAll m (t.postorder ++ items) stack =
      match t.value m with
      | .error e => some (.error e)
      | .ok v => runAll m items (v :: stack) := by
  induction t generalizing items stack with
  | constant v => rfl
  | binary o l r hl hr =>
    rw [Tree.postorder, List.append_assoc, List.append_assoc, hl, Tree.value]
    cases l.value m with
    | error e => rfl
    | ok x =>
      simp only [hr]
      cases r.value m with
      | error e => rfl
      | ok y => cases h : o.apply m x y <;> simp [runAll, run, h, bind, Except.bind, Except.map]
  | unary f t ht =>
    rw [Tree.postorder, List.append_assoc, ht, Tree.value]
    cases t.value m with
    | error e => rfl
    | ok x => cases h : f.apply m x <;> simp [runAll, run, h, bind, Except.bind, Except.map]

end Item

def evaluate (m : Elementary) (t : Text) : Except Error Binary64 :=
  match Tree.ofText t with
  | .error e => .error (.reading e)
  | .ok tree =>
    match tree.value m with
    | .error e => .error (.evaluation e)
    | .ok v => .ok v

end Reckoner
