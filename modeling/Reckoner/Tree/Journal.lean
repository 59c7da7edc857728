import Reckoner.Event
import Reckoner.Tree.Value

/-!
Building and evaluating with an account of the steps. Main statements: the account changes no
outcome.
-/
set_option autoImplicit false

namespace Reckoner

/-- Reads a window as `readWindow` does. Positions count the tokens of the window. -/
def windowJournal (depth position : Nat) (stack : List Operand) :
    List Token → List Event × Except ReadingError Operand
  | [] =>
    match stack with
    | [x] => ([], .ok x)
    | _ => ([], .error .incomplete)
  | t :: ts =>
    let seen := Event.consuming t position depth
    match _hm : Move.first stack t ts with
    | .error e => ([seen], .error e)
    | .ok (.place x stack rest) =>
      match x.push stack with
      | .error e => ([seen], .error e)
      | .ok stack =>
        let later := windowJournal depth (position + (ts.length + 1 - rest.length)) stack rest
        (seen :: .stacked stack.length :: later.1, later.2)
    | .ok (.enter window frame stack rest) =>
      if nestingLimit < depth + 1 then ([seen], .error (.tooDeep nestingLimit))
      else
        let inner := windowJournal (depth + 1) 0 [] window
        match inner.2 with
        | .error e => (seen :: inner.1, .error e)
        | .ok x =>
          match (frame.fill x).push stack with
          | .error e => (seen :: inner.1, .error e)
          | .ok stack =>
            let later := windowJournal depth (position + (ts.length + 1 - rest.length)) stack rest
            (seen :: inner.1 ++ .stacked stack.length :: later.1, later.2)
termination_by ts => ts.length
decreasing_by
  all_goals
    have := Move.length_first _hm
    simp only [Move.tokens, List.length_append] at this
    simp only [List.length_cons]
    omega

section

variable {stack s : List Operand} {t : Token} {ts rest : List Token}

theorem windowJournal_error {e : ReadingError} (h : Move.first stack t ts = .error e)
    (depth position : Nat) :
    windowJournal depth position stack (t :: ts) = ([.consuming t position depth], .error e) := by
  rw [windowJournal]
  split
  · next he =>
    rw [h] at he
    cases he
    rfl
  · next he => rw [h] at he; cases he
  · next he => rw [h] at he; cases he

theorem windowJournal_place {x : Operand} (h : Move.first stack t ts = .ok (.place x s rest))
    (depth position : Nat) :
    windowJournal depth position stack (t :: ts) =
      match x.push s with
      | .error e => ([.consuming t position depth], .error e)
      | .ok s =>
        let later := windowJournal depth (position + (ts.length + 1 - rest.length)) s rest
        (.consuming t position depth :: .stacked s.length :: later.1, later.2) := by
  rw [windowJournal]
  split
  · next he => rw [h] at he; cases he
  · next he =>
    rw [h] at he
    cases he
    rfl
  · next he => rw [h] at he; cases he

variable {window : List Token} {frame : Frame} {depth : Nat}

theorem windowJournal_enter (h : Move.first stack t ts = .ok (.enter window frame s rest))
    (hd : depth + 1 ≤ nestingLimit) (position : Nat) :
    windowJournal depth position stack (t :: ts) =
      let seen := Event.consuming t position depth
      let inner := windowJournal (depth + 1) 0 [] window
      match inner.2 with
      | .error e => (seen :: inner.1, .error e)
      | .ok x =>
        match (frame.fill x).push s with
        | .error e => (seen :: inner.1, .error e)
        | .ok s =>
          let later := windowJournal depth (position + (ts.length + 1 - rest.length)) s rest
          (seen :: inner.1 ++ .stacked s.length :: later.1, later.2) := by
  rw [windowJournal]
  split
  · next he => rw [h] at he; cases he
  · next he => rw [h] at he; cases he
  · next he =>
    rw [h] at he
    cases he
    exact if_neg (Nat.not_lt.mpr hd)

theorem windowJournal_enter_tooDeep (h : Move.first stack t ts = .ok (.enter window frame s rest))
    (hd : nestingLimit < depth + 1) (position : Nat) :
    windowJournal depth position stack (t :: ts) =
      ([.consuming t position depth], .error (.tooDeep nestingLimit)) := by
  rw [windowJournal]
  split
  · next he => rw [h] at he; cases he
  · next he => rw [h] at he; cases he
  · exact if_pos hd

end

theorem windowJournal_outcome (depth position : Nat) (stack : List Operand) (ts : List Token) :
    (windowJournal depth position stack ts).2 = readWindow depth stack ts := by
  fun_induction readWindow depth stack ts generalizing position with
  | case1 depth x => rw [windowJournal]
  | case2 depth stack hne =>
    rw [windowJournal]
    exact hne
  | case3 depth stack t ts e hm => rw [windowJournal_error hm]
  | case4 depth stack t ts x s rest hm ih =>
    rw [windowJournal_place hm]
    cases x.push s with
    | error e => rfl
    | ok s => exact ih s _
  | case5 depth stack t ts window frame s rest hm hd => rw [windowJournal_enter_tooDeep hm hd]
  | case6 depth stack t ts window frame s rest hm hd ihw ih =>
    rw [windowJournal_enter hm (Nat.not_lt.mp hd)]
    simp only [ihw 0, bind, Except.bind]
    cases readWindow (depth + 1) [] window with
    | error e => rfl
    | ok x =>
      dsimp only
      cases (frame.fill x).push s with
      | error e => rfl
      | ok s => exact ih s _

namespace Tree

def buildingEvents (ts : List Token) : List Event := (windowJournal 0 0 [] ts).1

def valueJournal (m : Elementary) : Tree → List Event × Except EvaluationError Binary64
  | .constant v => ([], .ok v)
  | .binary o l r =>
    let left := l.valueJournal m
    match left.2 with
    | .error e => (left.1, .error e)
    | .ok x =>
      let right := r.valueJournal m
      match right.2 with
      | .error e => (left.1 ++ right.1, .error e)
      | .ok y =>
        match o.apply m x y with
        | .error e => (left.1 ++ right.1, .error e)
        | .ok v => (left.1 ++ right.1 ++ [.combined o x y v], .ok v)
  | .unary f t =>
    let operand := t.valueJournal m
    match operand.2 with
    | .error e => (operand.1, .error e)
    | .ok x =>
      match f.apply m x with
      | .error e => (operand.1, .error e)
      | .ok v => (operand.1 ++ [.applied f x v], .ok v)

theorem valueJournal_outcome (m : Elementary) (t : Tree) : (t.valueJournal m).2 = t.value m := by
  induction t with
  | constant v => rfl
  | binary o l r hl hr =>
    simp only [valueJournal, value, hl, hr]
    cases l.value m with
    | error e => rfl
    | ok x =>
      cases r.value m with
      | error e => rfl
      | ok y => cases h : o.apply m x y <;> simp [bind, Except.bind, h]
  | unary f t ht =>
    simp only [valueJournal, value, ht]
    cases t.value m with
    | error e => rfl
    | ok x => cases h : f.apply m x <;> simp [bind, Except.bind, h]

def valueEvents (m : Elementary) (t : Tree) : List Event := (t.valueJournal m).1

end Tree
end Reckoner
