import Reckoner.Lexeme
import Reckoner.Tree.Basic

/-!
Trees from tokens. A window of tokens is read once from left to right against a stack of finished
operands: an operator takes the operand before it and the one token or group after it, so windows
fold to the left and no operator binds tighter than another. A group, and the bare operand of a
function, is a window of its own one level deeper.
-/
set_option autoImplicit false

namespace Reckoner

def nestingLimit : Nat := 128

def heightLimit : Nat := 512

structure Operand where
  tree : Tree
  height : Nat
  deriving DecidableEq

namespace Operand

def constant (v : Binary64) : Operand := ⟨.constant v, 1⟩

def binary (o : Operator) (l r : Operand) : Operand :=
  ⟨.binary o l.tree r.tree, 1 + max l.height r.height⟩

def unary (f : Function) (x : Operand) : Operand := ⟨.unary f x.tree, 1 + x.height⟩

def push (x : Operand) (stack : List Operand) : Except ReadingError (List Operand) :=
  if heightLimit < x.height then .error (.tooDeep heightLimit) else .ok (x :: stack)

theorem push_of_le {x : Operand} (h : x.height ≤ heightLimit) (stack : List Operand) :
    x.push stack = .ok (x :: stack) := if_neg (Nat.not_lt.mpr h)

theorem push_of_lt {x : Operand} (h : heightLimit < x.height) (stack : List Operand) :
    x.push stack = .error (.tooDeep heightLimit) := if_pos h

theorem push_eq_ok {x : Operand} {stack s : List Operand} (h : x.push stack = .ok s) :
    s = x :: stack ∧ x.height ≤ heightLimit := by
  by_cases hx : heightLimit < x.height
  · rw [push_of_lt hx] at h; cases h
  · rw [push_of_le (Nat.not_lt.mp hx)] at h
    cases h
    exact ⟨rfl, Nat.not_lt.mp hx⟩

theorem push_eq_error {x : Operand} {stack : List Operand} {e : ReadingError}
    (h : x.push stack = .error e) : e = .tooDeep heightLimit ∧ heightLimit < x.height := by
  by_cases hx : heightLimit < x.height
  · rw [push_of_lt hx] at h
    cases h
    exact ⟨rfl, hx⟩
  · rw [push_of_le (Nat.not_lt.mp hx)] at h; cases h

end Operand

inductive Frame where
  | group
  | right (op : Operator) (left : Operand)
  | argument (f : Function)
  deriving DecidableEq

def Frame.fill (x : Operand) : Frame → Operand
  | .group => x
  | .right o l => .binary o l x
  | .argument f => .unary f x

/-- What the first token of a window asks for, given the operands before it. -/
inductive Move where
  | place (x : Operand) (stack : List Operand) (rest : List Token)
  | enter (window : List Token) (frame : Frame) (stack : List Operand) (rest : List Token)
  deriving DecidableEq

namespace Move

def enterGroup (frame : Frame) (stack : List Operand) (ts : List Token) :
    Except ReadingError Move :=
  match Token.splitAtClosing 0 ts with
  | none => .error .unbalanced
  | some (window, rest) => .ok (.enter window frame stack rest)

def operator (o : Operator) (stack : List Operand) : List Token → Except ReadingError Move
  | [] => .error .missingOperand
  | t :: ts =>
    match stack with
    | [] => .error .missingOperand
    | l :: stack =>
      match t with
      | .number v => .ok (.place (.binary o l (.constant v)) stack ts)
      | .opening => enterGroup (.right o l) stack ts
      | t => .error (.unexpected t)

def function (f : Function) (stack : List Operand) : List Token → Except ReadingError Move
  | [] => .error (if f.takesBare then .missingOperand else .missingParenthesis f)
  | .opening :: ts => enterGroup (.argument f) stack ts
  | t :: ts =>
    if f.takesBare then .ok (.enter [t] (.argument f) stack ts)
    else .error (.missingParenthesis f)

theorem function_of_takesBare {f : Function} (hf : f.takesBare = true) {t : Token}
    (ht : t ≠ .opening) (stack : List Operand) (ts : List Token) :
    function f stack (t :: ts) = .ok (.enter [t] (.argument f) stack ts) := by
  cases t with
  | opening => exact absurd rfl ht
  | _ => exact if_pos hf

theorem function_of_not_takesBare {f : Function} (hf : f.takesBare = false) {t : Token}
    (ht : t ≠ .opening) (stack : List Operand) (ts : List Token) :
    function f stack (t :: ts) = .error (.missingParenthesis f) := by
  cases t with
  | opening => exact absurd rfl ht
  | _ => simp [function, hf]

def first (stack : List Operand) (t : Token) (ts : List Token) : Except ReadingError Move :=
  match t with
  | .number v => .ok (.place (.constant v) stack ts)
  | .operator o => operator o stack ts
  | .opening => enterGroup .group stack ts
  | .closing => .error (.unexpected .closing)
  | .function f => function f stack ts
  | .bang =>
    match stack with
    | [] => .error .missingOperand
    | x :: stack => .ok (.place (.unary .factorial x) stack ts)

def tokens : Move → List Token
  | .place _ _ rest => rest
  | .enter window _ _ rest => window ++ rest

theorem length_enterGroup {frame : Frame} {stack : List Operand} {ts : List Token} {m : Move}
    (h : enterGroup frame stack ts = .ok m) : m.tokens.length < ts.length := by
  unfold enterGroup at h
  split at h
  · cases h
  · next window rest hs =>
    have := Token.length_of_splitAtClosing hs
    cases h
    simp only [tokens, List.length_append] at *
    omega

theorem length_first {stack : List Operand} {t : Token} {ts : List Token} {m : Move}
    (h : first stack t ts = .ok m) : m.tokens.length ≤ ts.length := by
  unfold first at h
  cases t with
  | number v => cases h; simp [tokens]
  | opening => exact Nat.le_of_lt (length_enterGroup h)
  | closing => cases h
  | bang => cases stack <;> cases h; simp [tokens]
  | operator o =>
    cases ts with
    | nil => cases h
    | cons t ts =>
      cases stack with
      | nil => cases h
      | cons l stack =>
        cases t <;> try cases h
        · simp [tokens]
        · exact Nat.le_succ_of_le (Nat.le_of_lt (length_enterGroup h))
  | function f =>
    simp only [function] at h
    split at h
    · cases h
    · exact Nat.le_succ_of_le (Nat.le_of_lt (length_enterGroup h))
    · split at h
      · cases h; simp [tokens]
      · cases h

theorem length_first_enter {stack s : List Operand} {t : Token} {ts window rest : List Token}
    {frame : Frame} (h : first stack t ts = .ok (.enter window frame s rest)) :
    window.length < (t :: ts).length ∧ rest.length < (t :: ts).length := by
  have hl := length_first h
  simp only [tokens, List.length_append, List.length_cons] at *
  omega

end Move

/-- Reads a window to its end. Exactly one operand must be left. -/
def readWindow (depth : Nat) (stack : List Operand) : List Token → Except ReadingError Operand
  | [] =>
    match stack with
    | [x] => .ok x
    | _ => .error .incomplete
  | t :: ts =>
    match h : Move.first stack t ts with
    | .error e => .error e
    | .ok (.place x stack rest) => do
      let stack ← x.push stack
      readWindow depth stack rest
    | .ok (.enter window frame stack rest) =>
      if nestingLimit < depth + 1 then .error (.tooDeep nestingLimit)
      else do
        let x ← readWindow (depth + 1) [] window
        let stack ← (frame.fill x).push stack
        readWindow depth stack rest
termination_by ts => ts.length
decreasing_by
  all_goals
    have := Move.length_first h
    simp only [Move.tokens, List.length_append] at this
    simp only [List.length_cons]
    omega

theorem readWindow_error {stack : List Operand} {t : Token} {ts : List Token} {e : ReadingError}
    (h : Move.first stack t ts = .error e) (depth : Nat) :
    readWindow depth stack (t :: ts) = .error e := by
  rw [readWindow]
  split
  · next he =>
    rw [h] at he
    cases he
    rfl
  · next he => rw [h] at he; cases he
  · next he => rw [h] at he; cases he

theorem readWindow_place {stack s : List Operand} {t : Token} {ts rest : List Token} {x : Operand}
    (h : Move.first stack t ts = .ok (.place x s rest)) (depth : Nat) :
    readWindow depth stack (t :: ts) = x.push s >>= fun s => readWindow depth s rest := by
  rw [readWindow]
  split
  · next he => rw [h] at he; cases he
  · next he =>
    rw [h] at he
    cases he
    rfl
  · next he => rw [h] at he; cases he

theorem readWindow_enter {stack s : List Operand} {t : Token} {ts window rest : List Token}
    {frame : Frame} (h : Move.first stack t ts = .ok (.enter window frame s rest)) {depth : Nat}
    (hd : depth + 1 ≤ nestingLimit) :
    readWindow depth stack (t :: ts) =
      readWindow (depth + 1) [] window >>= fun x =>
        (frame.fill x).push s >>= fun s => readWindow depth s rest := by
  rw [readWindow]
  split
  · next he => rw [h] at he; cases he
  · next he => rw [h] at he; cases he
  · next he =>
    rw [h] at he
    cases he
    exact if_neg (Nat.not_lt.mpr hd)

theorem readWindow_enter_tooDeep {stack s : List Operand} {t : Token} {ts window rest : List Token}
    {frame : Frame} (h : Move.first stack t ts = .ok (.enter window frame s rest)) {depth : Nat}
    (hd : nestingLimit < depth + 1) :
    readWindow depth stack (t :: ts) = .error (.tooDeep nestingLimit) := by
  rw [readWindow]
  split
  · next he => rw [h] at he; cases he
  · next he => rw [h] at he; cases he
  · exact if_pos hd

theorem readWindow_enter_error {stack s : List Operand} {t : Token} {ts window rest : List Token}
    {frame : Frame} (hm : Move.first stack t ts = .ok (.enter window frame s rest)) {depth : Nat}
    (hd : depth + 1 ≤ nestingLimit) {e : ReadingError}
    (h : readWindow (depth + 1) [] window = .error e) :
    readWindow depth stack (t :: ts) = .error e := by
  rw [readWindow_enter hm hd, h]
  rfl

/-- What holds of a lone operand, and of every move if it holds of what the move leaves, holds of
every window that is read. -/
theorem readWindow_induction {motive : Nat → List Operand → List Token → Operand → Prop}
    (done : ∀ depth x, motive depth [x] [] x)
    (place : ∀ depth stack t ts y s rest x, Move.first stack t ts = .ok (.place y s rest) →
      y.height ≤ heightLimit → motive depth (y :: s) rest x → motive depth stack (t :: ts) x)
    (enter : ∀ depth stack t ts window frame s rest z x,
      Move.first stack t ts = .ok (.enter window frame s rest) → depth + 1 ≤ nestingLimit →
      motive (depth + 1) [] window z → (frame.fill z).height ≤ heightLimit →
      motive depth (frame.fill z :: s) rest x → motive depth stack (t :: ts) x)
    {depth : Nat} {stack : List Operand} {ts : List Token} {x : Operand}
    (h : readWindow depth stack ts = .ok x) : motive depth stack ts x := by
  fun_induction readWindow depth stack ts generalizing x with
  | case1 depth y =>
    cases h
    exact done depth y
  | case2 | case3 | case5 => cases h
  | case4 depth stack t ts y s rest hm ih =>
    obtain ⟨s', hp, h⟩ := bind_eq_ok h
    obtain ⟨rfl, hy⟩ := Operand.push_eq_ok hp
    exact place _ _ _ _ _ _ _ _ hm hy (ih _ h)
  | case6 depth stack t ts window frame s rest hm hlimit ihw ih =>
    obtain ⟨z, hw, h⟩ := bind_eq_ok h
    obtain ⟨s', hp, h⟩ := bind_eq_ok h
    obtain ⟨rfl, hy⟩ := Operand.push_eq_ok hp
    exact enter _ _ _ _ _ _ _ _ z _ hm (Nat.not_lt.mp hlimit) (ihw hw) hy (ih _ h)

def Tree.ofTokens (ts : List Token) : Except ReadingError Tree := do
  let x ← readWindow 0 [] ts
  return x.tree

def Tree.ofText (t : Text) : Except ReadingError Tree :=
  match Token.ofText t with
  | .error e => .error (.lexical e)
  | .ok ts => Tree.ofTokens ts

end Reckoner
