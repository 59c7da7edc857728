import Reckoner.Binary64.Decimal

set_option autoImplicit false

namespace Reckoner

inductive Operator where
  | plus
  | minus
  | times
  | over
  | power
  deriving DecidableEq

namespace Operator

def symbol : Operator → Char
  | .plus => '+'
  | .minus => '-'
  | .times => '*'
  | .over => '/'
  | .power => '^'

def all : List Operator := [.plus, .minus, .times, .over, .power]

def ofSymbol? (c : Char) : Option Operator := all.find? (·.symbol == c)

theorem symbol_of_ofSymbol? {c : Char} {o : Operator} (h : ofSymbol? c = some o) :
    o.symbol = c := by
  have h := List.find?_some h
  exact beq_iff_eq.mp h

def text (o : Operator) : Text := [o.symbol]

end Operator

inductive Function where
  | sin
  | cos
  | tan
  | cot
  | ln
  | log
  | sqrt
  | sinh
  | cosh
  | tanh
  | coth
  | sech
  | csch
  | factorial
  deriving DecidableEq

namespace Function

def text : Function → Text
  | .sin => ['s', 'i', 'n']
  | .cos => ['c', 'o', 's']
  | .tan => ['t', 'a', 'n']
  | .cot => ['c', 'o', 't']
  | .ln => ['l', 'n']
  | .log => ['l', 'o', 'g']
  | .sqrt => ['s', 'q', 'r', 't']
  | .sinh => ['s', 'i', 'n', 'h']
  | .cosh => ['c', 'o', 's', 'h']
  | .tanh => ['t', 'a', 'n', 'h']
  | .coth => ['c', 'o', 't', 'h']
  | .sech => ['s', 'e', 'c', 'h']
  | .csch => ['c', 's', 'c', 'h']
  | .factorial => ['!']

def takesBare : Function → Bool
  | .ln | .log | .sqrt => true
  | _ => false

theorem takesBare_iff {f : Function} : f.takesBare = true ↔ f ∈ [.ln, .log, .sqrt] := by
  cases f <;> decide

/-- The functions with names, a longer name before any that it begins with. -/
def named : List Function :=
  [.sinh, .cosh, .tanh, .coth, .sech, .csch, .sqrt, .sin, .cos, .tan, .cot, .log, .ln]

def leading? (t : Text) : Option Function := named.find? (·.text.isPrefixOf t)

def ofText? (t : Text) : Option Function := (.factorial :: named).find? (·.text == t)

@[simp] theorem ofText?_text (f : Function) : ofText? f.text = some f := by cases f <;> rfl

theorem text_length_pos (f : Function) : 0 < f.text.length := by cases f <;> decide

theorem isPrefixOf_of_leading? {t : Text} {f : Function} (h : leading? t = some f) :
    f.text.isPrefixOf t = true := by
  have h := List.find?_some h
  exact h

theorem le_length_of_leading? {t : Text} {f g : Function} (h : leading? t = some f)
    (hg : g ∈ named) (ht : g.text.isPrefixOf t = true) : g.text.length ≤ f.text.length := by
  obtain ⟨_, as, bs, hl, hn⟩ := List.find?_eq_some_iff_append.mp h
  rw [hl, List.mem_append, List.mem_cons] at hg
  have hsorted : named.Pairwise fun f g => g.text.length ≤ f.text.length := by decide
  rw [hl, List.pairwise_append] at hsorted
  rcases hg with hg | rfl | hg
  · simpa [ht] using hn g hg
  · exact Nat.le_refl _
  · exact (List.pairwise_cons.mp hsorted.2.1).1 g hg

end Function

inductive Token where
  | number (value : Binary64)
  | operator (op : Operator)
  | opening
  | closing
  | function (f : Function)
  | bang
  deriving DecidableEq

namespace Token

def text : Token → Text
  | .number v => v.plain
  | .operator o => o.text
  | .opening => ['(']
  | .closing => [')']
  | .function f => f.text
  | .bang => ['!']

def ofSymbol? (c : Char) : Option Token :=
  if c = '(' then some .opening
  else if c = ')' then some .closing
  else if c = '!' then some .bang
  else (Operator.ofSymbol? c).map .operator

def isParenthesis : Token → Bool
  | .opening | .closing => true
  | _ => false

/-- Splits tokens at the first closing parenthesis that neither the tokens before it nor `inner`
further opening ones account for. -/
def splitAtClosing (inner : Nat) : List Token → Option (List Token × List Token)
  | [] => none
  | .opening :: ts => (splitAtClosing (inner + 1) ts).map fun p => (.opening :: p.1, p.2)
  | .closing :: ts =>
    match inner with
    | 0 => some ([], ts)
    | inner + 1 => (splitAtClosing inner ts).map fun p => (.closing :: p.1, p.2)
  | t :: ts => (splitAtClosing inner ts).map fun p => (t :: p.1, p.2)

theorem eq_append_of_splitAtClosing {inner : Nat} {ts : List Token} {p : List Token × List Token}
    (h : splitAtClosing inner ts = some p) : ts = p.1 ++ .closing :: p.2 := by
  induction ts generalizing inner p with
  | nil => simp [splitAtClosing] at h
  | cons t ts ih =>
    cases t with
    | closing =>
      cases inner with
      | zero =>
        simp only [splitAtClosing, Option.some.injEq] at h
        subst h; rfl
      | succ n =>
        simp only [splitAtClosing, Option.map_eq_some_iff] at h
        obtain ⟨q, hq, rfl⟩ := h
        simp [ih hq]
    | _ =>
      simp only [splitAtClosing, Option.map_eq_some_iff] at h
      obtain ⟨q, hq, rfl⟩ := h
      simp [ih hq]

theorem length_of_splitAtClosing {inner : Nat} {ts : List Token} {p : List Token × List Token}
    (h : splitAtClosing inner ts = some p) : p.1.length + p.2.length + 1 = ts.length := by
  rw [eq_append_of_splitAtClosing h]; simp; omega

def closingFrom? (ts : List Token) (first : Nat) : Option Nat :=
  (splitAtClosing 0 (ts.drop first)).map fun p => first + p.1.length

/-- The same for a group that is opened at `start`; the token there is not looked at. Indices have
64 bits, and behind the last of them comes zero. -/
def closingIndex? (ts : List Token) (start : Nat) : Option Nat :=
  closingFrom? ts ((start + 1) % 2 ^ 64)

theorem closingIndex?_of_lt {start : Nat} (h : start + 1 < 2 ^ 64) (ts : List Token) :
    closingIndex? ts start = closingFrom? ts (start + 1) := by
  rw [closingIndex?, Nat.mod_eq_of_lt h]

end Token
end Reckoner
