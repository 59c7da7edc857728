import Reckoner.Token

set_option autoImplicit false

namespace Reckoner

inductive Tree where
  | constant (value : Binary64)
  | binary (op : Operator) (left right : Tree)
  | unary (f : Function) (operand : Tree)
  deriving DecidableEq

namespace Tree

def height : Tree → Nat
  | .constant _ => 1
  | .binary _ l r => 1 + max l.height r.height
  | .unary _ x => 1 + x.height

theorem height_pos (t : Tree) : 0 < t.height := by
  cases t <;> simp only [height] <;> omega

/-- The same shape with numerically equal constants: `nan` differs from itself, the zeros agree. -/
def alike : Tree → Tree → Bool
  | .constant v, .constant w => v.equal w
  | .binary o l r, .binary p k s => o == p && l.alike k && r.alike s
  | .unary f x, .unary g y => f == g && x.alike y
  | _, _ => false

def parenthesized (t : Text) : Text := '(' :: t ++ [')']

/-- A binary node brings its own parentheses, so a function before it adds none; a factorial
always does. -/
def text : Tree → Text
  | .constant v => v.plain
  | .binary o l r => parenthesized (l.text ++ ' ' :: o.symbol :: ' ' :: r.text)
  | .unary .factorial x => parenthesized x.text ++ ['!']
  | .unary f (.binary o l r) => f.text ++ (Tree.binary o l r).text
  | .unary f x => f.text ++ parenthesized x.text

end Tree

inductive Item where
  | constant (value : Binary64)
  | operator (op : Operator)
  | function (f : Function)
  deriving DecidableEq

namespace Item

def text : Item → Text
  | .constant v => v.plain
  | .operator o => o.text
  | .function f => f.text

end Item

namespace Tree

def postorder : Tree → List Item
  | .constant v => [.constant v]
  | .binary o l r => l.postorder ++ r.postorder ++ [.operator o]
  | .unary f x => x.postorder ++ [.function f]

def grow : List Item → List Tree → Option (List Tree)
  | [], stack => some stack
  | .constant v :: items, stack => grow items (.constant v :: stack)
  | .operator o :: items, r :: l :: stack => grow items (.binary o l r :: stack)
  | .function f :: items, x :: stack => grow items (.unary f x :: stack)
  | _, _ => none

def ofPostorder? (items : List Item) : Option Tree :=
  match grow items [] with
  | some [t] => some t
  | _ => none

theorem grow_postorder_append (t : Tree) (items : List Item) (stack : List Tree) :
    grow (t.postorder ++ items) stack = grow items (t :: stack) := by
  induction t generalizing items stack with
  | constant v => rfl
  | binary o l r hl hr => simp [postorder, hl, hr, grow]
  | unary f x hx => simp [postorder, hx, grow]

theorem ofPostorder?_postorder (t : Tree) : ofPostorder? t.postorder = some t := by
  have h := grow_postorder_append t [] []
  rw [List.append_nil] at h
  simp [ofPostorder?, h, grow]

def inorder : Tree → List Token
  | .constant v => [.number v]
  | .binary o l r => l.inorder ++ .operator o :: r.inorder
  | .unary .factorial x => x.inorder ++ [.bang]
  | .unary f x => .function f :: x.inorder

end Tree
end Reckoner
