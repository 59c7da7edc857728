import Reckoner.Binary64.Magnitude

/-!
The values a calculation works with: signed magnitudes with two zeros, two infinities, and a
single value for everything that is not a number. Each operation is computed exactly on whole
numbers of units and rounded once.
-/
set_option autoImplicit false

namespace Reckoner

inductive Binary64 where
  | finite (negative : Bool) (magnitude : Magnitude)
  | infinity (negative : Bool)
  | nan
  deriving DecidableEq

namespace Binary64

def zero : Binary64 := .finite false Magnitude.zero

/-- The value nearest to `n / d` units with the given sign; past the ceiling, an infinity. -/
def ofRatio (negative : Bool) (n d : Nat) : Binary64 :=
  match Magnitude.round? n d with
  | some m => .finite negative m
  | none => .infinity negative

theorem ofRatio_mul (negative : Bool) (a : Magnitude) (d : Nat) (hd : 0 < d) :
    ofRatio negative (a.units * d) d = .finite negative a := by
  rw [ofRatio, Magnitude.round?_mul a d hd]

def ofNat (n : Nat) : Binary64 := ofRatio false (unitsPerOne * n) 1

def one : Binary64 := ofNat 1

def neg : Binary64 → Binary64
  | .finite s m => .finite (!s) m
  | .infinity s => .infinity (!s)
  | .nan => .nan

def isFinite : Binary64 → Bool
  | .finite _ _ => true
  | _ => false

def isZero : Binary64 → Bool
  | .finite _ m => m.units == 0
  | _ => false

def isBelowZero : Binary64 → Bool
  | .finite s m => s && m.units != 0
  | .infinity s => s
  | .nan => false

/-- Numerical equality: the two zeros are equal, and `nan` equals nothing. -/
def equal : Binary64 → Binary64 → Bool
  | .finite s a, .finite t b => a.units == b.units && (s == t || a.units == 0)
  | .infinity s, .infinity t => s == t
  | _, _ => false

def signed (negative : Bool) (m : Magnitude) : Int :=
  if negative then -(m.units : Int) else m.units

/-- A sum that vanishes is negative only if both of its terms are. -/
def add : Binary64 → Binary64 → Binary64
  | .nan, _ | _, .nan => .nan
  | .infinity s, .infinity t => if s = t then .infinity s else .nan
  | .infinity s, .finite _ _ => .infinity s
  | .finite _ _, .infinity t => .infinity t
  | .finite s a, .finite t b =>
    let sum := signed s a + signed t b
    if sum = 0 then .finite (s && t) Magnitude.zero else ofRatio (decide (sum < 0)) sum.natAbs 1

def sub (x y : Binary64) : Binary64 := x.add y.neg

def mul : Binary64 → Binary64 → Binary64
  | .nan, _ | _, .nan => .nan
  | .infinity s, .infinity t => .infinity (s != t)
  | .infinity s, .finite t b => if b.units = 0 then .nan else .infinity (s != t)
  | .finite s a, .infinity t => if a.units = 0 then .nan else .infinity (s != t)
  | .finite s a, .finite t b => ofRatio (s != t) (a.units * b.units) unitsPerOne

def div : Binary64 → Binary64 → Binary64
  | .nan, _ | _, .nan => .nan
  | .infinity _, .infinity _ => .nan
  | .infinity s, .finite t _ => .infinity (s != t)
  | .finite s _, .infinity t => .finite (s != t) Magnitude.zero
  | .finite s a, .finite t b =>
    if b.units = 0 then
      if a.units = 0 then .nan else .infinity (s != t)
    else ofRatio (s != t) (unitsPerOne * a.units) b.units

/-- The root of a nonzero magnitude has more than 53 bits before the point, so a half stands for
any fraction. -/
def sqrt : Binary64 → Binary64
  | .nan => .nan
  | .infinity s => if s then .nan else .infinity false
  | .finite s m =>
    if m.units = 0 then .finite s m
    else if s then .nan
    else
      let square := unitsPerOne * m.units
      let root := square.sqrt
      ofRatio false (2 * root + if root * root = square then 0 else 1) 2

def truncated? : Binary64 → Option Int
  | .finite s m =>
    let whole := m.units / unitsPerOne
    some (if s then -(whole : Int) else whole)
  | _ => none

/-- Up to here every count and its successor are exact. -/
def largestCount : Nat := 2 ^ 53 - 1

def toCount? (x : Binary64) : Option Nat :=
  match x.truncated? with
  | some (.ofNat n) => if n ≤ largestCount then some n else none
  | _ => none

def truncatesBelowZero : Binary64 → Bool
  | .infinity s => s
  | x => match x.truncated? with
    | some k => decide (k < 0)
    | none => false

/-- One times 2 · 3 · … · n, from the left. -/
def productUpTo (n : Nat) : Binary64 :=
  (List.range' 2 (n - 1)).foldl (fun product k => product.mul (ofNat k)) one

end Binary64
end Reckoner
