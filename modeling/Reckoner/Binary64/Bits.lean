import Reckoner.Binary64.Basic

set_option autoImplicit false

namespace Reckoner

/-- The magnitudes in increasing order are numbered by the low 63 bits of their interchange form. -/
def Magnitude.code (m : Magnitude) : Nat :=
  let q := m.units.log2 - 52
  2 ^ 52 * q + m.units / 2 ^ q

def significand (code : Nat) : Nat :=
  if code / 2 ^ 52 = 0 then code else 2 ^ 52 + code % 2 ^ 52

theorem significand_le (code : Nat) : significand code ≤ 2 ^ 53 := by
  unfold significand; split <;> omega

def Magnitude.ofCode? (code : Nat) : Option Magnitude :=
  let u := significand code * 2 ^ (code / 2 ^ 52 - 1)
  if h : u < ceiling then some ⟨u, h, two_pow_dvd_mul_two_pow _ _ (significand_le code)⟩ else none

namespace Binary64

def infinityCode : Nat := 2047 * 2 ^ 52

def ofBits (w : UInt64) : Binary64 :=
  let negative := decide (2 ^ 63 ≤ w.toNat)
  let code := w.toNat % 2 ^ 63
  if code = infinityCode then .infinity negative
  else match Magnitude.ofCode? code with
    | some m => .finite negative m
    | none => .nan

def signBit (negative : Bool) : Nat := if negative then 2 ^ 63 else 0

def toBits : Binary64 → UInt64
  | .finite s m => UInt64.ofNat (signBit s + m.code)
  | .infinity s => UInt64.ofNat (signBit s + infinityCode)
  | .nan => UInt64.ofNat (infinityCode + 2 ^ 51)

end Binary64

structure Elementary where
  sin : Binary64 → Binary64
  cos : Binary64 → Binary64
  tan : Binary64 → Binary64
  ln : Binary64 → Binary64
  log10 : Binary64 → Binary64
  sinh : Binary64 → Binary64
  cosh : Binary64 → Binary64
  tanh : Binary64 → Binary64
  pow : Binary64 → Binary64 → Binary64

namespace Binary64

def toFloat (x : Binary64) : Float := Float.ofBits x.toBits

def ofFloat (x : Float) : Binary64 := ofBits x.toBits

end Binary64

open Binary64

def Elementary.machine : Elementary where
  sin x := ofFloat x.toFloat.sin
  cos x := ofFloat x.toFloat.cos
  tan x := ofFloat x.toFloat.tan
  ln x := ofFloat x.toFloat.log
  log10 x := ofFloat x.toFloat.log10
  sinh x := ofFloat x.toFloat.sinh
  cosh x := ofFloat x.toFloat.cosh
  tanh x := ofFloat x.toFloat.tanh
  pow x y := ofFloat (x.toFloat.pow y.toFloat)

end Reckoner
