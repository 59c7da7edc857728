import Reckoner.Binary64.Basic
import Reckoner.Text

set_option autoImplicit false

namespace Reckoner

/-- The number `coefficient / 10 ^ scale`. -/
structure Decimal where
  coefficient : Nat
  scale : Nat
  deriving DecidableEq

namespace Decimal

def magnitude? (d : Decimal) : Option Magnitude :=
  Magnitude.round? (unitsPerOne * d.coefficient) (10 ^ d.scale)

def isNumeralChar (c : Char) : Bool := c.isDigit || c == '.'

/-- Reads a text of digits and points: at least one digit, at most one point. -/
def ofNumeral? (t : Text) : Option Decimal :=
  let whole := t.takeWhile (· != '.')
  let fraction := (t.dropWhile (· != '.')).drop 1
  if (whole.isEmpty && fraction.isEmpty) || fraction.contains '.' then none
  else some ⟨Nat.ofDigitChars 10 (whole ++ fraction) 0, fraction.length⟩

def padded (width n : Nat) : Text :=
  List.replicate (width - (Text.ofNat n).length) '0' ++ Text.ofNat n

def dropFinalZeros (t : Text) : Text := t.dropEndWhile (· == '0')

def wholePart (d : Decimal) : Text := Text.ofNat (d.coefficient / 10 ^ d.scale)

def fractionPart (d : Decimal) : Text :=
  dropFinalZeros (padded d.scale (d.coefficient % 10 ^ d.scale))

/-- All digits in their places, and a point only if a nonzero digit follows it. -/
def plain (d : Decimal) : Text :=
  match d.fractionPart with
  | [] => d.wholePart
  | fraction => d.wholePart ++ '.' :: fraction

def leadingExponent (d : Decimal) : Int :=
  (Text.ofNat d.coefficient).length - 1 - d.scale

def scientific (d : Decimal) : Text :=
  let exponent := d.leadingExponent
  let power := 'e' :: (if exponent < 0 then ['-'] else []) ++ Text.ofNat exponent.natAbs
  match dropFinalZeros (Text.ofNat d.coefficient) with
  | [] => '0' :: power
  | [c] => c :: power
  | c :: cs => c :: '.' :: cs ++ power

end Decimal

def Binary64.ofDecimal (negative : Bool) (d : Decimal) : Binary64 :=
  ofRatio negative (unitsPerOne * d.coefficient) (10 ^ d.scale)

/-- The value counted in units of its last possible place: each halving of one takes a further
place, so nothing is lost. -/
def Magnitude.lastPlaces (m : Magnitude) : Nat := 5 ^ unitHalvings * m.units

/-- That many steps of ten to the `power`, counted in units of the last possible place. -/
def Decimal.ofSteps (steps power : Nat) : Decimal :=
  if power ≤ unitHalvings then ⟨steps, unitHalvings - power⟩
  else ⟨steps * 10 ^ (power - unitHalvings), 0⟩

def Decimal.readsAs (d : Decimal) (m : Magnitude) : Bool := d.magnitude? == some m

/-- Of the two neighbours on a decimal grid, one that reads back: the nearer if both do, and
upward from halfway. -/
def Magnitude.neighbour? (m : Magnitude) (power : Nat) : Option Decimal :=
  let steps := m.lastPlaces / 10 ^ power
  let remainder := m.lastPlaces % 10 ^ power
  let below := Decimal.ofSteps steps power
  let above := Decimal.ofSteps (steps + 1) power
  if below.readsAs m then
    if above.readsAs m && decide (10 ^ power ≤ 2 * remainder) then some above else some below
  else if above.readsAs m then some above else none

/-- The first answer on the way down from `n` to one, or else the default. -/
def firstBelow {α : Type} (answer? : Nat → Option α) (default : α) : Nat → α
  | 0 => default
  | n + 1 =>
    match answer? (n + 1) with
    | some a => a
    | none => firstBelow answer? default n

theorem firstBelow_induction {α : Type} (p : α → Prop) (answer? : Nat → Option α) (default : α)
    (ha : ∀ n a, answer? n = some a → p a) (hd : p default) (n : Nat) :
    p (firstBelow answer? default n) := by
  induction n with
  | zero => exact hd
  | succ n ih =>
    rw [firstBelow]
    split
    · next a h => exact ha _ a h
    · exact ih

/-- At least the number of decimal digits of `n`, for 2^93 is below 10^28. -/
def digitBound (n : Nat) : Nat := (n.log2 + 1) * 28 / 93 + 1

def Magnitude.shortest (m : Magnitude) : Decimal :=
  firstBelow m.neighbour? (Decimal.ofSteps m.lastPlaces 0) (digitBound m.lastPlaces)

theorem Magnitude.readsAs_of_neighbour? (m : Magnitude) (power : Nat) (d : Decimal)
    (h : m.neighbour? power = some d) : d.readsAs m = true := by
  unfold neighbour? at h
  dsimp only at h
  split at h
  · next hb =>
    split at h
    · next ha =>
      rw [Bool.and_eq_true] at ha
      exact Option.some.inj h ▸ ha.1
    · exact Option.some.inj h ▸ hb
  · split at h
    · next ha => exact Option.some.inj h ▸ ha
    · cases h

theorem Magnitude.readsAs_lastPlaces (m : Magnitude) :
    (Decimal.ofSteps m.lastPlaces 0).readsAs m = true := by
  have h : unitsPerOne * m.lastPlaces = m.units * 10 ^ unitHalvings := by
    rw [lastPlaces, ← Nat.mul_assoc, unitsPerOne_eq, ← Nat.mul_pow, Nat.mul_comm]
  have hr := Magnitude.round?_mul m (10 ^ unitHalvings) (Nat.pow_pos (by decide))
  rw [← h] at hr
  rw [Decimal.readsAs, Decimal.ofSteps, if_pos (Nat.zero_le _), Decimal.magnitude?]
  exact beq_iff_eq.mpr hr

theorem Magnitude.shortest_magnitude? (m : Magnitude) : m.shortest.magnitude? = some m :=
  beq_iff_eq.mp <| firstBelow_induction (fun d => d.readsAs m = true) _ _
    (fun _ _ h => m.readsAs_of_neighbour? _ _ h) m.readsAs_lastPlaces _

namespace Binary64

def sign (negative : Bool) : Text := if negative then ['-'] else []

def infinityText (negative : Bool) : Text := sign negative ++ ['i', 'n', 'f']

def nanText : Text := ['N', 'a', 'N']

def plain : Binary64 → Text
  | .finite s m => sign s ++ m.shortest.plain
  | .infinity s => infinityText s
  | .nan => nanText

def isExtreme (m : Magnitude) : Bool :=
  m.units != 0 && (decide (10 ^ 4 * m.units < unitsPerOne) ||
    decide (10 ^ 16 * unitsPerOne ≤ m.units))

def logged : Binary64 → Text
  | .finite s m =>
    let d := m.shortest
    if isExtreme m then sign s ++ d.scientific
    else if d.fractionPart.isEmpty then sign s ++ d.plain ++ ['.', '0']
    else sign s ++ d.plain
  | .infinity s => infinityText s
  | .nan => nanText

end Binary64
end Reckoner
