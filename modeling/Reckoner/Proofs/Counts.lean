import Mathlib.Algebra.Order.Floor.Semifield
import Mathlib.Data.Rat.Floor
import Reckoner.Binary64.Bits
import Reckoner.Proofs.Factorial

set_option autoImplicit false

namespace Reckoner

theorem unitHalvings_eq : unitHalvings = 1074 := by unfold unitHalvings; rfl

theorem significand_lt (code : Nat) : significand code < 2 ^ 53 := by
  unfold significand; split <;> omega

theorem log2_le_log2 {m n : Nat} (h : m ≤ n) : m.log2 ≤ n.log2 := by
  rcases Nat.eq_zero_or_pos m with rfl | hm
  · simp
  · have hle := Nat.le_trans (Nat.log2_self_le (Nat.ne_of_gt hm)) h
    exact (Nat.le_log2 (by omega)).mpr hle

namespace Magnitude

theorem ofCode?_eq_some {code : Nat} (h : code / 2 ^ 52 < 2047) :
    ∃ m, ofCode? code = some m ∧ m.units = significand code * 2 ^ (code / 2 ^ 52 - 1) := by
  have hlt : significand code * 2 ^ (code / 2 ^ 52 - 1) < ceiling := by
    have hu := unitHalvings_eq
    unfold ceiling
    calc significand code * 2 ^ (code / 2 ^ 52 - 1)
      _ < 2 ^ 53 * 2 ^ (code / 2 ^ 52 - 1) :=
        Nat.mul_lt_mul_of_pos_right (significand_lt code) (Nat.two_pow_pos _)
      _ = 2 ^ (53 + (code / 2 ^ 52 - 1)) := (Nat.pow_add ..).symm
      _ ≤ 2 ^ (1024 + unitHalvings) := Nat.pow_le_pow_right (by decide) (by omega)
  refine ⟨⟨_, hlt, two_pow_dvd_mul_two_pow _ _ (significand_le code)⟩, ?_, rfl⟩
  rw [ofCode?]
  exact dif_pos hlt

theorem ofCode?_eq_none {code : Nat} (h : 2047 ≤ code / 2 ^ 52) : ofCode? code = none := by
  have hle : ceiling ≤ significand code * 2 ^ (code / 2 ^ 52 - 1) := by
    have hu := unitHalvings_eq
    have hs : 2 ^ 52 ≤ significand code := by
      rw [significand, if_neg (by omega)]
      exact Nat.le_add_right _ _
    unfold ceiling
    calc 2 ^ (1024 + unitHalvings)
      _ ≤ 2 ^ (52 + (code / 2 ^ 52 - 1)) := Nat.pow_le_pow_right (by decide) (by omega)
      _ = 2 ^ 52 * 2 ^ (code / 2 ^ 52 - 1) := Nat.pow_add ..
      _ ≤ significand code * 2 ^ (code / 2 ^ 52 - 1) := Nat.mul_le_mul_right _ hs
  rw [ofCode?]
  exact dif_neg (Nat.not_lt.mpr hle)

def whole (m : Magnitude) : Magnitude where
  units := unitsPerOne * (m.units / unitsPerOne)
  representable := by
    have hle : unitsPerOne * (m.units / unitsPerOne) ≤ m.units := Nat.mul_div_le _ _
    obtain ⟨hlt, hdvd⟩ := m.representable
    refine ⟨Nat.lt_of_le_of_lt hle hlt, ?_⟩
    rcases Nat.le_total ((unitsPerOne * (m.units / unitsPerOne)).log2 - 52) unitHalvings with h | h
    · rw [unitsPerOne_eq] at h ⊢
      exact Nat.dvd_mul_right_of_dvd (Nat.pow_dvd_pow 2 h) _
    · -- Every place is before the point already.
      have hlog := log2_le_log2 hle
      have hone : unitsPerOne ∣ m.units := by
        rw [unitsPerOne_eq]
        exact Nat.dvd_trans (Nat.pow_dvd_pow 2 (by omega)) hdvd
      rwa [Nat.mul_div_cancel' hone]

end Magnitude

namespace Binary64

def number? : Binary64 → Option ℚ
  | .finite s m => some (signed s m / unitsPerOne)
  | _ => none

/-- A fraction of 52 bits, to which one is added unless the exponent is the lowest, times a power of
two. -/
def fieldsNumber (exponent fraction : Nat) : ℚ :=
  if exponent = 0 then fraction / 2 ^ 52 * 2 ^ (-1022 : ℤ)
  else (1 + fraction / 2 ^ 52) * 2 ^ ((exponent : ℤ) - 1023)

def patternNumber? (w : UInt64) : Option ℚ :=
  let exponent := w.toNat / 2 ^ 52 % 2 ^ 11
  let magnitude := fieldsNumber exponent (w.toNat % 2 ^ 52)
  if exponent = 2047 then none else some (if 2 ^ 63 ≤ w.toNat then -magnitude else magnitude)

theorem unitsPerOne_cast : (unitsPerOne : ℚ) = 2 ^ (1074 : ℤ) := by
  rw [unitsPerOne_eq, unitHalvings_eq, Nat.cast_pow, Nat.cast_ofNat]
  exact (zpow_natCast 2 1074).symm

theorem fieldsNumber_zero (fraction : Nat) :
    fieldsNumber 0 fraction = (fraction : ℚ) / unitsPerOne := by
  have h : (2 : ℚ) ^ (-1022 : ℤ) = 2 ^ 52 / 2 ^ (1074 : ℤ) := by
    rw [← zpow_natCast 2 52, ← zpow_sub₀ two_ne_zero]
    rfl
  rw [fieldsNumber, if_pos rfl, h, unitsPerOne_cast]
  generalize (2 : ℚ) ^ (1074 : ℤ) = d
  ring

theorem fieldsNumber_succ (e fraction : Nat) :
    fieldsNumber (e + 1) fraction = ((2 ^ 52 + fraction) * 2 ^ e : ℚ) / unitsPerOne := by
  have h : (2 : ℚ) ^ (((e + 1 : ℕ) : ℤ) - 1023) = 2 ^ 52 * 2 ^ e / 2 ^ (1074 : ℤ) := by
    rw [← zpow_natCast 2 e, ← zpow_natCast 2 52, ← zpow_add₀ two_ne_zero, ← zpow_sub₀ two_ne_zero]
    congr 1
    push_cast
    ring
  rw [fieldsNumber, if_neg e.succ_ne_zero, h, unitsPerOne_cast]
  generalize (2 : ℚ) ^ (1074 : ℤ) = d
  ring

theorem number?_finite (s : Bool) (m : Magnitude) : (finite s m).number? =
    some (if s then -(m.units / unitsPerOne : ℚ) else m.units / unitsPerOne) := by
  cases s <;> simp [number?, signed, neg_div]

theorem units_div_of_code {code : Nat} {m : Magnitude}
    (hm : m.units = significand code * 2 ^ (code / 2 ^ 52 - 1)) :
    (m.units : ℚ) / unitsPerOne = fieldsNumber (code / 2 ^ 52) (code % 2 ^ 52) := by
  rw [hm, significand]
  cases he : code / 2 ^ 52 with
  | zero =>
    have hc : code % 2 ^ 52 = code := by omega
    rw [if_pos rfl, fieldsNumber_zero, hc, Nat.zero_sub, Nat.pow_zero, Nat.mul_one]
  | succ e =>
    rw [if_neg e.succ_ne_zero, fieldsNumber_succ, Nat.add_sub_cancel]
    push_cast
    rfl

theorem number?_ofBits (w : UInt64) : (ofBits w).number? = patternNumber? w := by
  have hw := w.toNat_lt
  have he : w.toNat % 2 ^ 63 / 2 ^ 52 = w.toNat / 2 ^ 52 % 2 ^ 11 := by omega
  have hf : w.toNat % 2 ^ 63 % 2 ^ 52 = w.toNat % 2 ^ 52 := by omega
  have hi : infinityCode / 2 ^ 52 = 2047 := by decide
  rw [ofBits, patternNumber?, ← he, ← hf]
  have hcode : w.toNat % 2 ^ 63 / 2 ^ 52 < 2048 := by omega
  generalize w.toNat % 2 ^ 63 = code at *
  by_cases h : code / 2 ^ 52 = 2047
  · rw [if_pos h]
    split
    · rfl
    · rw [Magnitude.ofCode?_eq_none (Nat.le_of_eq h.symm)]
      rfl
  · have hne : code ≠ infinityCode := fun hc => h (hc ▸ hi)
    have hlt : code / 2 ^ 52 < 2047 := by omega
    obtain ⟨m, hm, hu⟩ := Magnitude.ofCode?_eq_some hlt
    rw [if_neg h, if_neg hne, hm, ← units_div_of_code hu]
    simp [number?_finite]

/-- Only the whole part counts, and that of a negative number must be zero. -/
abbrev InRange (s : Bool) (m : Magnitude) : Prop :=
  m.units / unitsPerOne ≤ largestCount ∧ (s = true → m.units / unitsPerOne = 0)

theorem toCount?_finite (s : Bool) (m : Magnitude) :
    (finite s m).toCount? = if InRange s m then some (m.units / unitsPerOne) else none := by
  rw [toCount?, truncated?]
  unfold InRange
  generalize m.units / unitsPerOne = n
  cases s with
  | false => simp
  | true =>
    cases n with
    | zero => simp
    | succ n => exact (if_neg (by simp)).symm

theorem units_div_lt_iff (m : Magnitude) (n : Nat) :
    (m.units / unitsPerOne : ℚ) < n ↔ m.units / unitsPerOne < n := by
  rw [← Nat.floor_lt (by positivity), Nat.floor_div_eq_div]

theorem toCount?_eq_some_iff (x : Binary64) (n : Nat) :
    x.toCount? = some n ↔ ∃ q, x.number? = some q ∧ -1 < q ∧ q < 2 ^ 53 ∧ n = ⌊q⌋₊ := by
  cases x with
  | nan => simp [toCount?, truncated?, number?]
  | infinity s => simp [toCount?, truncated?, number?]
  | finite s m =>
    have hnonneg : (0 : ℚ) ≤ m.units / unitsPerOne := by positivity
    have hone := units_div_lt_iff m 1
    have hlarge := units_div_lt_iff m (2 ^ 53)
    rw [Nat.cast_one] at hone
    rw [Nat.cast_pow, Nat.cast_ofNat] at hlarge
    rw [toCount?_finite, number?_finite]
    unfold InRange largestCount
    simp only [Option.ite_none_right_eq_some, Option.some.injEq, exists_eq_left']
    cases s with
    | false =>
      simp only [Bool.false_eq_true, if_false, false_imp_iff, and_true, hlarge,
        Nat.floor_div_eq_div]
      constructor
      · rintro ⟨hn, rfl⟩
        exact ⟨by linarith, by omega, rfl⟩
      · rintro ⟨-, hn, rfl⟩
        exact ⟨by omega, rfl⟩
    | true =>
      have hfloor : ⌊-(m.units / unitsPerOne : ℚ)⌋₊ = 0 :=
        Nat.floor_of_nonpos (by linarith)
      have hsmall : -(m.units / unitsPerOne : ℚ) < 2 ^ 53 := by
        refine lt_of_le_of_lt (b := 0) (by linarith) (by positivity)
      simp only [if_true, forall_const, hfloor, hsmall, true_and, neg_lt_neg_iff, hone]
      generalize m.units / unitsPerOne = k
      omega

def truncated : Binary64 → Binary64
  | .finite s m => .finite s m.whole
  | x => x

def below (x y : Binary64) : Bool := x.atMost y && !x.equal y

/-- The nearest count of 64 bits to the part before the point, and zero for `nan`. -/
def saturated : Binary64 → UInt64
  | .finite false m => .ofNat (min (m.units / unitsPerOne) (2 ^ 64 - 1))
  | .infinity false => .ofNat (2 ^ 64 - 1)
  | _ => 0

/-- Whether the part before the point is no count: the bounds it is held against are themselves
values. -/
def outOfRange (x : Binary64) : Bool :=
  !x.truncated.isFinite || x.truncated.below zero || (ofNat largestCount).below x.truncated

def checkedCount {ε : Type} (x : Binary64) (error : ε) : Except ε UInt64 :=
  if x.outOfRange then .error error else .ok x.truncated.saturated

theorem equal_finite (s t : Bool) (a b : Magnitude) :
    (finite s a).equal (finite t b) = decide (signed s a = signed t b) := by
  rw [Bool.eq_iff_iff]
  cases s <;> cases t <;> simp [equal, signed] <;> omega

theorem below_finite (s t : Bool) (a b : Magnitude) :
    (finite s a).below (finite t b) = decide (signed s a < signed t b) := by
  rw [below, equal_finite, atMost, Bool.eq_iff_iff]
  simp only [Bool.and_eq_true, Bool.not_eq_true', decide_eq_true_eq, decide_eq_false_iff_not]
  omega

theorem lt_two_pow_of_le_largestCount {n : Nat} (h : n ≤ largestCount) : n < 2 ^ 64 := by
  unfold largestCount at h
  omega

section

variable (s : Bool) (m : Magnitude)

theorem truncated_below_zero : (finite s m).truncated.below zero = true ↔
    s = true ∧ m.units / unitsPerOne ≠ 0 := by
  have hw : 0 < m.whole.units ↔ m.units / unitsPerOne ≠ 0 := by
    rw [Magnitude.whole, Nat.mul_pos_iff_of_pos_left unitsPerOne_pos, Nat.pos_iff_ne_zero]
  rw [truncated, zero, below_finite, decide_eq_true_iff, ← hw]
  cases s <;> simp [signed, Magnitude.zero]

theorem largestCount_below_truncated : (ofNat largestCount).below (finite s m).truncated = true ↔
    s = false ∧ largestCount < m.units / unitsPerOne := by
  have hc : largestCount ≤ 2 ^ 53 := by unfold largestCount; omega
  have hw : unitsPerOne * largestCount < m.whole.units ↔ largestCount < m.units / unitsPerOne :=
    Nat.mul_lt_mul_left unitsPerOne_pos
  rw [truncated, ofNat_eq hc, below_finite, decide_eq_true_iff, ← hw]
  cases s with
  | false => exact Int.ofNat_lt.trans (and_iff_right rfl).symm
  | true =>
    refine iff_of_false ?_ (by simp)
    simp only [signed, if_true, Bool.false_eq_true, if_false]
    omega

theorem outOfRange_finite : (finite s m).outOfRange = true ↔ ¬InRange s m := by
  have hf : (!(finite s m).truncated.isFinite) = false := rfl
  rw [outOfRange, Bool.or_eq_true, Bool.or_eq_true, truncated_below_zero,
    largestCount_below_truncated, hf]
  unfold InRange
  generalize m.units / unitsPerOne = n
  cases s with
  | false => simp
  | true =>
    simp only [Bool.false_eq_true, false_or, Bool.true_eq_false, false_and, or_false, true_and,
      forall_const]
    omega

end

section

variable {s : Bool} {m : Magnitude} (h : InRange s m)
include h

theorem saturated_truncated :
    (finite s m).truncated.saturated = .ofNat (m.units / unitsPerOne) := by
  cases s with
  | false =>
    have hw : m.whole.units / unitsPerOne = m.units / unitsPerOne :=
      Nat.mul_div_cancel_left _ unitsPerOne_pos
    have hlt := lt_two_pow_of_le_largestCount h.1
    rw [truncated, saturated, hw, Nat.min_eq_left (Nat.le_sub_one_of_lt hlt)]
  | true =>
    rw [h.2 rfl]
    rfl

theorem number?_truncated :
    (finite s m).truncated.number? = some ((m.units / unitsPerOne : ℕ) : ℚ) := by
  have hp : (unitsPerOne : ℚ) ≠ 0 := Nat.cast_ne_zero.mpr (Nat.ne_of_gt unitsPerOne_pos)
  have hq : (m.whole.units / unitsPerOne : ℚ) = (m.units / unitsPerOne : ℕ) := by
    rw [Magnitude.whole, Nat.cast_mul]
    exact mul_div_cancel_left₀ _ hp
  rw [truncated, number?_finite, hq]
  cases s with
  | false => rfl
  | true => rw [h.2 rfl, Nat.cast_zero, neg_zero, ite_self]

end

theorem checkedCount_eq {ε : Type} (x : Binary64) (error : ε) :
    x.checkedCount error = x.toCount?.elim (.error error) fun n => .ok (.ofNat n) := by
  cases x with
  | nan => rfl
  | infinity s => rfl
  | finite s m =>
    rw [toCount?_finite, checkedCount]
    by_cases h : InRange s m
    · rw [if_pos h, if_neg (fun ho => (outOfRange_finite s m).mp ho h), saturated_truncated h]
      rfl
    · rw [if_neg h, if_pos ((outOfRange_finite s m).mpr h)]
      rfl

theorem number?_truncated_of_outOfRange {x : Binary64} (h : x.outOfRange = false) :
    x.truncated.number? = some (x.truncated.saturated.toNat : ℚ) := by
  cases x with
  | nan => cases h
  | infinity s => cases h
  | finite s m =>
    rw [← Bool.not_eq_true, outOfRange_finite, not_not] at h
    have hlt := lt_two_pow_of_le_largestCount h.1
    rw [number?_truncated h, saturated_truncated h, UInt64.toNat_ofNat', Nat.mod_eq_of_lt hlt]

theorem toCount?_eq_none_iff (x : Binary64) :
    x.toCount? = none ↔ ∀ q, x.number? = some q → q ≤ -1 ∨ 2 ^ 53 ≤ q := by
  rw [Option.eq_none_iff_forall_ne_some]
  constructor
  · intro h q hq
    refine or_iff_not_and_not.mpr fun hout => h ⌊q⌋₊ ?_
    exact (toCount?_eq_some_iff x _).mpr ⟨q, hq, not_le.mp hout.1, not_le.mp hout.2, rfl⟩
  · intro h n hn
    obtain ⟨q, hq, hlow, hhigh, -⟩ := (toCount?_eq_some_iff x n).mp hn
    rcases h q hq with hq | hq
    · exact absurd hlow (not_lt.mpr hq)
    · exact absurd hhigh (not_lt.mpr hq)

/-- Of every pattern: a count is had exactly from a number between minus one and 2^53, and is then
its whole part, zero for what is not above zero. Any other pattern gives the error. The bounds may
be held against the value itself, and saturation then finds the count as it is. -/
theorem count_ofBits {ε : Type} (w : UInt64) (error : ε) :
    (∀ n, (ofBits w).toCount? = some n ↔
      ∃ q, patternNumber? w = some q ∧ -1 < q ∧ q < 2 ^ 53 ∧ n = ⌊q⌋₊) ∧
    ((ofBits w).toCount? = none ↔ ∀ q, patternNumber? w = some q → q ≤ -1 ∨ 2 ^ 53 ≤ q) ∧
    (ofBits w).checkedCount error =
      (ofBits w).toCount?.elim (.error error) (fun n => .ok (.ofNat n)) ∧
    ((ofBits w).outOfRange = false →
      (ofBits w).truncated.number? = some ((ofBits w).truncated.saturated.toNat : ℚ)) := by
  rw [← number?_ofBits]
  exact ⟨toCount?_eq_some_iff _, toCount?_eq_none_iff _, checkedCount_eq _ error,
    number?_truncated_of_outOfRange⟩

example : (ofBits 0x433FFFFFFFFFFFFF).toCount? = some 9007199254740991 ∧
    (ofBits 0x4340000000000000).toCount? = none ∧
    (ofBits 0xBFEFFFFFFFFFFFFF).toCount? = some 0 ∧
    (ofBits 0xBFF0000000000000).toCount? = none := by decide +kernel

end Binary64
end Reckoner
