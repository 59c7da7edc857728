import Mathlib.Data.Nat.Factorial.Basic
import Reckoner.Tree.Value
import Reckoner.Proofs.Numerals

set_option autoImplicit false

namespace Reckoner

theorem roundHalfEven_error (n : Nat) {d : Nat} (hd : 0 < d) :
    2 * (roundHalfEven n d * d) ≤ 2 * n + d ∧ 2 * n ≤ 2 * (roundHalfEven n d * d) + d := by
  have hn := Nat.div_add_mod n d
  have hr := Nat.mod_lt n hd
  rw [Nat.mul_comm] at hn
  unfold roundHalfEven
  split
  · omega
  · rw [Nat.add_mul]
    omega

theorem two_pow_spacing {n d : Nat} (h : 52 ≤ (n / d).log2) :
    2 ^ 52 * 2 ^ spacing n d = 2 ^ (n / d).log2 := by
  rw [← Nat.pow_add, spacing, Nat.add_sub_cancel' h]

/-- With all 53 bits in use, rounding is off by one part in 2^53 at most. -/
theorem roundUnits_error {n d : Nat} (hd : 0 < d) (h : 2 ^ 52 ≤ n / d) :
    2 ^ 53 * (roundUnits n d * d) ≤ (2 ^ 53 + 1) * n ∧
      (2 ^ 53 - 1) * n ≤ 2 ^ 53 * (roundUnits n d * d) := by
  have hq : n / d ≠ 0 := by omega
  have hs : 2 ^ 52 * 2 ^ spacing n d ≤ n / d :=
    two_pow_spacing ((Nat.le_log2 hq).mpr h) ▸ Nat.log2_self_le hq
  have hD : 2 ^ 52 * (d * 2 ^ spacing n d) ≤ n := by
    rw [Nat.mul_comm d, ← Nat.mul_assoc]
    exact (Nat.le_div_iff_mul_le hd).mp hs
  have he := roundHalfEven_error n (Nat.mul_pos hd (Nat.two_pow_pos (spacing n d)))
  have hu : roundUnits n d * d =
      roundHalfEven n (d * 2 ^ spacing n d) * (d * 2 ^ spacing n d) := by
    rw [roundUnits, Nat.mul_assoc, Nat.mul_comm d]
  rw [hu]
  omega

/-- The running product in units, as if there were no ceiling. -/
def productUnits : Nat → Nat
  | 0 => unitsPerOne
  | n + 1 => roundUnits (productUnits n * (n + 1)) 1

theorem two_pow_le_roundUnits {n k : Nat} (hk : 52 ≤ k) (h : 2 ^ k ≤ n) :
    2 ^ k ≤ roundUnits n 1 := by
  have hn : n ≠ 0 := Nat.ne_of_gt (Nat.lt_of_lt_of_le (Nat.two_pow_pos k) h)
  have hq : 2 ^ 52 ≤ n / 1 := by
    rw [Nat.div_one]
    exact Nat.le_trans (Nat.pow_le_pow_right (by decide) hk) h
  have hr := two_pow_log2_le_roundUnits hq
  rw [Nat.div_one] at hr
  exact Nat.le_trans (Nat.pow_le_pow_right (by decide) ((Nat.le_log2 hn).mpr h)) hr

theorem two_pow_le_productUnits_succ {n k : Nat} (hk : 52 ≤ k) (h : 2 ^ k ≤ productUnits n) :
    2 ^ k ≤ productUnits (n + 1) :=
  two_pow_le_roundUnits hk (Nat.le_trans h (Nat.le_mul_of_pos_right _ n.succ_pos))

theorem two_pow_le_productUnits {m n k : Nat} (hk : 52 ≤ k) (hmn : m ≤ n)
    (h : 2 ^ k ≤ productUnits m) : 2 ^ k ≤ productUnits n := by
  induction n, hmn using Nat.le_induction with
  | base => exact h
  | succ n _ ih => exact two_pow_le_productUnits_succ hk ih

theorem two_pow_le_unitsPerOne : 2 ^ 52 ≤ unitsPerOne := by
  have h : 52 ≤ unitHalvings := by unfold unitHalvings; decide
  rw [unitsPerOne_eq]
  exact Nat.pow_le_pow_right (by decide) h

theorem two_pow_52_le_productUnits (n : Nat) : 2 ^ 52 ≤ productUnits n :=
  two_pow_le_productUnits (Nat.le_refl 52) n.zero_le two_pow_le_unitsPerOne

theorem pow_succ_mul_le {p q u v f k n : Nat} (hv : p * v ≤ q * (u * k))
    (hu : p ^ n * u ≤ q ^ n * f) : p ^ (n + 1) * v ≤ q ^ (n + 1) * (f * k) :=
  calc p ^ (n + 1) * v = p ^ n * (p * v) := by rw [Nat.pow_succ, Nat.mul_assoc]
    _ ≤ p ^ n * (q * (u * k)) := Nat.mul_le_mul_left _ hv
    _ = p ^ n * u * (q * k) := by ac_rfl
    _ ≤ q ^ n * f * (q * k) := Nat.mul_le_mul_right _ hu
    _ = q ^ (n + 1) * (f * k) := by rw [Nat.pow_succ]; ac_rfl

theorem le_pow_succ_mul {p q u v f k n : Nat} (hv : q * (u * k) ≤ p * v)
    (hu : q ^ n * f ≤ p ^ n * u) : q ^ (n + 1) * (f * k) ≤ p ^ (n + 1) * v :=
  calc q ^ (n + 1) * (f * k) = q ^ n * f * (q * k) := by rw [Nat.pow_succ]; ac_rfl
    _ ≤ p ^ n * u * (q * k) := Nat.mul_le_mul_right _ hu
    _ = p ^ n * (q * (u * k)) := by ac_rfl
    _ ≤ p ^ n * (p * v) := Nat.mul_le_mul_left _ hv
    _ = p ^ (n + 1) * v := by rw [Nat.pow_succ, Nat.mul_assoc]

/-- Each of the `n` factors adds its own rounding to those before it. -/
theorem productUnits_error (n : Nat) :
    (2 ^ 53) ^ n * productUnits n ≤ (2 ^ 53 + 1) ^ n * (unitsPerOne * n.factorial) ∧
      (2 ^ 53 - 1) ^ n * (unitsPerOne * n.factorial) ≤ (2 ^ 53) ^ n * productUnits n := by
  induction n with
  | zero => simp [productUnits]
  | succ n ih =>
    have hq : 2 ^ 52 ≤ productUnits n * (n + 1) / 1 := by
      rw [Nat.div_one]
      exact Nat.le_trans (two_pow_52_le_productUnits n) (Nat.le_mul_of_pos_right _ n.succ_pos)
    have he := roundUnits_error Nat.one_pos hq
    have hf : unitsPerOne * (n + 1).factorial = unitsPerOne * n.factorial * (n + 1) := by
      rw [Nat.factorial_succ, Nat.mul_assoc, Nat.mul_comm (n + 1)]
    rw [Nat.mul_one] at he
    rw [hf, productUnits]
    exact ⟨pow_succ_mul_le he.1 ih.1, le_pow_succ_mul he.2 ih.2⟩

theorem lt_two_pow_of_error {b q n u f e : Nat} (hu : b ^ n * u ≤ q ^ n * (unitsPerOne * f))
    (h : q ^ n * f < b ^ n * 2 ^ e) : u < 2 ^ (e + unitHalvings) := by
  refine Nat.lt_of_mul_lt_mul_left (a := b ^ n) (Nat.lt_of_le_of_lt hu ?_)
  rw [Nat.pow_add, ← unitsPerOne_eq, Nat.mul_comm unitsPerOne, ← Nat.mul_assoc, ← Nat.mul_assoc]
  exact Nat.mul_lt_mul_of_pos_right h unitsPerOne_pos

theorem two_pow_le_of_error {b q n u f e : Nat} (hb : 0 < b)
    (hu : q ^ n * (unitsPerOne * f) ≤ b ^ n * u) (h : b ^ n * 2 ^ e ≤ q ^ n * f) :
    2 ^ (e + unitHalvings) ≤ u := by
  refine Nat.le_of_mul_le_mul_left (Nat.le_trans ?_ hu) (Nat.pow_pos (n := n) hb)
  rw [Nat.pow_add, ← unitsPerOne_eq, Nat.mul_comm unitsPerOne, ← Nat.mul_assoc, ← Nat.mul_assoc]
  exact Nat.mul_le_mul_right _ h

/-- The errors of 170 roundings are far from making up for what `170!` lacks. -/
theorem productUnits_lt_ceiling {n : Nat} (h : n ≤ 170) : productUnits n < ceiling := by
  -- What is decided compares powers of two with `170!`; no rounded product is evaluated.
  have hlast : productUnits 170 < ceiling := by
    unfold ceiling
    exact lt_two_pow_of_error (productUnits_error 170).1 (by decide +kernel)
  refine Nat.lt_of_not_le fun hn => absurd hlast (Nat.not_lt.mpr ?_)
  unfold ceiling at hn ⊢
  exact two_pow_le_productUnits (by omega) h hn

theorem ceiling_le_productUnits {n : Nat} (h : 171 ≤ n) : ceiling ≤ productUnits n := by
  unfold ceiling
  refine two_pow_le_productUnits (by omega) h ?_
  exact two_pow_le_of_error (by decide) (productUnits_error 171).2 (by decide +kernel)

namespace Binary64

theorem representable_count {n : Nat} (h : n ≤ 2 ^ 53) : Representable (unitsPerOne * n) := by
  rw [Nat.mul_comm, unitsPerOne_eq]
  refine ⟨?_, two_pow_dvd_mul_two_pow n unitHalvings h⟩
  have hlt : 2 ^ (53 + unitHalvings) < ceiling := by
    unfold ceiling
    exact Nat.pow_lt_pow_right (by decide) (by omega)
  rw [Nat.pow_add] at hlt
  exact Nat.lt_of_le_of_lt (Nat.mul_le_mul_right _ h) hlt

theorem ofNat_eq {n : Nat} (h : n ≤ 2 ^ 53) :
    ofNat n = .finite false ⟨unitsPerOne * n, representable_count h⟩ := by
  have hr := ofRatio_mul false ⟨unitsPerOne * n, representable_count h⟩ 1 Nat.one_pos
  rwa [Nat.mul_one] at hr

theorem mul_ofNat (m : Magnitude) {n : Nat} (h : n ≤ 2 ^ 53) :
    (finite false m).mul (ofNat n) = ofRatio false (m.units * n) 1 := by
  have hr := Magnitude.round?_mul_mul (m.units * n) 1 unitsPerOne unitsPerOne_pos
  rw [Nat.one_mul, Nat.mul_assoc, Nat.mul_comm n] at hr
  rw [ofNat_eq h, mul, ofRatio, ofRatio, hr]
  rfl

def risingProduct : Nat → Binary64
  | 0 => one
  | n + 1 => (risingProduct n).mul (ofNat (n + 1))

theorem risingProduct_succ {n : Nat} {m : Magnitude} (h : n < 2 ^ 53)
    (hm : risingProduct n = .finite false m) :
    risingProduct (n + 1) = ofRatio false (m.units * (n + 1)) 1 := by
  rw [risingProduct, hm, mul_ofNat m h]

theorem risingProduct_one : risingProduct 1 = one := by
  obtain ⟨m, hm⟩ : ∃ m, risingProduct 0 = .finite false m := ⟨_, ofNat_eq (by decide)⟩
  have h := risingProduct_succ (by decide) hm
  rw [Nat.zero_add, ofRatio_mul false m 1 Nat.one_pos, ← hm] at h
  exact h

theorem productUpTo_eq (n : Nat) : productUpTo n = risingProduct n := by
  induction n with
  | zero => rfl
  | succ n ih =>
    cases n with
    | zero => exact risingProduct_one.symm
    | succ n =>
      rw [risingProduct, ← ih, productUpTo, productUpTo, Nat.add_sub_cancel, Nat.add_sub_cancel,
        List.range'_1_concat, List.foldl_append, Nat.add_comm 2 n, List.foldl_cons, List.foldl_nil]

theorem risingProduct_eq_finite {n : Nat} (h : n ≤ 170) :
    ∃ m, risingProduct n = .finite false m ∧ m.units = productUnits n := by
  induction n with
  | zero => exact ⟨_, ofNat_eq (by decide), Nat.mul_one unitsPerOne⟩
  | succ n ih =>
    obtain ⟨m, hm, hu⟩ := ih (by omega)
    have hv : productUnits (n + 1) = roundUnits (m.units * (n + 1)) 1 := by rw [productUnits, hu]
    have hlt := productUnits_lt_ceiling h
    rw [hv] at hlt ⊢
    refine ⟨⟨_, representable_roundUnits _ _ hlt⟩, ?_, rfl⟩
    rw [risingProduct_succ (by omega) hm, ofRatio, Magnitude.round?, dif_pos hlt]

theorem risingProduct_succ_eq_infinity {n : Nat} (h : n ≤ 170)
    (hc : ceiling ≤ productUnits (n + 1)) : risingProduct (n + 1) = .infinity false := by
  obtain ⟨m, hm, hu⟩ := risingProduct_eq_finite h
  rw [productUnits, ← hu] at hc
  rw [risingProduct_succ (by omega) hm, ofRatio, Magnitude.round?, dif_neg (Nat.not_lt.mpr hc)]

theorem infinity_mul_ofNat {n : Nat} (h : 0 < n) :
    (infinity false).mul (ofNat n) = .infinity false := by
  have hone : 2 ^ 52 ≤ unitsPerOne * n :=
    Nat.le_trans two_pow_le_unitsPerOne (Nat.le_mul_of_pos_right _ h)
  have hpos : roundUnits (unitsPerOne * n) 1 ≠ 0 :=
    Nat.ne_of_gt (Nat.lt_of_lt_of_le (Nat.two_pow_pos 52)
      (two_pow_le_roundUnits (Nat.le_refl 52) hone))
  rw [ofNat, ofRatio, Magnitude.round?]
  by_cases hlt : roundUnits (unitsPerOne * n) 1 < ceiling
  · rw [dif_pos hlt, mul, if_neg hpos]
    rfl
  · rw [dif_neg hlt]
    rfl

theorem risingProduct_eq_infinity {n : Nat} (h : 171 ≤ n) : risingProduct n = .infinity false := by
  induction n, h using Nat.le_induction with
  | base =>
    have hc := ceiling_le_productUnits (Nat.le_refl 171)
    exact risingProduct_succ_eq_infinity (Nat.le_refl 170) hc
  | succ n _ ih =>
    rw [risingProduct, ih]
    exact infinity_mul_ofNat n.succ_pos

def atMost : Binary64 → Binary64 → Bool
  | .nan, _ | _, .nan => false
  | .infinity s, y => s || y == .infinity false
  | .finite _ _, .infinity t => !t
  | .finite s a, .finite t b => decide (signed s a ≤ signed t b)

/-- The product of the whole numbers up to a value of either sign, none of them left out. -/
def wholeProduct : Binary64 → Binary64
  | .nan => .nan
  | .infinity _ => .infinity false
  | .finite _ m => risingProduct (m.units / unitsPerOne)

theorem truncatesBelowZero_eq (x : Binary64) : x.truncatesBelowZero = x.atMost one.neg := by
  rw [one, ofNat_eq (by decide)]
  cases x with
  | nan => rfl
  | infinity s => cases s <;> rfl
  | finite s m =>
    refine decide_eq_decide.mpr ?_
    have hp := unitsPerOne_pos
    have hd : 0 < m.units / unitsPerOne ↔ unitsPerOne ≤ m.units :=
      Nat.div_pos_iff.trans (and_iff_right hp)
    generalize m.units / unitsPerOne = whole at hd
    cases s with
    | false =>
      simp only [signed, Bool.not_false, Bool.false_eq_true, if_true, if_false, Nat.mul_one]
      omega
    | true =>
      simp only [signed, Bool.not_false, if_true, Nat.mul_one]
      omega

theorem truncated?_eq {s : Bool} {m : Magnitude}
    (h : (finite s m).truncatesBelowZero = false) :
    (finite s m).truncated? = some (Int.ofNat (m.units / unitsPerOne)) := by
  cases s with
  | false => rfl
  | true =>
    have hw : ¬-((m.units / unitsPerOne : Nat) : Int) < 0 := of_decide_eq_false h
    rw [Int.neg_neg_iff_pos, Int.natCast_pos, Nat.pos_iff_ne_zero, not_not] at hw
    rw [truncated?, hw]
    rfl

end Binary64

namespace Function

theorem factorialValue_finite {s : Bool} {m : Magnitude}
    (h : (Binary64.finite s m).truncatesBelowZero = false) :
    factorialValue (.finite s m) = .ok (Binary64.risingProduct (m.units / unitsPerOne)) := by
  rw [factorialValue, if_neg (by simp), h, if_neg (by simp), Binary64.toCount?,
    Binary64.truncated?_eq h]
  by_cases hc : m.units / unitsPerOne ≤ Binary64.largestCount
  · simp only [if_pos hc]
    by_cases hl : largestFactorial < m.units / unitsPerOne
    · rw [if_pos hl, Binary64.risingProduct_eq_infinity hl]
    · rw [if_neg hl, Binary64.productUpTo_eq]
  · have hi : 171 ≤ m.units / unitsPerOne := by
      unfold Binary64.largestCount at hc
      omega
    simp only [if_neg hc, Binary64.risingProduct_eq_infinity hi]

/-- Neither bound on the factors shows: the factorial is the whole product. Up to 170 that has the
units of the rounded integers, and from 171 on it is infinite. -/
theorem factorialValue_eq_wholeProduct :
    (∀ x : Binary64, factorialValue x =
      if x.atMost Binary64.one.neg then .error .negativeFactorial else .ok x.wholeProduct) ∧
    (∀ n ≤ 170, ∃ m, Binary64.risingProduct n = .finite false m ∧ m.units = productUnits n) ∧
    ∀ n, 171 ≤ n → Binary64.risingProduct n = .infinity false ∧ ceiling ≤ productUnits n := by
  refine ⟨fun x => ?_, fun n => Binary64.risingProduct_eq_finite,
    fun n h => ⟨Binary64.risingProduct_eq_infinity h, ceiling_le_productUnits h⟩⟩
  rw [← Binary64.truncatesBelowZero_eq]
  cases x with
  | nan => rfl
  | infinity s => cases s <;> rfl
  | finite s m =>
    cases h : (Binary64.finite s m).truncatesBelowZero with
    | true => rw [factorialValue, if_neg (by simp), h]; rfl
    | false => exact factorialValue_finite h

example : factorialValue (.ofNat 5) = .ok (.ofNat 120) := by decide +kernel

end Function
end Reckoner
