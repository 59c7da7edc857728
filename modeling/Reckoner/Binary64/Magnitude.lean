/-!
Magnitudes of binary floating point with 53 significant bits. The unit is 2^-1074, so every
magnitude is a whole number and every operation below is exact until its one rounding.
-/
set_option autoImplicit false

namespace Reckoner

/-- Powers of whole numbers are the built-in ones, whatever else a file imports. -/
@[default_instance high]
instance (priority := high) natPow : Pow Nat Nat := instPowNat

/-- A unit is one halved this many times. The constants below are large, so products have them on
the left: a product with an unknown right factor is never unfolded. -/
@[irreducible] def unitHalvings : Nat := 1074

@[irreducible] def unitsPerOne : Nat := 2 ^ unitHalvings

theorem unitsPerOne_eq : unitsPerOne = 2 ^ unitHalvings := by unfold unitsPerOne; rfl

theorem unitsPerOne_pos : 0 < unitsPerOne := unitsPerOne_eq ▸ Nat.two_pow_pos _

/-- The first magnitude out of reach: 2^1024, in units. -/
@[irreducible] def ceiling : Nat := 2 ^ (1024 + unitHalvings)

theorem ceiling_pos : 0 < ceiling := by unfold ceiling; exact Nat.two_pow_pos _

/-- At most 53 significant bits, and below the ceiling. -/
def Representable (u : Nat) : Prop := u < ceiling ∧ 2 ^ (u.log2 - 52) ∣ u

instance (u : Nat) : Decidable (Representable u) := inferInstanceAs (Decidable (_ ∧ _))

/-- The whole number nearest to `n / d`; of two equally near ones the even one. -/
def roundHalfEven (n d : Nat) : Nat :=
  if 2 * (n % d) < d ∨ (2 * (n % d) = d ∧ n / d % 2 = 0) then n / d else n / d + 1

theorem div_le_roundHalfEven (n d : Nat) : n / d ≤ roundHalfEven n d := by
  unfold roundHalfEven; split <;> omega

theorem roundHalfEven_le (n d : Nat) : roundHalfEven n d ≤ n / d + 1 := by
  unfold roundHalfEven; split <;> omega

theorem roundHalfEven_mul (k d : Nat) (hd : 0 < d) : roundHalfEven (k * d) d = k := by
  simp [roundHalfEven, hd]

theorem roundHalfEven_mul_mul (n d k : Nat) (hk : 0 < k) :
    roundHalfEven (n * k) (d * k) = roundHalfEven n d := by
  have hlt : 2 * (n % d * k) < d * k ↔ 2 * (n % d) < d := by
    rw [← Nat.mul_assoc]; exact Nat.mul_lt_mul_right hk
  have heq : 2 * (n % d * k) = d * k ↔ 2 * (n % d) = d := by
    rw [← Nat.mul_assoc]; exact Nat.mul_right_cancel_iff hk
  simp only [roundHalfEven, Nat.mul_div_mul_right _ _ hk, Nat.mul_mod_mul_right, hlt, heq]

/-- The spacing of magnitudes near `n / d` is two to this power. -/
def spacing (n d : Nat) : Nat := (n / d).log2 - 52

def roundUnits (n d : Nat) : Nat :=
  roundHalfEven n (d * 2 ^ spacing n d) * 2 ^ spacing n d

theorem lt_two_pow_spacing (n d : Nat) : n / d < 2 ^ (53 + spacing n d) := by
  refine Nat.lt_of_lt_of_le (Nat.lt_log2_self (n := n / d)) (Nat.pow_le_pow_right (by omega) ?_)
  unfold spacing; omega

theorem roundHalfEven_spacing_le (n d : Nat) :
    roundHalfEven n (d * 2 ^ spacing n d) ≤ 2 ^ 53 := by
  have h := roundHalfEven_le n (d * 2 ^ spacing n d)
  have hlt : n / d / 2 ^ spacing n d < 2 ^ 53 := by
    rw [Nat.div_lt_iff_lt_mul (Nat.two_pow_pos _), ← Nat.pow_add]
    exact lt_two_pow_spacing n d
  rw [Nat.div_div_eq_div_mul] at hlt
  omega

theorem two_pow_dvd_mul_two_pow (m q : Nat) (hm : m ≤ 2 ^ 53) :
    2 ^ ((m * 2 ^ q).log2 - 52) ∣ m * 2 ^ q := by
  rcases Nat.eq_zero_or_pos m with rfl | hpos
  · simp
  have hne : m * 2 ^ q ≠ 0 := Nat.ne_of_gt (Nat.mul_pos hpos (Nat.two_pow_pos q))
  rcases Nat.lt_or_eq_of_le hm with hlt | rfl
  · have h : (m * 2 ^ q).log2 < 53 + q := by
      rw [Nat.log2_lt hne, Nat.pow_add]
      exact Nat.mul_lt_mul_of_pos_right hlt (Nat.two_pow_pos q)
    exact Nat.dvd_mul_left_of_dvd (Nat.pow_dvd_pow 2 (by omega)) m
  · have h : (2 ^ 53 * 2 ^ q).log2 < 54 + q := by
      rw [Nat.log2_lt hne, ← Nat.pow_add]
      exact Nat.pow_lt_pow_right (by omega) (by omega)
    rw [← Nat.pow_add] at h ⊢
    exact Nat.pow_dvd_pow 2 (by omega)

theorem representable_roundUnits (n d : Nat) (h : roundUnits n d < ceiling) :
    Representable (roundUnits n d) :=
  ⟨h, two_pow_dvd_mul_two_pow _ _ (roundHalfEven_spacing_le n d)⟩

theorem roundUnits_mul (u d : Nat) (hd : 0 < d) (hu : Representable u) :
    roundUnits (u * d) d = u := by
  obtain ⟨k, hk⟩ := hu.2
  have hs : spacing (u * d) d = u.log2 - 52 := by simp [spacing, Nat.mul_div_cancel u hd]
  have he : u * d = k * (d * 2 ^ (u.log2 - 52)) := by
    conv => lhs; rw [hk]
    rw [Nat.mul_comm (2 ^ (u.log2 - 52)) k, Nat.mul_assoc, Nat.mul_comm (2 ^ (u.log2 - 52)) d]
  rw [roundUnits, hs, he, roundHalfEven_mul k _ (Nat.mul_pos hd (Nat.two_pow_pos _)), Nat.mul_comm]
  exact hk.symm

theorem roundUnits_mul_mul (n d k : Nat) (hk : 0 < k) :
    roundUnits (n * k) (d * k) = roundUnits n d := by
  have hs : spacing (n * k) (d * k) = spacing n d := by
    simp only [spacing, Nat.mul_div_mul_right _ _ hk]
  rw [roundUnits, hs, Nat.mul_right_comm, roundHalfEven_mul_mul _ _ _ hk, roundUnits]

structure Magnitude where
  units : Nat
  representable : Representable units
  deriving DecidableEq

theorem Magnitude.ext_units {a b : Magnitude} (h : a.units = b.units) : a = b := by
  cases a; cases b; cases h; rfl

def Magnitude.zero : Magnitude := ⟨0, ceiling_pos, Nat.one_dvd 0⟩

/-- The magnitude nearest to `n / d` units, unless that reaches the ceiling. -/
def Magnitude.round? (n d : Nat) : Option Magnitude :=
  if h : roundUnits n d < ceiling then some ⟨roundUnits n d, representable_roundUnits n d h⟩
  else none

theorem Magnitude.round?_mul_mul (n d k : Nat) (hk : 0 < k) :
    Magnitude.round? (n * k) (d * k) = Magnitude.round? n d := by
  simp only [round?, roundUnits_mul_mul n d k hk]

theorem Magnitude.round?_mul (a : Magnitude) (d : Nat) (hd : 0 < d) :
    Magnitude.round? (a.units * d) d = some a := by
  have h := roundUnits_mul a.units d hd a.representable
  rw [round?, dif_pos (by rw [h]; exact a.representable.1)]
  exact congrArg some (Magnitude.ext_units h)

end Reckoner
