import Reckoner.Binary64.ReadBack
import Reckoner.Proofs.Scanning

set_option autoImplicit false

namespace Reckoner

theorem succ_le_roundHalfEven_iff {n d m : Nat} (hd : 0 < d) (hm : m % 2 = 1) :
    m + 1 ≤ roundHalfEven n d ↔ (2 * m + 1) * d ≤ 2 * n := by
  have hn := Nat.div_add_mod n d
  have hr := Nat.mod_lt n hd
  have hle := div_le_roundHalfEven n d
  have hge := roundHalfEven_le n d
  have hexp : (2 * m + 1) * d = 2 * (d * m) + d := by
    rw [Nat.add_mul, Nat.mul_assoc, Nat.mul_comm m d, Nat.one_mul]
  rcases Nat.lt_trichotomy (n / d) m with hlt | heq | hgt
  · have hq : d * (n / d + 1) ≤ d * m := Nat.mul_le_mul_left d hlt
    rw [Nat.mul_add, Nat.mul_one] at hq
    omega
  · rw [heq] at hn
    rw [roundHalfEven, heq, hexp]
    split <;> omega
  · have hq : d * (m + 1) ≤ d * (n / d) := Nat.mul_le_mul_left d hgt
    rw [Nat.mul_add, Nat.mul_one] at hq
    omega

theorem two_pow_log2_le_roundUnits {n d : Nat} (h : 2 ^ 52 ≤ n / d) :
    2 ^ (n / d).log2 ≤ roundUnits n d := by
  have hq : 2 ^ (n / d).log2 ≤ n / d := Nat.log2_self_le (by omega)
  have hl : 52 ≤ (n / d).log2 := (Nat.le_log2 (by omega)).mpr h
  have hs : 2 ^ 52 * 2 ^ spacing n d = 2 ^ (n / d).log2 := by
    rw [← Nat.pow_add, spacing]
    congr 1
    omega
  have hh : 2 ^ 52 ≤ roundHalfEven n (d * 2 ^ spacing n d) := by
    refine Nat.le_trans ?_ (div_le_roundHalfEven n (d * 2 ^ spacing n d))
    rw [← Nat.div_div_eq_div_mul, Nat.le_div_iff_mul_le (Nat.two_pow_pos _), hs]
    exact hq
  rw [← hs, roundUnits]
  exact Nat.mul_le_mul_right _ hh

theorem roundUnits_le (n d : Nat) : roundUnits n d ≤ 2 ^ 53 * 2 ^ spacing n d :=
  Nat.mul_le_mul_right _ (roundHalfEven_spacing_le n d)

/-- Rounding reaches a power of two from the middle below it on: 54 bits, all of them set. -/
theorem two_pow_le_roundUnits_iff {n d : Nat} (hd : 0 < d) (k : Nat) :
    2 ^ (k + 54) ≤ roundUnits n d ↔ (2 ^ 54 - 1) * 2 ^ k * d ≤ n := by
  have hk := Nat.pow_add 2 k 54
  have hk' := Nat.pow_add 2 k 53
  have hpos := Nat.two_pow_pos k
  rcases Nat.lt_or_ge (n / d) (2 ^ (k + 53)) with hlt | hge
  · -- Far below: the spacing is at most `2 ^ k`.
    have hs : spacing n d ≤ k := by
      by_cases hq : n / d = 0
      · simp [spacing, hq]
      · have hl := (Nat.log2_lt hq).mpr hlt
        rw [spacing]; omega
    have hle := roundUnits_le n d
    have hle' := Nat.mul_le_mul_left (2 ^ 53) (Nat.pow_le_pow_right (n := 2) (by decide) hs)
    have hn := (Nat.div_lt_iff_lt_mul hd).mp hlt
    have hm : 2 ^ (k + 53) * d ≤ (2 ^ 54 - 1) * 2 ^ k * d :=
      Nat.mul_le_mul_right d (by omega)
    omega
  have hq : n / d ≠ 0 := by omega
  rcases Nat.lt_or_ge (n / d) (2 ^ (k + 54)) with hlt | hge'
  · -- Between the power of two and its half the spacing is `2 ^ (k + 1)`.
    have hl : (n / d).log2 = k + 53 := (Nat.log2_eq_iff hq).mpr ⟨hge, hlt⟩
    have hs : spacing n d = k + 1 := by rw [spacing, hl]; omega
    have hD : 0 < d * 2 ^ (k + 1) := Nat.mul_pos hd (Nat.two_pow_pos _)
    have hh := succ_le_roundHalfEven_iff (n := n) (m := 2 ^ 53 - 1) hD (by decide)
    have hp : 2 ^ (k + 54) = 2 ^ 53 * 2 ^ (k + 1) := by
      rw [hk, Nat.pow_succ 2 k]; omega
    have hX : d * 2 ^ (k + 1) = 2 * (2 ^ k * d) := by
      rw [Nat.pow_succ 2 k, Nat.mul_comm d, Nat.mul_comm (2 ^ k) 2, Nat.mul_assoc]
    rw [hX] at hh
    rw [roundUnits, hs, hp, Nat.mul_le_mul_right_iff (Nat.two_pow_pos _), hX, Nat.mul_assoc]
    omega
  · have hr := two_pow_log2_le_roundUnits (n := n) (d := d) (by omega)
    have hl := Nat.pow_le_pow_right (n := 2) (by decide) ((Nat.le_log2 hq).mpr hge')
    have hn := (Nat.le_div_iff_mul_le hd).mp hge'
    have hm : (2 ^ 54 - 1) * 2 ^ k * d ≤ 2 ^ (k + 54) * d := Nat.mul_le_mul_right d (by omega)
    omega

theorem two_pow_le_roundUnits_mul_iff {c d : Nat} (hd : 0 < d) (e u : Nat) :
    2 ^ (e + u + 54) ≤ roundUnits (2 ^ u * c) d ↔ (2 ^ 54 - 1) * 2 ^ e * d ≤ c := by
  have hs : (2 ^ 54 - 1) * 2 ^ (e + u) * d = 2 ^ u * ((2 ^ 54 - 1) * 2 ^ e * d) := by
    rw [Nat.pow_add]
    ac_rfl
  rw [two_pow_le_roundUnits_iff hd, hs, Nat.mul_le_mul_left_iff (Nat.two_pow_pos u)]

/-- No nearer to the last magnitude, `(2 ^ 53 - 1) * 2 ^ 971`, than to `2 ^ 1024`. -/
def Decimal.Overflows (d : Decimal) : Prop :=
  (2 ^ 54 - 1) * 2 ^ 970 * 10 ^ d.scale ≤ d.coefficient

theorem ceiling_eq : ceiling = 2 ^ (970 + unitHalvings + 54) := by
  unfold ceiling
  congr 1
  omega

theorem Decimal.magnitude?_eq_none_iff {d : Decimal} : d.magnitude? = none ↔ d.Overflows := by
  have hr := two_pow_le_roundUnits_mul_iff (c := d.coefficient)
    (Nat.pow_pos (n := d.scale) (by decide : 0 < 10)) 970 unitHalvings
  rw [← ceiling_eq, ← unitsPerOne_eq] at hr
  rw [magnitude?, Magnitude.round?, Overflows, ← hr]
  simp

namespace Decimal

structure WellFormed (t : Text) : Prop where
  digit : ∃ c ∈ t, c.isDigit = true
  point : t.count '.' ≤ 1

/-- The digits in their order, and the number of characters after the point. -/
def written (t : Text) : Decimal :=
  ⟨Nat.ofDigitChars 10 (t.filter (· != '.')) 0, t.length - (t.idxOf '.' + 1)⟩

theorem isDigit_of_notMem {t : Text} (ht : ∀ c ∈ t, isNumeralChar c = true) (hp : '.' ∉ t) :
    ∀ c ∈ t, c.isDigit = true := by
  intro c hc
  rcases isNumeralChar_iff.mp (ht c hc) with h | rfl
  · exact h
  · exact absurd hc hp

theorem ne_point_of_notMem {t : Text} (hp : '.' ∉ t) : ∀ c ∈ t, (c != '.') = true := by
  intro c hc
  rw [bne_iff_ne]
  intro h
  exact hp (h ▸ hc)

theorem filter_eq_self_of_notMem {t : Text} (hp : '.' ∉ t) : t.filter (· != '.') = t :=
  List.filter_eq_self.mpr (ne_point_of_notMem hp)

theorem written_of_notMem {t : Text} (hp : '.' ∉ t) :
    written t = ⟨Nat.ofDigitChars 10 t 0, 0⟩ := by
  rw [written, filter_eq_self_of_notMem hp, List.idxOf_eq_length hp]
  simp

theorem written_point {w f : Text} (hw : '.' ∉ w) (hf : '.' ∉ f) :
    written (w ++ '.' :: f) = ⟨Nat.ofDigitChars 10 (w ++ f) 0, f.length⟩ := by
  have hi : (w ++ '.' :: f).idxOf '.' = w.length := by
    rw [List.idxOf_append, if_neg hw, List.idxOf_cons_self, Nat.zero_add]
  have hl : (w ++ '.' :: f).length - (w.length + 1) = f.length := by
    rw [List.length_append, List.length_cons]; omega
  rw [written, hi, hl, List.filter_append, filter_eq_self_of_notMem hw]
  simp [filter_eq_self_of_notMem hf]

theorem ofNumeral?_append {w : Text} (hw : '.' ∉ w) (f : Text) :
    ofNumeral? (w ++ '.' :: f) =
      if (w = [] ∧ f = []) ∨ '.' ∈ f then none
      else some ⟨Nat.ofDigitChars 10 (w ++ f) 0, f.length⟩ := by
  have hp := ne_point_of_notMem hw
  have ht : (w ++ '.' :: f).takeWhile (· != '.') = w := by
    rw [List.takeWhile_append_of_pos hp]; simp
  have hd : (w ++ '.' :: f).dropWhile (· != '.') = '.' :: f := by
    rw [List.dropWhile_append_of_pos hp]; simp
  simp [ofNumeral?, ht, hd]

theorem wellFormed_append {w f : Text} (hw : ∀ c ∈ w, c.isDigit = true)
    (hf : ∀ c ∈ f, c.isDigit = true) (hne : w ≠ [] ∨ f ≠ []) : WellFormed (w ++ '.' :: f) where
  digit := by
    rcases hne with h | h
    · obtain ⟨c, w, rfl⟩ := List.exists_cons_of_ne_nil h
      exact ⟨c, by simp, hw c List.mem_cons_self⟩
    · obtain ⟨c, f, rfl⟩ := List.exists_cons_of_ne_nil h
      exact ⟨c, by simp, hf c List.mem_cons_self⟩
  point := by
    have hn : ∀ t : Text, (∀ c ∈ t, c.isDigit = true) → t.count '.' = 0 := fun t ht =>
      List.count_eq_zero.mpr fun h => absurd (ht _ h) (by decide)
    simp [hn w hw, hn f hf]

theorem ofNumeral?_eq_some_iff {t : Text} (ht : ∀ c ∈ t, isNumeralChar c = true) {d : Decimal} :
    ofNumeral? t = some d ↔ WellFormed t ∧ d = written t := by
  by_cases hp : '.' ∈ t
  · obtain ⟨w, f, rfl, hw⟩ := List.eq_append_cons_of_mem hp
    simp only [List.forall_mem_append, List.forall_mem_cons] at ht
    rw [ofNumeral?_append hw]
    by_cases hf : '.' ∈ f
    · have hn : ¬ WellFormed (w ++ '.' :: f) := by
        intro h
        have hc := h.point
        have hf := List.count_pos_iff.mpr hf
        rw [List.count_append, List.count_cons_self] at hc
        omega
      simp [hf, hn]
    by_cases hne : w = [] ∧ f = []
    · obtain ⟨rfl, rfl⟩ := hne
      have hn : ¬ WellFormed ['.'] := by
        intro h
        obtain ⟨c, hc, hd⟩ := h.digit
        rw [List.mem_singleton.mp hc] at hd
        exact absurd hd (by decide)
      simp [hn]
    · have hg := wellFormed_append (isDigit_of_notMem ht.1 hw) (isDigit_of_notMem ht.2.2 hf)
        (Decidable.not_and_iff_not_or_not.mp hne)
      rw [if_neg (not_or.mpr ⟨hne, hf⟩), Option.some.injEq, written_point hw hf]
      exact ⟨fun h => ⟨hg, h.symm⟩, fun h => h.2.symm⟩
  · have hd := isDigit_of_notMem ht hp
    by_cases hne : t = []
    · subst hne
      have hn : ¬ WellFormed [] := fun h => absurd h.digit (by simp)
      simp [hn, ofNumeral?]
    · obtain ⟨c, s, rfl⟩ := List.exists_cons_of_ne_nil hne
      have hg : WellFormed (c :: s) :=
        ⟨⟨c, List.mem_cons_self, hd c List.mem_cons_self⟩, by rw [List.count_eq_zero.mpr hp]; simp⟩
      rw [ofNumeral?_whole hd hne, Option.some.injEq, written_of_notMem hp]
      exact ⟨fun h => ⟨hg, h.symm⟩, fun h => h.2.symm⟩

theorem ofNumeral?_eq_none_iff {t : Text} (ht : ∀ c ∈ t, isNumeralChar c = true) :
    ofNumeral? t = none ↔ ¬ WellFormed t := by
  rw [Option.eq_none_iff_forall_ne_some]
  constructor
  · intro h hw
    exact h _ ((ofNumeral?_eq_some_iff ht).mpr ⟨hw, rfl⟩)
  · intro h d hd
    exact h ((ofNumeral?_eq_some_iff ht).mp hd).1

end Decimal

namespace Lexeme

theorem literal_malformed {t : Text} (ht : ∀ c ∈ t, Decimal.isNumeralChar c = true)
    (h : ¬ Decimal.WellFormed t) (position : Nat) :
    literal t position = .error (.malformedNumber t position) := by
  rw [literal, (Decimal.ofNumeral?_eq_none_iff ht).mpr h]

theorem literal_overflow {t : Text} (ht : ∀ c ∈ t, Decimal.isNumeralChar c = true)
    (h : Decimal.WellFormed t) (ho : (Decimal.written t).Overflows) (position : Nat) :
    literal t position = .error (.literalTooLarge t position) := by
  have hm := Decimal.magnitude?_eq_none_iff.mpr ho
  simp only [literal, (Decimal.ofNumeral?_eq_some_iff ht).mpr ⟨h, rfl⟩, hm]

theorem exists_literal {t : Text} (ht : ∀ c ∈ t, Decimal.isNumeralChar c = true)
    (h : Decimal.WellFormed t) (ho : ¬ (Decimal.written t).Overflows) :
    ∃ v, ∀ position, literal t position = .ok v := by
  have hd := (Decimal.ofNumeral?_eq_some_iff ht).mpr ⟨h, rfl⟩
  have hm := mt Decimal.magnitude?_eq_none_iff.mp ho
  obtain ⟨m, hm⟩ := Option.ne_none_iff_exists'.mp hm
  exact ⟨_, literal_of_ofNumeral? hd hm⟩

end Lexeme
end Reckoner
