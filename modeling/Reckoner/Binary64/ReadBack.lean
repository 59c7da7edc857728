import Reckoner.Lexeme

set_option autoImplicit false

namespace Reckoner

namespace Decimal

theorem isDigit_of_mem_ofNat {n : Nat} {c : Char} (h : c ∈ Text.ofNat n) : c.isDigit = true :=
  Nat.isDigit_of_mem_toDigits (by decide) (by decide) h

theorem isDigit_of_mem_padded {width n : Nat} {c : Char} (h : c ∈ padded width n) :
    c.isDigit = true := by
  rw [padded, List.mem_append] at h
  rcases h with h | h
  · rw [(List.mem_replicate.mp h).2]; rfl
  · exact isDigit_of_mem_ofNat h

theorem isDigit_of_mem_fractionPart {d : Decimal} {c : Char} (h : c ∈ d.fractionPart) :
    c.isDigit = true := by
  have hs := Text.dropEndWhile_append_takeWhile (· == '0')
    (padded d.scale (d.coefficient % 10 ^ d.scale))
  have hm := List.mem_append_left
    ((padded d.scale (d.coefficient % 10 ^ d.scale)).reverse.takeWhile (· == '0')).reverse h
  exact isDigit_of_mem_padded (hs ▸ hm)

theorem ofDigitChars_padded (width n : Nat) : Nat.ofDigitChars 10 (padded width n) 0 = n := by
  simp [padded, Nat.ofDigitChars_append, Text.ofNat]

theorem length_padded {width n : Nat} (hw : 0 < width) (hn : n < 10 ^ width) :
    (padded width n).length = width := by
  have h := (Nat.length_toDigits_le_iff (b := 10) (by decide) hw).mpr hn
  simp only [padded, Text.ofNat, List.length_append, List.length_replicate]
  omega

theorem ofDigitChars_dropFinalZeros (t : Text) :
    10 ^ (t.length - (dropFinalZeros t).length) * Nat.ofDigitChars 10 (dropFinalZeros t) 0 =
      Nat.ofDigitChars 10 t 0 := by
  have hs := Text.dropEndWhile_append_takeWhile (· == '0') t
  have hz : (t.reverse.takeWhile (· == '0')).reverse =
      List.replicate (t.reverse.takeWhile (· == '0')).reverse.length '0' := by
    refine List.eq_replicate_of_mem fun c hc => ?_
    exact beq_iff_eq.mp (List.all_eq_true.mp List.all_takeWhile c (List.mem_reverse.mp hc))
  have hl := congrArg List.length hs
  rw [List.length_append] at hl
  conv => rhs; rw [← hs, Nat.ofDigitChars_append, hz, Nat.ofDigitChars_replicate_zero]
  rw [dropFinalZeros]
  congr 2
  omega

theorem ne_point_of_isDigit {c : Char} (h : c.isDigit = true) : (c != '.') = true := by
  rw [bne_iff_ne]; rintro rfl; revert h; decide

theorem ofNumeral?_whole {w : Text} (hw : ∀ c ∈ w, c.isDigit = true) (hne : w ≠ []) :
    ofNumeral? w = some ⟨Nat.ofDigitChars 10 w 0, 0⟩ := by
  have hp : ∀ c ∈ w, (c != '.') = true := fun c hc => ne_point_of_isDigit (hw c hc)
  have ht : w.takeWhile (· != '.') = w := by
    have h := congrArg (List.takeWhile (· != '.')) (List.append_nil w)
    rw [List.takeWhile_append_of_pos hp, List.takeWhile_nil, List.append_nil] at h
    exact h.symm
  have hd : w.dropWhile (· != '.') = [] := by
    have h := List.takeWhile_append_dropWhile (p := (· != '.')) (l := w)
    rw [ht] at h
    exact List.append_right_eq_self.mp h
  simp [ofNumeral?, ht, hd, hne]

theorem ofNumeral?_point {w f : Text} (hw : ∀ c ∈ w, c.isDigit = true)
    (hf : ∀ c ∈ f, c.isDigit = true) (hne : w ≠ []) :
    ofNumeral? (w ++ '.' :: f) = some ⟨Nat.ofDigitChars 10 (w ++ f) 0, f.length⟩ := by
  have hp : ∀ c ∈ w, (c != '.') = true := fun c hc => ne_point_of_isDigit (hw c hc)
  have hn : '.' ∉ f := fun h => absurd (hf _ h) (by decide)
  have ht : (w ++ '.' :: f).takeWhile (· != '.') = w := by
    rw [List.takeWhile_append_of_pos hp]; simp
  have hd : (w ++ '.' :: f).dropWhile (· != '.') = '.' :: f := by
    rw [List.dropWhile_append_of_pos hp]; simp
  simp [ofNumeral?, ht, hd, hne, hn]

theorem wholePart_ne_nil (d : Decimal) : d.wholePart ≠ [] := Nat.toDigits_ne_nil

theorem magnitude?_mul (c s k : Nat) :
    magnitude? ⟨10 ^ k * c, s + k⟩ = magnitude? ⟨c, s⟩ := by
  rw [magnitude?, magnitude?, Nat.mul_comm (10 ^ k), ← Nat.mul_assoc, Nat.pow_add,
    Magnitude.round?_mul_mul _ _ _ (Nat.pow_pos (by decide))]

theorem coefficient_eq (d : Decimal) :
    10 ^ (d.scale - d.fractionPart.length) *
      Nat.ofDigitChars 10 (d.wholePart ++ d.fractionPart) 0 = d.coefficient ∧
    d.fractionPart.length ≤ d.scale := by
  obtain ⟨c, s⟩ := d
  rcases Nat.eq_zero_or_pos s with rfl | hs
  · have hf : fractionPart ⟨c, 0⟩ = [] := by
      simp only [fractionPart, Nat.pow_zero, Nat.mod_one]
      rfl
    simp [hf, wholePart, Text.ofNat]
  · have hz := ofDigitChars_dropFinalZeros (padded s (c % 10 ^ s))
    have hl := length_padded hs (Nat.mod_lt c (Nat.pow_pos (n := s) (by decide : 0 < 10)))
    rw [hl, ofDigitChars_padded] at hz
    have hle : (fractionPart ⟨c, s⟩).length ≤ s := by
      have h := congrArg List.length
        (Text.dropEndWhile_append_takeWhile (· == '0') (padded s (c % 10 ^ s)))
      rw [List.length_append, hl] at h
      exact Nat.le_of_add_right_le (Nat.le_of_eq h)
    refine ⟨?_, hle⟩
    rw [Nat.ofDigitChars_append, Nat.ofDigitChars_eq_ofDigitChars_zero, wholePart, Text.ofNat,
      Nat.ofDigitChars_ten_toDigits, Nat.mul_add, ← Nat.mul_assoc, ← Nat.pow_add,
      Nat.sub_add_cancel hle]
    exact (congrArg (10 ^ s * (c / 10 ^ s) + ·) hz).trans (Nat.div_add_mod c (10 ^ s))

/-- What is written plainly reads back as the same magnitude. -/
theorem ofNumeral?_plain (d : Decimal) :
    ∃ e, ofNumeral? d.plain = some e ∧ e.magnitude? = d.magnitude? := by
  have hw : ∀ c ∈ d.wholePart, c.isDigit = true := fun c hc => isDigit_of_mem_ofNat hc
  have hf : ∀ c ∈ d.fractionPart, c.isDigit = true := fun c hc => isDigit_of_mem_fractionPart hc
  refine ⟨⟨Nat.ofDigitChars 10 (d.wholePart ++ d.fractionPart) 0, d.fractionPart.length⟩, ?_, ?_⟩
  · unfold plain
    split
    · next h => rw [h, List.append_nil]; exact ofNumeral?_whole hw d.wholePart_ne_nil
    · exact ofNumeral?_point hw hf d.wholePart_ne_nil
  · obtain ⟨hc, hle⟩ := d.coefficient_eq
    have h := magnitude?_mul (Nat.ofDigitChars 10 (d.wholePart ++ d.fractionPart) 0)
      d.fractionPart.length (d.scale - d.fractionPart.length)
    rw [hc, Nat.add_sub_cancel' hle] at h
    exact h.symm

theorem plain_ne_nil (d : Decimal) : d.plain ≠ [] := by
  unfold plain
  split
  · exact d.wholePart_ne_nil
  · simp

end Decimal

theorem Lexeme.literal_of_ofNumeral? {run : Text} {d : Decimal} {m : Magnitude}
    (hd : Decimal.ofNumeral? run = some d) (hm : d.magnitude? = some m) (position : Nat) :
    Lexeme.literal run position = .ok (.finite false m) := by
  simp only [literal, hd, hm]

theorem Lexeme.literal_decimal {d : Decimal} {m : Magnitude} (h : d.magnitude? = some m)
    (position : Nat) : Lexeme.literal d.plain position = .ok (.finite false m) :=
  have ⟨_, he, hm⟩ := d.ofNumeral?_plain
  Lexeme.literal_of_ofNumeral? he (hm.trans h) position

end Reckoner
