import Reckoner.Tree.Value

/-!
Values that only the sign of a zero tells apart. Main statement: no operation but the power makes
more of that sign, so trees that are equal as numbers are have equal values or the same error.
-/
set_option autoImplicit false

namespace Reckoner

theorem Magnitude.eq_zero_of_units {m : Magnitude} (h : m.units = 0) : m = zero := ext_units h

namespace Binary64

/-- Numerically equal, or neither of them a number. -/
def Alike (x y : Binary64) : Prop := x.equal y = true ∨ (x = .nan ∧ y = .nan)

theorem alike_refl (x : Binary64) : Alike x x := by
  cases x with
  | finite s m => exact .inl (by simp [equal])
  | infinity s => exact .inl (by simp [equal])
  | nan => exact .inr ⟨rfl, rfl⟩

theorem alike_zeros (s t : Bool) :
    Alike (.finite s Magnitude.zero) (.finite t Magnitude.zero) := by
  refine .inl ?_
  simp [equal, Magnitude.zero]

theorem Alike.eq_or_zeros {x y : Binary64} (h : Alike x y) :
    x = y ∨ ∃ s t, x = .finite s Magnitude.zero ∧ y = .finite t Magnitude.zero := by
  rcases h with h | ⟨rfl, rfl⟩
  · cases x with
    | nan => cases h
    | infinity s =>
      cases y with
      | infinity t => exact .inl (congrArg _ (beq_iff_eq.mp h))
      | _ => cases h
    | finite s a =>
      cases y with
      | finite t b =>
        simp only [equal, Bool.and_eq_true, Bool.or_eq_true, beq_iff_eq] at h
        obtain ⟨hu, rfl | hz⟩ := h
        · exact .inl (congrArg _ (Magnitude.ext_units hu))
        · have ha := Magnitude.eq_zero_of_units hz
          have hb := Magnitude.eq_zero_of_units (hu ▸ hz)
          exact .inr ⟨s, t, by rw [ha], by rw [hb]⟩
      | _ => cases h
  · exact .inl rfl

theorem Alike.trans {x y z : Binary64} (h : Alike x y) (h' : Alike y z) : Alike x z := by
  rcases h.eq_or_zeros with rfl | ⟨s, t, rfl, rfl⟩
  · exact h'
  · rcases h'.eq_or_zeros with rfl | ⟨t', u, -, rfl⟩
    · exact h
    · exact alike_zeros s u

theorem isZero_one : one.isZero = false := by decide +kernel

theorem Alike.isZero_eq {x y : Binary64} (h : Alike x y) : x.isZero = y.isZero := by
  rcases h.eq_or_zeros with rfl | ⟨s, t, rfl, rfl⟩ <;> rfl

theorem Alike.eq_of_isZero {x y : Binary64} (h : Alike x y) (hx : x.isZero = false) : x = y := by
  rcases h.eq_or_zeros with rfl | ⟨s, t, rfl, rfl⟩
  · rfl
  · cases hx

theorem Alike.map {x y : Binary64} (h : Alike x y) (g : Binary64 → Binary64)
    (hz : ∀ s t, Alike (g (.finite s Magnitude.zero)) (g (.finite t Magnitude.zero))) :
    Alike (g x) (g y) := by
  rcases h.eq_or_zeros with rfl | ⟨s, t, rfl, rfl⟩
  · exact alike_refl _
  · exact hz s t

theorem Alike.map₂ {x x' y y' : Binary64} (h : Alike x x') (h' : Alike y y')
    (g : Binary64 → Binary64 → Binary64)
    (hl : ∀ s t y, Alike (g (.finite s Magnitude.zero) y) (g (.finite t Magnitude.zero) y))
    (hr : ∀ s t x, Alike (g x (.finite s Magnitude.zero)) (g x (.finite t Magnitude.zero))) :
    Alike (g x y) (g x' y') :=
  (h.map (g · y) fun s t => hl s t y).trans (h'.map (g x') fun s t => hr s t x')

theorem ofRatio_zero (s : Bool) {d : Nat} (hd : 0 < d) :
    ofRatio s 0 d = .finite s Magnitude.zero := by
  have h := ofRatio_mul s Magnitude.zero d hd
  rwa [show Magnitude.zero.units * d = 0 from Nat.zero_mul d] at h

theorem signed_zero (s : Bool) : signed s Magnitude.zero = 0 := by cases s <;> rfl

/-- A sum sees the numbers that its terms stand for; only if it vanishes does it see their signs. -/
theorem alike_add_of_signed {s s' t t' : Bool} {a a' b b' : Magnitude}
    (ha : signed s a = signed s' a') (hb : signed t b = signed t' b') :
    Alike ((finite s a).add (finite t b)) ((finite s' a').add (finite t' b')) := by
  simp only [add, ha, hb]
  split
  · exact alike_zeros _ _
  · exact alike_refl _

theorem Alike.add {x x' y y' : Binary64} (h : Alike x x') (h' : Alike y y') :
    Alike (x.add y) (x'.add y') := by
  refine h.map₂ h' Binary64.add (fun s t y => ?_) (fun s t x => ?_)
  · cases y with
    | finite u b => exact alike_add_of_signed (by rw [signed_zero, signed_zero]) rfl
    | _ => exact alike_refl _
  · cases x with
    | finite u a => exact alike_add_of_signed rfl (by rw [signed_zero, signed_zero])
    | _ => exact alike_refl _

theorem Alike.neg {x y : Binary64} (h : Alike x y) : Alike x.neg y.neg :=
  h.map Binary64.neg fun s t => alike_zeros (!s) (!t)

theorem Alike.sub {x x' y y' : Binary64} (h : Alike x x') (h' : Alike y y') :
    Alike (x.sub y) (x'.sub y') := h.add h'.neg

theorem Alike.mul {x x' y y' : Binary64} (h : Alike x x') (h' : Alike y y') :
    Alike (x.mul y) (x'.mul y') := by
  refine h.map₂ h' Binary64.mul (fun s t y => ?_) (fun s t x => ?_)
  · cases y with
    | finite u b =>
      have hz : Magnitude.zero.units * b.units = 0 := Nat.zero_mul _
      simp only [Binary64.mul, hz, ofRatio_zero _ unitsPerOne_pos]
      exact alike_zeros _ _
    | _ => exact alike_refl _
  · cases x with
    | finite u a =>
      have hz : a.units * Magnitude.zero.units = 0 := Nat.mul_zero _
      simp only [Binary64.mul, hz, ofRatio_zero _ unitsPerOne_pos]
      exact alike_zeros _ _
    | _ => exact alike_refl _

theorem alike_div_zeros (s t : Bool) (y : Binary64) :
    Alike ((finite s Magnitude.zero).div y) ((finite t Magnitude.zero).div y) := by
  cases y with
  | finite u b =>
    have hz : unitsPerOne * Magnitude.zero.units = 0 := Nat.mul_zero _
    by_cases hb : b.units = 0
    · simp only [div, hb]
      exact alike_refl _
    · simp only [div, hb, hz, if_false, ofRatio_zero _ (Nat.pos_of_ne_zero hb)]
      exact alike_zeros _ _
  | infinity u => exact alike_zeros _ _
  | nan => exact alike_refl _

end Binary64

inductive SameOutcome : Except EvaluationError Binary64 → Except EvaluationError Binary64 → Prop
  | error (e : EvaluationError) : SameOutcome (.error e) (.error e)
  | ok {x y : Binary64} (h : x.Alike y) : SameOutcome (.ok x) (.ok y)

theorem sameOutcome_refl (r : Except EvaluationError Binary64) : SameOutcome r r := by
  cases r with
  | error e => exact .error e
  | ok x => exact .ok x.alike_refl

theorem SameOutcome.bind {r r' : Except EvaluationError Binary64}
    {f f' : Binary64 → Except EvaluationError Binary64} (h : SameOutcome r r')
    (hf : ∀ x y, x.Alike y → SameOutcome (f x) (f' y)) : SameOutcome (r >>= f) (r' >>= f') := by
  cases h with
  | error e => exact .error e
  | ok h => exact hf _ _ h

namespace Elementary

/-- Elementary functions under which alike arguments have alike results, and `cosh` has no zero. -/
structure Respectful (m : Elementary) : Prop where
  sin : ∀ {x y : Binary64}, x.Alike y → (m.sin x).Alike (m.sin y)
  cos : ∀ {x y : Binary64}, x.Alike y → (m.cos x).Alike (m.cos y)
  tan : ∀ {x y : Binary64}, x.Alike y → (m.tan x).Alike (m.tan y)
  ln : ∀ {x y : Binary64}, x.Alike y → (m.ln x).Alike (m.ln y)
  log10 : ∀ {x y : Binary64}, x.Alike y → (m.log10 x).Alike (m.log10 y)
  sinh : ∀ {x y : Binary64}, x.Alike y → (m.sinh x).Alike (m.sinh y)
  cosh : ∀ {x y : Binary64}, x.Alike y → (m.cosh x).Alike (m.cosh y)
  tanh : ∀ {x y : Binary64}, x.Alike y → (m.tanh x).Alike (m.tanh y)
  cosh_ne_zero : ∀ x : Binary64, (m.cosh x).isZero = false

/-- The elementary functions to the first order at zero. -/
def nearZero : Elementary where
  sin x := x
  cos _ := .one
  tan x := x
  ln _ := .infinity true
  log10 _ := .infinity true
  sinh x := x
  cosh _ := .one
  tanh x := x
  pow _ _ := .one

theorem respectful_nearZero : nearZero.Respectful where
  sin h := h
  cos _ := Binary64.alike_refl _
  tan h := h
  ln _ := Binary64.alike_refl _
  log10 _ := Binary64.alike_refl _
  sinh h := h
  cosh _ := Binary64.alike_refl _
  tanh h := h
  cosh_ne_zero _ := Binary64.isZero_one

end Elementary

theorem Operator.sameOutcome_apply {o : Operator} (ho : o ≠ .power) (m : Elementary)
    {x x' y y' : Binary64} (h : x.Alike x') (h' : y.Alike y') :
    SameOutcome (o.apply m x y) (o.apply m x' y') := by
  match o with
  | .plus => exact .ok (h.add h')
  | .minus => exact .ok (h.sub h')
  | .times => exact .ok (h.mul h')
  | .over =>
    rw [apply, apply, ← h'.isZero_eq]
    cases hy : y.isZero with
    | true => exact .error .divisionByZero
    | false =>
      obtain rfl := h'.eq_of_isZero hy
      exact .ok (h.map (·.div y) fun s t => Binary64.alike_div_zeros s t y)
  | .power => exact absurd rfl ho

namespace Function

theorem reciprocal_eq {x y : Binary64} (h : x.Alike y) : reciprocal x = reciprocal y := by
  rw [reciprocal, reciprocal, ← h.isZero_eq]
  cases hx : x.isZero with
  | true => rfl
  | false => rw [h.eq_of_isZero hx]

theorem sameOutcome_sqrt {x y : Binary64} (h : x.Alike y) (m : Elementary) :
    SameOutcome (sqrt.apply m x) (sqrt.apply m y) := by
  rcases h.eq_or_zeros with rfl | ⟨s, t, rfl, rfl⟩
  · exact sameOutcome_refl _
  · cases s <;> cases t <;> exact .ok (Binary64.alike_zeros _ _)

theorem factorialValue_zero (s : Bool) :
    factorialValue (.finite s Magnitude.zero) = .ok (Binary64.productUpTo 0) := by
  have ht : Binary64.truncated? (.finite s Magnitude.zero) = some 0 := by
    have hz : Magnitude.zero.units / unitsPerOne = 0 := Nat.zero_div _
    cases s <;> simp [Binary64.truncated?, hz]
  simp [factorialValue, Binary64.truncatesBelowZero, Binary64.toCount?, ht]

theorem factorialValue_eq {x y : Binary64} (h : x.Alike y) :
    factorialValue x = factorialValue y := by
  rcases h.eq_or_zeros with rfl | ⟨s, t, rfl, rfl⟩
  · rfl
  · rw [factorialValue_zero, factorialValue_zero]

theorem sameOutcome_apply {m : Elementary} (hm : m.Respectful) (f : Function) {x y : Binary64}
    (h : x.Alike y) : SameOutcome (f.apply m x) (f.apply m y) := by
  cases f with
  | sin => exact .ok (hm.sin h)
  | cos => exact .ok (hm.cos h)
  | tan => exact .ok (hm.tan h)
  | cot =>
    rw [apply, apply, ← (hm.tan h).isZero_eq]
    cases hx : (m.tan x).isZero with
    | true => exact .error .cotangentUndefined
    | false =>
      rw [(hm.tan h).eq_of_isZero hx]
      exact sameOutcome_refl _
  | ln => exact .ok (hm.ln h)
  | log => exact .ok (hm.log10 h)
  | sqrt => exact sameOutcome_sqrt h m
  | sinh => exact .ok (hm.sinh h)
  | cosh => exact .ok (hm.cosh h)
  | tanh => exact .ok (hm.tanh h)
  | coth =>
    rw [apply, apply, reciprocal_eq (hm.tanh h)]
    exact sameOutcome_refl _
  | sech =>
    rw [apply, apply, (hm.cosh h).eq_of_isZero (hm.cosh_ne_zero x)]
    exact sameOutcome_refl _
  | csch =>
    rw [apply, apply, reciprocal_eq (hm.sinh h)]
    exact sameOutcome_refl _
  | factorial =>
    rw [apply, apply, factorialValue_eq h]
    exact sameOutcome_refl _

end Function

namespace Tree

def isPowerFree : Tree → Bool
  | .constant _ => true
  | .binary o l r => o != .power && l.isPowerFree && r.isPowerFree
  | .unary _ x => x.isPowerFree

/-- Trees of the same shape with numerically equal constants have alike values or the same error,
if no power is taken in them. -/
theorem value_of_alike {m : Elementary} (hm : m.Respectful) {t u : Tree} (h : t.alike u = true)
    (hp : t.isPowerFree = true) : SameOutcome (t.value m) (u.value m) := by
  induction t generalizing u with
  | constant v =>
    cases u with
    | constant w => exact .ok (.inl h)
    | _ => cases h
  | binary o l r hl hr =>
    cases u with
    | binary o' l' r' =>
      simp only [alike, isPowerFree, Bool.and_eq_true, beq_iff_eq, bne_iff_ne] at h hp
      obtain ⟨⟨rfl, hll⟩, hrr⟩ := h
      exact (hl hll hp.1.2).bind fun _ _ hx => (hr hrr hp.2).bind fun _ _ hy =>
        o.sameOutcome_apply hp.1.1 m hx hy
    | _ => cases h
  | unary f x hx =>
    cases u with
    | unary g y =>
      simp only [alike, Bool.and_eq_true, beq_iff_eq] at h
      obtain ⟨rfl, hxy⟩ := h
      exact (hx hxy hp).bind fun _ _ hv => f.sameOutcome_apply hm hv
    | _ => cases h

theorem value_of_alike_zeros :
    SameOutcome
      ((binary .minus (unary .sqrt (constant .zero))
        (binary .over (constant .one) (unary .csch (constant .zero)))).value Elementary.nearZero)
      ((binary .minus (unary .sqrt (constant (.neg .zero)))
        (binary .over (constant .one) (unary .csch (constant (.neg .zero))))).value
          Elementary.nearZero) :=
  value_of_alike Elementary.respectful_nearZero (by decide +kernel) (by decide)

end Tree
end Reckoner
