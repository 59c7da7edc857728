import Reckoner.Proofs.Printing

set_option autoImplicit false

namespace Reckoner

theorem Token.Balanced.eq_of_append {ts us rest rest' : List Token} (ht : Balanced ts)
    (hu : Balanced us) (h : ts ++ .closing :: rest = us ++ .closing :: rest') :
    ts = us ∧ rest = rest' := by
  have hs := ht.splitAtClosing rest
  rw [h, hu.splitAtClosing rest', Option.some.injEq, Prod.mk.injEq] at hs
  exact ⟨hs.1.symm, hs.2.symm⟩

namespace Tree

theorem ofText_eq_tokens {t : Tree} (hf : t.isFinite = true) : Token.ofText t.text = .ok t.tokens :=
  (spells_text hf none (fun _ _ => rfl) breaks_nil).ofText_eq

theorem eq_constant_of_number {v : Binary64} {t : Tree} {r s : List Token}
    (h : .number v :: r = t.tokens ++ s) : constant v = t ∧ r = s := by
  cases t with
  | constant w => simpa [tokens] using h
  | binary o l r => cases h
  | unary f x =>
    by_cases hf : f = .factorial
    · subst hf
      cases h
    · rw [tokens_unary hf] at h
      cases h

theorem eq_group_of_opening {t : Tree} {r s : List Token} (h : .opening :: r = t.tokens ++ s) :
    (∃ o l r, t = binary o l r) ∨ ∃ x, t = unary .factorial x := by
  cases t with
  | constant v => cases h
  | binary o l r => exact .inl ⟨o, l, r, rfl⟩
  | unary f x =>
    by_cases hf : f = .factorial
    · subst hf
      exact .inr ⟨x, rfl⟩
    · rw [tokens_unary hf] at h
      cases h

theorem eq_unary_of_function {f : Function} {t : Tree} {r s : List Token}
    (h : .function f :: r = t.tokens ++ s) : ∃ x, t = unary f x := by
  cases t with
  | constant v => cases h
  | binary o l r => cases h
  | unary g x =>
    by_cases hg : g = .factorial
    · subst hg
      cases h
    · rw [tokens_unary hg] at h
      cases h
      exact ⟨x, rfl⟩

/-- Tokens that begin with those of this tree begin with those of no other, whatever follows. -/
def SelfDelimiting (t : Tree) : Prop :=
  ∀ ⦃u : Tree⦄ ⦃r s : List Token⦄, t.tokens ++ r = u.tokens ++ s → t = u ∧ r = s

theorem SelfDelimiting.eq_of_tokens {t u : Tree} (ht : t.SelfDelimiting)
    (h : t.tokens = u.tokens) : t = u :=
  (ht (congrArg (· ++ []) h)).1

theorem selfDelimiting_constant (v : Binary64) : (constant v).SelfDelimiting :=
  fun _ _ _ h => eq_constant_of_number h

theorem SelfDelimiting.inside_binary_ne {o : Operator} {l r t : Tree}
    (h : (binary o l r).SelfDelimiting) : (binary o l r).inside ≠ t.tokens := by
  intro hi
  have ht : (binary o l r).tokens ++ [.bang] = (unary .factorial t).tokens ++ [] := by
    rw [tokens_binary, hi, tokens_factorial, inside]
    simp
  cases (h ht).1

theorem SelfDelimiting.binary {l r : Tree} (hl : l.SelfDelimiting) (hr : r.SelfDelimiting)
    (o : Operator) : (binary o l r).SelfDelimiting := by
  intro u p q h
  rcases eq_group_of_opening h with ⟨o', l', r', rfl⟩ | ⟨x, rfl⟩
  · simp only [tokens, List.cons_append, List.append_assoc, List.cons.injEq, true_and] at h
    obtain ⟨rfl, ho⟩ := hl h
    obtain ⟨rfl, hc⟩ : o = o' ∧ _ := by simpa using ho
    obtain ⟨rfl, hp⟩ := hr hc
    simpa using hp
  · simp only [tokens, List.cons_append, List.append_assoc, List.cons.injEq, true_and] at h
    cases (hl h).2

theorem SelfDelimiting.factorial {x : Tree} (hx : x.SelfDelimiting) :
    (unary .factorial x).SelfDelimiting := by
  intro u p q h
  rcases eq_group_of_opening h with ⟨o, l, r, rfl⟩ | ⟨y, rfl⟩
  · simp only [tokens, List.cons_append, List.append_assoc, List.cons.injEq, true_and] at h
    cases (hx h).2
  · simp only [tokens, List.cons_append, List.append_assoc, List.cons.injEq, true_and] at h
    obtain ⟨rfl, hp⟩ := hx h
    simpa using hp

theorem SelfDelimiting.eq_of_inside {f : Function} (hf : f ≠ .factorial) {x y : Tree}
    (hx : x.SelfDelimiting) (h : (unary f x).inside = (unary f y).inside) : x = y := by
  -- An operation shares its parentheses with the call around it, any other operand has its own.
  rcases unary_cases hf x with ⟨hi, -⟩ | ⟨⟨o, l, r, rfl⟩, hi, -⟩
  · rcases unary_cases hf y with ⟨hj, -⟩ | ⟨⟨o, l, r, rfl⟩, hj, -⟩
    · rw [hi, hj] at h
      exact hx.eq_of_tokens h
    · rw [hi, hj] at h
      rw [← List.append_nil x.tokens] at h
      cases (hx h).2
  · rcases unary_cases hf y with ⟨hj, -⟩ | ⟨⟨o', l', r', rfl⟩, hj, -⟩
    · rw [hi, hj] at h
      exact absurd h hx.inside_binary_ne
    · rw [hi, hj] at h
      exact hx.eq_of_tokens (by rw [tokens_binary, h, tokens_binary])

theorem SelfDelimiting.unary {f : Function} (hf : f ≠ .factorial) {x : Tree}
    (hx : x.SelfDelimiting) : (unary f x).SelfDelimiting := by
  intro u p q h
  rw [tokens_unary hf] at h
  obtain ⟨y, rfl⟩ := eq_unary_of_function h
  rw [tokens_unary hf] at h
  simp only [List.cons_append, List.append_assoc, List.cons.injEq, true_and] at h
  obtain ⟨hi, rfl⟩ := (balanced_inside _).eq_of_append (balanced_inside _) h
  exact ⟨congrArg _ (hx.eq_of_inside hf hi), rfl⟩

theorem selfDelimiting (t : Tree) : t.SelfDelimiting := by
  induction t with
  | constant v => exact selfDelimiting_constant v
  | binary o l r hl hr => exact hl.binary hr o
  | unary f x hx =>
    by_cases hf : f = .factorial
    · subst hf
      exact hx.factorial
    · exact hx.unary hf

/-- Trees of finite constants are written alike only if they are the same. -/
theorem text_eq_iff {t u : Tree} (ht : t.isFinite = true) (hu : u.isFinite = true) :
    t.text = u.text ↔ t = u := by
  constructor
  · intro h
    have hs := ofText_eq_tokens ht
    rw [h, ofText_eq_tokens hu, Except.ok.injEq] at hs
    exact t.selfDelimiting.eq_of_tokens hs.symm
  · exact congrArg text

/-- The first of these is read back as the second, and so is the second; still they are written
apart. -/
theorem text_ne_of_factorial :
    (binary .plus (constant .zero) (unary .factorial (constant (.neg .zero)))).text ≠
      (unary .factorial (binary .plus (constant .zero) (constant (.neg .zero)))).text :=
  mt (text_eq_iff rfl rfl).mp (by decide)

end Tree
end Reckoner
