import Reckoner.Proofs.Grammar
import Reckoner.Proofs.Legible
import Reckoner.Proofs.Printing

set_option autoImplicit false

namespace Reckoner

theorem Tree.inorder_unary {f : Function} (hf : f ≠ .factorial) (x : Tree) :
    (unary f x).inorder = .function f :: x.inorder := by
  cases f <;> first | exact absurd rfl hf | rfl

/-- Reading moves no token. Only the factorial has to be written as a bang, for as a function it
would stand before its operand. -/
theorem Phrase.inorder_eq {ts : List Token} {t : Tree} {d : Nat} (h : Phrase ts t d)
    (hf : .function .factorial ∉ ts) : t.inorder = ts.filter fun k => !k.isParenthesis := by
  induction h with
  | number v => rfl
  | group h ih =>
    have hi := ih (by simpa using hf)
    simp [hi, Token.isParenthesis]
  | call f h ih =>
    simp only [List.cons_append, List.mem_cons, List.mem_append, not_or] at hf
    have hi := ih hf.2.2.1
    have hn : f ≠ .factorial := fun he => hf.1 (he ▸ rfl)
    simp [Tree.inorder_unary hn, hi, Token.isParenthesis]
  | bare ht v =>
    simp [Tree.inorder_unary (Function.ne_factorial_of_takesBare ht), Tree.inorder,
      Token.isParenthesis]
  | bang h ih =>
    have hi := ih (by simpa using hf)
    simp [Tree.inorder, hi, Token.isParenthesis]
  | operate h o v ih =>
    have hi := ih (by simpa using hf)
    simp [Tree.inorder, hi, Token.isParenthesis]
  | operateGroup h o hr ih ihr =>
    simp only [List.append_assoc, List.cons_append, List.mem_append, List.mem_cons, not_or] at hf
    have hi := ih hf.1
    have hir := ihr hf.2.2.2.1
    simp [Tree.inorder, hi, hir, Token.isParenthesis]

theorem Tree.isFinite_of_inorder {t : Tree} (h : ∀ v, .number v ∈ t.inorder → v.isFinite = true) :
    t.isFinite = true := by
  induction t with
  | constant v => exact h v (by simp [inorder])
  | binary o l r hl hr =>
    rw [isFinite, Bool.and_eq_true]
    exact ⟨hl fun v hv => h v (by simp [inorder, hv]), hr fun v hv => h v (by simp [inorder, hv])⟩
  | unary f x hx =>
    refine hx fun v hv => h v ?_
    by_cases hf : f = .factorial
    · subst hf
      simp [inorder, hv]
    · simp [inorder_unary hf, hv]

theorem Token.Legible.isFinite_of_mem {previous : Option Token} {ts : List Token}
    (h : Legible previous ts) : ∀ v, .number v ∈ ts → v.isFinite = true := by
  induction h with
  | nil => simp
  | raw _ ht h ih =>
    intro v hv
    rcases List.mem_cons.mp hv with rfl | hv
    · obtain ⟨m, rfl⟩ := ht
      rfl
    · exact ih v hv
  | signed hp m h ih =>
    intro v hv
    rcases List.mem_cons.mp hv with hv | hv
    · cases hv
      rfl
    · exact ih v hv

theorem Token.Legible.factorial_notMem {previous : Option Token} {ts : List Token}
    (h : Legible previous ts) : .function .factorial ∉ ts := by
  induction h with
  | nil => simp
  | raw _ ht h ih =>
    rw [List.mem_cons, not_or]
    exact ⟨fun he => by subst he; exact ht rfl, ih⟩
  | signed hp m h ih => simpa using ih

namespace Tree

theorem exists_tokens_of_ofText {s : Text} {t : Tree} (h : ofText s = .ok t) :
    ∃ ts, Token.ofText s = .ok ts ∧ ofTokens ts = .ok t := by
  unfold ofText at h
  split at h
  · cases h
  · next ts ht => exact ⟨ts, ht, h⟩

theorem exists_phrase_of_ofTokens {ts : List Token} {t : Tree} (h : ofTokens ts = .ok t) :
    ∃ d, Phrase ts t d := by
  obtain ⟨x, hx, h⟩ := bind_eq_ok h
  cases h
  obtain ⟨t, d, hp, rfl, -⟩ := completes_of_readWindow hx (Nat.zero_le _)
  exact ⟨d, hp⟩

/-- The tree of a text has all its tokens but the parentheses, in their order, and only finite
constants. -/
theorem inorder_of_ofText {s : Text} {t : Tree} (h : ofText s = .ok t) :
    ∃ ts, Token.ofText s = .ok ts ∧ t.inorder = ts.filter (fun k => !k.isParenthesis) ∧
      t.isFinite = true := by
  obtain ⟨ts, hs, ht⟩ := exists_tokens_of_ofText h
  obtain ⟨d, hp⟩ := exists_phrase_of_ofTokens ht
  have hl := Token.legible_of_ofText hs
  have hi := hp.inorder_eq hl.factorial_notMem
  refine ⟨ts, hs, hi, isFinite_of_inorder fun v hv => hl.isFinite_of_mem v ?_⟩
  rw [hi] at hv
  exact (List.mem_filter.mp hv).1

theorem inorder_of_ofText_bang :
    ∃ ts, Token.ofText "(ln 0)!--0".toList = .ok ts ∧
      (binary .minus (unary .factorial (unary .ln (constant .zero)))
        (constant (.neg .zero))).inorder = ts.filter (fun k => !k.isParenthesis) ∧
      (binary .minus (unary .factorial (unary .ln (constant .zero)))
        (constant (.neg .zero))).isFinite = true :=
  inorder_of_ofText (by decide +kernel)

end Tree
end Reckoner
