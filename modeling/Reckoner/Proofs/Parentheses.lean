import Reckoner.Proofs.Stages

set_option autoImplicit false

namespace Reckoner

namespace Token

/-- Some opening parenthesis is never closed: counted from it, the balance never comes back to
zero. -/
def Unclosed (ts : List Token) : Prop :=
  ∃ before post, ts = before ++ .opening :: post ∧
    ∀ p, p <+: post → 1 + p.count .opening ≠ p.count .closing

def Overclosed (ts : List Token) : Prop :=
  ∃ p, p <+: ts ∧ p.count .opening < p.count .closing

theorem unclosed_iff {ts : List Token} :
    Unclosed ts ↔ ∃ before post, ts = before ++ .opening :: post ∧ Covered 0 post := by
  simp only [Unclosed, covered_iff_forall_ne, Nat.zero_add]

theorem Unclosed.append_left {ts : List Token} (h : Unclosed ts) (used : List Token) :
    Unclosed (used ++ ts) := by
  obtain ⟨before, post, rfl, hp⟩ := h
  exact ⟨used ++ before, post, by rw [List.append_assoc], hp⟩

theorem overclosed_closing (ts : List Token) : Overclosed (.closing :: ts) :=
  ⟨[.closing], List.prefix_append [.closing] ts, by simp⟩

theorem Overclosed.append_left {ts used : List Token} (h : Overclosed ts) (hu : Balanced used) :
    Overclosed (used ++ ts) := by
  obtain ⟨p, hp, hlt⟩ := h
  refine ⟨used ++ p, (List.prefix_append_right_inj used).mpr hp, ?_⟩
  have he := hu.even
  simp only [List.count_append]
  omega

theorem Balanced.not_unclosed {ts : List Token} (h : Balanced ts) : ¬ Unclosed ts := by
  rw [unclosed_iff]
  rintro ⟨before, post, rfl, hp⟩
  have hb := h.covered before (List.prefix_append before _)
  have he := h.even
  have hc := hp.count_le
  simp only [List.count_append, List.count_cons_self,
    List.count_cons_of_ne (show Token.opening ≠ .closing by simp)] at he
  omega

theorem Balanced.not_overclosed {ts : List Token} (h : Balanced ts) : ¬ Overclosed ts := by
  rintro ⟨p, hp, hlt⟩
  have hc := h.covered p hp
  omega

end Token

open Token

theorem Opens.not_unclosed {ts window rest : List Token} (h : Opens ts window rest) :
    ¬ Unclosed window := by
  cases h with
  | group hb hw => exact hw.not_unclosed
  | @bare f k hk =>
    rintro ⟨before, post, he, -⟩
    rcases List.singleton_eq_append_iff.mp he with ⟨-, he⟩ | ⟨-, he⟩
    · exact hk (List.cons.inj he).1.symm
    · cases he

/-- Only as the operand of a function can a closing parenthesis be all of a window. -/
theorem Opens.overclosed {ts window rest : List Token} (h : Opens ts window rest)
    (hw : Overclosed window) : Overclosed ts := by
  cases h with
  | group hb hb' => exact absurd hw hb'.not_overclosed
  | @bare f k hk =>
    obtain ⟨p, hp, hlt⟩ := hw
    refine ⟨.function f :: p, ?_, by simpa using hlt⟩
    exact List.cons_prefix_cons.mpr ⟨rfl, hp.trans (List.prefix_append [k] rest)⟩

theorem unclosed_of_readWindow {depth : Nat} {stack : List Operand} {ts : List Token}
    (h : readWindow depth stack ts = .error .unbalanced) : Unclosed ts := by
  refine Stage.of_error (p := fun a => Unclosed a.tokens) (fun a ha => ?_) (fun a b hl hb => ?_) h
  · cases ha with
    | move hm =>
      cases Move.fault_of_first hm with
      | unbalanced ht hp => exact unclosed_iff.mpr ⟨_, _, ht, hp⟩
  · rcases hl.tokens_cases with ⟨-, used, -, ht⟩ | ⟨-, rest, ho⟩
    · rw [ht]
      exact hb.append_left used
    · exact absurd hb ho.not_unclosed

theorem overclosed_of_readWindow {depth : Nat} {stack : List Operand} {ts : List Token}
    (h : readWindow depth stack ts = .error (.unexpected .closing)) : Overclosed ts := by
  refine Stage.of_error (p := fun a => Overclosed a.tokens) (fun a ha => ?_) (fun a b hl hb => ?_) h
  · cases ha with
    | move hm =>
      cases Move.fault_of_first hm with
      | unexpected ht hb =>
        rw [ht]
        exact (overclosed_closing _).append_left hb
  · rcases hl.tokens_cases with ⟨-, used, hu, ht⟩ | ⟨-, rest, ho⟩
    · rw [ht]
      exact hb.append_left hu
    · exact ho.overclosed hb

/-- Tokens are called unbalanced only if some opening parenthesis is never closed, and a closing
one unexpected only if it is one too many. So neither is said of balanced tokens, whatever they
stand in. -/
theorem Tree.ofTokens_parentheses (ts : List Token) :
    (Tree.ofTokens ts = .error .unbalanced → Unclosed ts) ∧
      (Tree.ofTokens ts = .error (.unexpected .closing) → Overclosed ts) ∧
      (Balanced ts → ∀ e ∈ [ReadingError.unbalanced, .unexpected .closing],
        Tree.ofTokens ts ≠ .error e ∧ ∀ depth stack, readWindow depth stack ts ≠ .error e) := by
  refine ⟨fun h => unclosed_of_readWindow (readWindow_of_ofTokens h),
    fun h => overclosed_of_readWindow (readWindow_of_ofTokens h), fun hb e he => ?_⟩
  have hw : ∀ depth stack, readWindow depth stack ts ≠ .error e := by
    intro depth stack h
    rw [List.mem_cons, List.mem_singleton] at he
    rcases he with rfl | rfl
    · exact hb.not_unclosed (unclosed_of_readWindow h)
    · exact hb.not_overclosed (overclosed_of_readWindow h)
  exact ⟨fun h => hw 0 [] (readWindow_of_ofTokens h), hw⟩

theorem Tree.ofTokens_parentheses_bare :
    Unclosed [.function .ln, .opening, .opening, .closing] ∧
      Overclosed [.number .zero, .function .ln, .closing, .opening] ∧
      ∀ depth stack, readWindow depth stack [.opening, .closing] ≠ .error .unbalanced := by
  have hb : Balanced [.opening, .closing] := balanced_nil.group
  exact ⟨(Tree.ofTokens_parentheses _).1 (by decide +kernel),
    (Tree.ofTokens_parentheses _).2.1 (by decide +kernel),
    ((Tree.ofTokens_parentheses _).2.2 hb _ List.mem_cons_self).2⟩

end Reckoner
