import Reckoner.Proofs.Stages

set_option autoImplicit false

namespace Reckoner

theorem Token.splitAtClosing_append_of_eq_some {inner : Nat} {ts window rest : List Token}
    (h : splitAtClosing inner ts = some (window, rest)) (us : List Token) :
    splitAtClosing inner (ts ++ us) = some (window, rest ++ us) := by
  obtain ⟨hc, he⟩ := covered_of_splitAtClosing h
  have hs := splitAtClosing_append window (.closing :: rest ++ us) hc
  rw [he, Nat.sub_self] at hs
  rw [eq_append_of_splitAtClosing h, List.append_assoc, hs]
  simp [splitAtClosing]

/-- The errors that say what is wrong with the tokens there are, not that some are missing. -/
inductive ReadingError.Final : ReadingError → Prop where
  | unexpected (t : Token) : Final (.unexpected t)
  | tooDeep (limit : Nat) : Final (.tooDeep limit)

namespace Move

def append (us : List Token) : Move → Move
  | .place x stack rest => .place x stack (rest ++ us)
  | .enter window frame stack rest => .enter window frame stack (rest ++ us)

/-- What comes of more tokens: the same, unless they are what was missing. -/
def Extends (us : List Token) (x y : Except ReadingError Move) : Prop :=
  y = x.map (append us) ∨ ∃ e, ¬ e.Final ∧ x = .error e

theorem extends_enterGroup (frame : Frame) (stack : List Operand) (ts us : List Token) :
    Extends us (enterGroup frame stack ts) (enterGroup frame stack (ts ++ us)) := by
  unfold enterGroup
  cases hs : Token.splitAtClosing 0 ts with
  | none => exact .inr ⟨.unbalanced, by rintro ⟨⟩, rfl⟩
  | some p =>
    left
    rw [Token.splitAtClosing_append_of_eq_some hs]
    rfl

theorem extends_operator (o : Operator) (stack : List Operand) (ts us : List Token) :
    Extends us (operator o stack ts) (operator o stack (ts ++ us)) := by
  cases ts with
  | nil => exact .inr ⟨.missingOperand, by rintro ⟨⟩, rfl⟩
  | cons k ts =>
    cases stack with
    | nil => exact .inl rfl
    | cons l stack =>
      cases k with
      | opening => exact extends_enterGroup (.right o l) stack ts us
      | _ => exact .inl rfl

theorem extends_function (f : Function) (stack : List Operand) (ts us : List Token) :
    Extends us (function f stack ts) (function f stack (ts ++ us)) := by
  cases ts with
  | nil =>
    cases hf : f.takesBare with
    | true => exact .inr ⟨.missingOperand, by rintro ⟨⟩, by simp [function, hf]⟩
    | false => exact .inr ⟨.missingParenthesis f, by rintro ⟨⟩, by simp [function, hf]⟩
  | cons k ts =>
    by_cases hk : k = .opening
    · subst hk
      exact extends_enterGroup (.argument f) stack ts us
    · left
      cases hf : f.takesBare with
      | true =>
        rw [function_of_takesBare hf hk, List.cons_append, function_of_takesBare hf hk]
        rfl
      | false =>
        rw [function_of_not_takesBare hf hk, List.cons_append, function_of_not_takesBare hf hk]
        rfl

/-- A move that is made looks at no token that it leaves. -/
theorem extends_first (stack : List Operand) (t : Token) (ts us : List Token) :
    Extends us (first stack t ts) (first stack t (ts ++ us)) := by
  cases t with
  | number v => exact .inl rfl
  | operator o => exact extends_operator o stack ts us
  | opening => exact extends_enterGroup .group stack ts us
  | closing => exact .inl rfl
  | function f => exact extends_function f stack ts us
  | bang => cases stack <;> exact .inl rfl

theorem first_append {stack : List Operand} {t : Token} {ts : List Token} {m : Move}
    (h : first stack t ts = .ok m) (us : List Token) :
    first stack t (ts ++ us) = .ok (m.append us) := by
  rcases extends_first stack t ts us with hx | ⟨e, -, hx⟩
  · rw [hx, h]
    rfl
  · rw [h] at hx
    cases hx

theorem first_append_of_final {stack : List Operand} {t : Token} {ts : List Token}
    {e : ReadingError} (he : e.Final) (h : first stack t ts = .error e) (us : List Token) :
    first stack t (ts ++ us) = .error e := by
  rcases extends_first stack t ts us with hx | ⟨e', hn, hx⟩
  · rw [hx, h]
    rfl
  · rw [h] at hx
    cases hx
    exact absurd he hn

end Move

theorem readWindow_append_of_final {e : ReadingError} (he : e.Final) {depth : Nat}
    {stack : List Operand} {ts : List Token} (h : readWindow depth stack ts = .error e)
    (us : List Token) : readWindow depth stack (ts ++ us) = .error e := by
  -- What is read in a window is left alone, so only the tokens behind it need the induction.
  fun_induction readWindow depth stack ts with
  | case1 depth x => cases h
  | case2 depth stack hs =>
    cases h
    cases he
  | case3 depth stack t ts e' hm =>
    cases h
    exact readWindow_error (Move.first_append_of_final he hm us) depth
  | case4 depth stack t ts y s rest hm ih =>
    rw [List.cons_append, readWindow_place (Move.first_append hm us)]
    rcases bind_eq_error h with h | ⟨s', hp, h⟩
    · rw [h]
      rfl
    · rw [hp]
      exact ih s' h
  | case5 depth stack t ts window frame s rest hm hd =>
    cases h
    exact readWindow_enter_tooDeep (Move.first_append hm us) hd
  | case6 depth stack t ts window frame s rest hm hd ihw ih =>
    rw [List.cons_append, readWindow_enter (Move.first_append hm us) (Nat.not_lt.mp hd)]
    rcases bind_eq_error h with h | ⟨z, hz, h⟩
    · rw [h]
      rfl
    rw [hz]
    change ((frame.fill z).push s >>= fun s => readWindow depth s (rest ++ us)) = .error e
    rcases bind_eq_error h with h | ⟨s', hp, h⟩
    · rw [h]
      rfl
    · rw [hp]
      exact ih s' h

theorem Tree.ofTokens_append_of_final {e : ReadingError} (he : e.Final) {ts : List Token}
    (h : ofTokens ts = .error e) (us : List Token) : ofTokens (ts ++ us) = .error e := by
  rw [ofTokens, readWindow_append_of_final he (readWindow_of_ofTokens h) us]
  rfl

/-- Whatever follows tokens of which one is unexpected, or which exceed a limit, they are refused
for the same token or the same limit. -/
theorem Tree.ofTokens_append_error (ts us : List Token) :
    (∀ t, ofTokens ts = .error (.unexpected t) → ofTokens (ts ++ us) = .error (.unexpected t)) ∧
      ∀ limit, ofTokens ts = .error (.tooDeep limit) →
        ofTokens (ts ++ us) = .error (.tooDeep limit) :=
  ⟨fun t h => ofTokens_append_of_final (.unexpected t) h us,
    fun limit h => ofTokens_append_of_final (.tooDeep limit) h us⟩

theorem Tree.ofTokens_append_error_bare :
    ofTokens ([.function .ln, .closing] ++ [.number .zero]) = .error (.unexpected .closing) ∧
      ofTokens ((.number .zero :: List.replicate 512 .bang) ++ [.closing]) =
        .error (.tooDeep 512) :=
  ⟨(ofTokens_append_error _ _).1 .closing (by decide +kernel),
    (ofTokens_append_error _ _).2 512 (by decide +kernel)⟩

example : Tree.ofTokens [.number .zero, .operator .plus] = .error .missingOperand ∧
    Tree.ofTokens ([.number .zero, .operator .plus] ++ [.number .zero]) =
      .ok (.binary .plus (.constant .zero) (.constant .zero)) := by decide +kernel

end Reckoner
