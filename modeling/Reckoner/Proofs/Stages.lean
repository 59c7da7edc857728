import Reckoner.Proofs.Grammar

/-!
The stages of reading: a move puts an operand on the stack, goes into a window, or, once the window
is read, goes on behind it. Main statement: every error of a window arises at a stage that is
reached from its beginning.
-/
set_option autoImplicit false

namespace Reckoner

/-- Tokens that begin by opening a window: the contents of a group, or the bare operand of a
function. Behind it the others are left. -/
inductive Opens : List Token → List Token → List Token → Prop where
  | group {before window : List Token} (hb : Token.Balanced before) (hw : Token.Balanced window)
      (rest : List Token) : Opens (before ++ .opening :: (window ++ .closing :: rest)) window rest
  | bare (f : Function) {k : Token} (hk : k ≠ .opening) (rest : List Token) :
      Opens (.function f :: k :: rest) [k] rest

theorem opens_group {before ts window rest : List Token} (hb : Token.Balanced before)
    (h : Token.splitAtClosing 0 ts = some (window, rest)) :
    Opens (before ++ .opening :: ts) window rest := by
  rw [Token.eq_append_of_splitAtClosing h]
  exact .group hb (Token.balanced_of_splitAtClosing h) rest

theorem Move.opens_of_first {stack s : List Operand} {t : Token} {ts window rest : List Token}
    {frame : Frame} (h : first stack t ts = .ok (.enter window frame s rest)) :
    Opens (t :: ts) window rest := by
  cases takes_of_first h with
  | group _ hs => exact opens_group Token.balanced_nil hs
  | call f _ hs =>
    exact opens_group (Token.balanced_singleton (t := .function f) (by simp) (by simp)) hs
  | operateGroup o l _ hs =>
    exact opens_group (Token.balanced_singleton (t := .operator o) (by simp) (by simp)) hs
  | @bare f hf k =>
    refine .bare f ?_ rest
    rintro rfl
    obtain ⟨w, r, hs, he⟩ := enterGroup_eq_ok (show enterGroup (.argument f) stack rest = _ from h)
    cases he
    have hb := (Token.balanced_of_splitAtClosing hs).even
    simp at hb

theorem eq_number_of_readWindow {depth : Nat} {k : Token} {z : Operand}
    (h : readWindow depth [] [k] = .ok z) : ∃ v, k = .number v := by
  cases k with
  | number v => exact ⟨v, rfl⟩
  | _ =>
    rw [readWindow_error rfl] at h
    cases h

theorem Opens.exists_balanced {ts window rest : List Token} (h : Opens ts window rest)
    {depth : Nat} {z : Operand} (hz : readWindow depth [] window = .ok z) :
    ∃ used, Token.Balanced used ∧ ts = used ++ rest := by
  cases h with
  | @group before _ hb hw =>
    refine ⟨before ++ (.opening :: window ++ [.closing]), hb.append hw.group, ?_⟩
    simp
  | @bare f k =>
    obtain ⟨v, rfl⟩ := eq_number_of_readWindow hz
    have hn : Token.Balanced [.number v] := Token.balanced_singleton (by simp) (by simp)
    exact ⟨[.function f, .number v], hn.cons (by simp) (by simp), rfl⟩

theorem Move.exists_balanced_of_first {stack s : List Operand} {t : Token} {ts rest : List Token}
    {x : Operand} (h : first stack t ts = .ok (.place x s rest)) :
    ∃ used, Token.Balanced used ∧ t :: ts = used ++ rest := by
  cases takes_of_first h with
  | number v => exact ⟨[.number v], Token.balanced_singleton (by simp) (by simp), rfl⟩
  | bang l => exact ⟨[.bang], Token.balanced_singleton (by simp) (by simp), rfl⟩
  | operate o l v =>
    have hn : Token.Balanced [.number v] := Token.balanced_singleton (by simp) (by simp)
    exact ⟨[.operator o, .number v], hn.cons (by simp) (by simp), rfl⟩

/-- Where no move begins, what is wrong stands behind balanced tokens. -/
inductive Fault : List Token → ReadingError → Prop where
  | missingOperand (ts : List Token) : Fault ts .missingOperand
  | missingParenthesis (f : Function) (ts : List Token) : Fault ts (.missingParenthesis f)
  | unbalanced {ts before post : List Token} (ht : ts = before ++ .opening :: post)
      (hp : Token.Covered 0 post) : Fault ts .unbalanced
  | unexpected {ts before post : List Token} {k : Token} (ht : ts = before ++ k :: post)
      (hb : Token.Balanced before) : Fault ts (.unexpected k)

theorem fault_enterGroup (before : List Token) {frame : Frame} {stack : List Operand}
    {ts : List Token} {e : ReadingError} (h : Move.enterGroup frame stack ts = .error e) :
    Fault (before ++ .opening :: ts) e := by
  unfold Move.enterGroup at h
  split at h
  · next hs =>
    cases h
    exact .unbalanced rfl (Token.covered_of_splitAtClosing_eq_none hs)
  · cases h

theorem Move.fault_of_first {stack : List Operand} {t : Token} {ts : List Token} {e : ReadingError}
    (h : first stack t ts = .error e) : Fault (t :: ts) e := by
  cases t with
  | number v => cases h
  | opening => exact fault_enterGroup [] h
  | closing =>
    cases h
    exact .unexpected (List.nil_append _).symm Token.balanced_nil
  | bang =>
    cases stack with
    | nil =>
      cases h
      exact .missingOperand _
    | cons x stack => cases h
  | operator o =>
    have ho : Token.Balanced [.operator o] := Token.balanced_singleton (by simp) (by simp)
    cases ts with
    | nil =>
      cases h
      exact .missingOperand _
    | cons k ts =>
      cases stack with
      | nil =>
        cases h
        exact .missingOperand _
      | cons l stack =>
        cases k with
        | number v => cases h
        | opening => exact fault_enterGroup [.operator o] h
        | _ =>
          cases h
          exact .unexpected rfl ho
  | function f =>
    cases ts with
    | nil =>
      cases h
      cases f.takesBare
      · exact .missingParenthesis f _
      · exact .missingOperand _
    | cons k ts =>
      by_cases hk : k = .opening
      · subst hk
        exact fault_enterGroup [.function f] h
      · cases hf : f.takesBare with
        | true =>
          rw [first, function_of_takesBare hf hk] at h
          cases h
        | false =>
          rw [first, function_of_not_takesBare hf hk] at h
          cases h
          exact .missingParenthesis f _

structure Stage where
  depth : Nat
  stack : List Operand
  tokens : List Token

namespace Stage

/-- The next operand, the operands below it, and the tokens behind it. -/
inductive Yields : Stage → Operand → List Operand → List Token → Prop where
  | place {depth : Nat} {stack s : List Operand} {t : Token} {ts rest : List Token} {x : Operand}
      (hm : Move.first stack t ts = .ok (.place x s rest)) :
      Yields ⟨depth, stack, t :: ts⟩ x s rest
  | frame {depth : Nat} {stack s : List Operand} {t : Token} {ts window rest : List Token}
      {frame : Frame} {z : Operand} (hm : Move.first stack t ts = .ok (.enter window frame s rest))
      (hz : readWindow (depth + 1) [] window = .ok z) :
      Yields ⟨depth, stack, t :: ts⟩ (frame.fill z) s rest

inductive Leads : Stage → Stage → Prop where
  | onward {a : Stage} {x : Operand} {s : List Operand} {rest : List Token}
      (hy : Yields a x s rest) (hx : x.height ≤ heightLimit) : Leads a ⟨a.depth, x :: s, rest⟩
  | inward {depth : Nat} {stack s : List Operand} {t : Token} {ts window rest : List Token}
      {frame : Frame} (hm : Move.first stack t ts = .ok (.enter window frame s rest))
      (hd : depth + 1 ≤ nestingLimit) :
      Leads ⟨depth, stack, t :: ts⟩ ⟨depth + 1, [], window⟩

inductive Reaches : Stage → Stage → Prop where
  | refl (a : Stage) : Reaches a a
  | step {a b c : Stage} (h : Leads a b) (hr : Reaches b c) : Reaches a c

inductive Refused : Stage → ReadingError → Prop where
  | incomplete {depth : Nat} {stack : List Operand} (h : ∀ x, stack ≠ [x]) :
      Refused ⟨depth, stack, []⟩ .incomplete
  | move {depth : Nat} {stack : List Operand} {t : Token} {ts : List Token} {e : ReadingError}
      (hm : Move.first stack t ts = .error e) : Refused ⟨depth, stack, t :: ts⟩ e
  | tall {a : Stage} {x : Operand} {s : List Operand} {rest : List Token}
      (hy : Yields a x s rest) (hx : heightLimit < x.height) : Refused a (.tooDeep heightLimit)
  | deep {depth : Nat} {stack s : List Operand} {t : Token} {ts window rest : List Token}
      {frame : Frame} (hm : Move.first stack t ts = .ok (.enter window frame s rest))
      (hd : nestingLimit ≤ depth) : Refused ⟨depth, stack, t :: ts⟩ (.tooDeep nestingLimit)

theorem Yields.exists_balanced {a : Stage} {x : Operand} {s : List Operand} {rest : List Token}
    (h : Yields a x s rest) : ∃ used, Token.Balanced used ∧ a.tokens = used ++ rest := by
  cases h with
  | place hm => exact Move.exists_balanced_of_first hm
  | frame hm hz => exact (Move.opens_of_first hm).exists_balanced hz

theorem Leads.tokens_cases {a b : Stage} (h : Leads a b) :
    (b.depth = a.depth ∧ ∃ used, Token.Balanced used ∧ a.tokens = used ++ b.tokens) ∨
      (b.depth = a.depth + 1 ∧ ∃ rest, Opens a.tokens b.tokens rest) := by
  cases h with
  | onward hy hx => exact .inl ⟨rfl, hy.exists_balanced⟩
  | inward hm hd => exact .inr ⟨rfl, _, Move.opens_of_first hm⟩

theorem exists_refused {depth : Nat} {stack : List Operand} {ts : List Token} {e : ReadingError}
    (h : readWindow depth stack ts = .error e) :
    ∃ b, Reaches ⟨depth, stack, ts⟩ b ∧ Refused b e := by
  fun_induction readWindow depth stack ts with
  | case1 depth x => cases h
  | case2 depth stack hs =>
    cases h
    exact ⟨_, .refl _, .incomplete hs⟩
  | case3 depth stack t ts e' hm =>
    cases h
    exact ⟨_, .refl _, .move hm⟩
  | case4 depth stack t ts y s rest hm ih =>
    rcases bind_eq_error h with h | ⟨s', hp, h⟩
    · obtain ⟨rfl, hy⟩ := Operand.push_eq_error h
      exact ⟨_, .refl _, .tall (.place hm) hy⟩
    · obtain ⟨rfl, hy⟩ := Operand.push_eq_ok hp
      obtain ⟨b, hr, hb⟩ := ih _ h
      exact ⟨b, .step (.onward (.place hm) hy) hr, hb⟩
  | case5 depth stack t ts window frame s rest hm hd =>
    cases h
    exact ⟨_, .refl _, .deep hm (Nat.le_of_lt_succ hd)⟩
  | case6 depth stack t ts window frame s rest hm hd ihw ih =>
    rcases bind_eq_error h with hw | ⟨z, hz, h⟩
    · obtain ⟨b, hr, hb⟩ := ihw hw
      exact ⟨b, .step (.inward hm (Nat.not_lt.mp hd)) hr, hb⟩
    rcases bind_eq_error h with h | ⟨s', hp, h⟩
    · obtain ⟨rfl, hy⟩ := Operand.push_eq_error h
      exact ⟨_, .refl _, .tall (.frame hm hz) hy⟩
    · obtain ⟨rfl, hy⟩ := Operand.push_eq_ok hp
      obtain ⟨b, hr, hb⟩ := ih _ h
      exact ⟨b, .step (.onward (.frame hm hz) hy) hr, hb⟩

theorem Reaches.carry_back {p : Stage → Prop} (leads : ∀ a b, Leads a b → p b → p a)
    {a b : Stage} (h : Reaches a b) : p b → p a := by
  induction h with
  | refl a => exact id
  | step h _ ih => exact fun hp => leads _ _ h (ih hp)

theorem Reaches.carry {p : Stage → Prop} (leads : ∀ a b, Leads a b → p a → p b)
    {a b : Stage} (h : Reaches a b) : p a → p b := by
  induction h with
  | refl a => exact id
  | step h _ ih => exact fun hp => ih (leads _ _ h hp)

/-- What holds wherever the error arises, and before each step if it holds after it, holds at the
beginning. -/
theorem of_error {p : Stage → Prop} {e : ReadingError} (refused : ∀ a, Refused a e → p a)
    (leads : ∀ a b, Leads a b → p b → p a) {depth : Nat} {stack : List Operand} {ts : List Token}
    (h : readWindow depth stack ts = .error e) : p ⟨depth, stack, ts⟩ := by
  obtain ⟨b, hr, he⟩ := exists_refused h
  exact hr.carry_back leads (refused b he)

end Stage

theorem Tree.readWindow_of_ofTokens {ts : List Token} {e : ReadingError}
    (h : Tree.ofTokens ts = .error e) : readWindow 0 [] ts = .error e := by
  rcases bind_eq_error h with h | ⟨x, -, h⟩
  · exact h
  · cases h

end Reckoner
