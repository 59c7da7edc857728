import Reckoner.Proofs.Balance
import Reckoner.Proofs.Spelling
import Reckoner.Tree.Basic

set_option autoImplicit false

namespace Reckoner

/-- Read from the left, never more than this many parentheses are open. -/
def Text.NestsWithin (n : Nat) (t : Text) : Prop :=
  ∀ p, p <+: t → p.count '(' ≤ p.count ')' + n

theorem Text.nestsWithin_of_notMem {t : Text} (h : '(' ∉ t) (n : Nat) : NestsWithin n t := by
  intro p hp
  have hz : p.count '(' = 0 := List.count_eq_zero.mpr fun hm => h (hp.subset hm)
  omega

theorem Text.nestsWithin_append {n : Nat} {s t : Text} (hs : s.count '(' = s.count ')') :
    NestsWithin n (s ++ t) ↔ NestsWithin n s ∧ NestsWithin n t := by
  constructor
  · intro h
    refine ⟨fun p hp => h p (hp.trans (List.prefix_append s t)), fun p hp => ?_⟩
    have hsp := h (s ++ p) ((List.prefix_append_right_inj s).mpr hp)
    rw [List.count_append, List.count_append] at hsp
    omega
  · intro h p hp
    obtain ⟨q, hq⟩ := hp
    rcases List.append_eq_append_iff.mp hq with ⟨a, ha, -⟩ | ⟨a, rfl, ha⟩
    · exact h.1 p ⟨a, ha.symm⟩
    · have hp := h.2 a ⟨q, ha.symm⟩
      rw [List.count_append, List.count_append]
      omega

theorem Text.nestsWithin_append_of_notMem {n : Nat} {s t : Text} (ho : '(' ∉ s) (hc : ')' ∉ s) :
    NestsWithin n (s ++ t) ↔ NestsWithin n t := by
  have hs : s.count '(' = s.count ')' := by
    rw [List.count_eq_zero.mpr ho, List.count_eq_zero.mpr hc]
  rw [nestsWithin_append hs]
  exact and_iff_right (nestsWithin_of_notMem ho n)

theorem Text.nestsWithin_opening {n : Nat} {t : Text} :
    NestsWithin (n + 1) ('(' :: t) ↔ NestsWithin n t := by
  constructor
  · intro h p hp
    have hc := h ('(' :: p) (List.cons_prefix_cons.mpr ⟨rfl, hp⟩)
    simp at hc
    omega
  · intro h p hp
    rcases List.prefix_cons_iff.mp hp with rfl | ⟨q, rfl, hq⟩
    · simp
    · have hc := h q hq
      simp
      omega

namespace Tree

theorem nestsWithin_parenthesized {n : Nat} {t : Text} (ht : t.count '(' = t.count ')') :
    Text.NestsWithin (n + 1) (parenthesized t) ↔ Text.NestsWithin n t := by
  have hc : Text.NestsWithin n [')'] := Text.nestsWithin_of_notMem (by decide) n
  rw [parenthesized, List.cons_append, Text.nestsWithin_opening, Text.nestsWithin_append ht]
  simp [hc]

theorem not_nestsWithin_parenthesized (t : Text) : ¬ Text.NestsWithin 0 (parenthesized t) := by
  intro h
  have ho := h ['('] (List.prefix_append ['('] (t ++ [')']))
  simp at ho

end Tree

theorem Token.Spells.parenthesized {t rest : Text} {ts : List Token}
    (h : Spells (some .opening) t ts (')' :: rest)) (previous : Option Token) :
    Spells previous (Tree.parenthesized t) (.opening :: ts ++ [.closing]) rest := by
  have hc := (spells_nil (some .closing) rest).symbol_cons (c := ')')
    (latest (some .opening) ts) rfl (by simp)
  exact (h.append hc).symbol_cons previous rfl (by simp)

namespace Tree

def isFinite : Tree → Bool
  | .constant v => v.isFinite
  | .binary _ l r => l.isFinite && r.isFinite
  | .unary _ x => x.isFinite

def tokens : Tree → List Token
  | .constant v => [.number v]
  | .binary o l r => .opening :: (l.tokens ++ .operator o :: r.tokens) ++ [.closing]
  | .unary .factorial x => .opening :: x.tokens ++ [.closing, .bang]
  | .unary f (.binary o l r) => .function f :: (Tree.binary o l r).tokens
  | .unary f x => .function f :: .opening :: x.tokens ++ [.closing]

/-- What stands between the outermost parentheses. -/
def inside : Tree → List Token
  | .constant v => [.number v]
  | .binary o l r => l.tokens ++ .operator o :: r.tokens
  | .unary .factorial x => x.tokens
  | .unary _ (.binary o l r) => l.tokens ++ .operator o :: r.tokens
  | .unary _ x => x.tokens

def nesting : Tree → Nat
  | .constant _ => 0
  | .binary _ l r => max l.nesting r.nesting + 1
  | .unary .factorial x => x.nesting + 1
  | .unary _ (.binary _ l r) => max l.nesting r.nesting + 1
  | .unary _ x => x.nesting + 1

theorem tokens_binary (o : Operator) (l r : Tree) :
    (binary o l r).tokens = .opening :: (binary o l r).inside ++ [.closing] := rfl

theorem tokens_factorial (x : Tree) :
    (unary .factorial x).tokens =
      .opening :: (unary .factorial x).inside ++ [.closing, .bang] := rfl

theorem tokens_unary {f : Function} (hf : f ≠ .factorial) (x : Tree) :
    (unary f x).tokens = .function f :: .opening :: (unary f x).inside ++ [.closing] := by
  cases f <;> first | exact absurd rfl hf | cases x <;> rfl

theorem unary_cases {f : Function} (hf : f ≠ .factorial) (x : Tree) :
    ((unary f x).inside = x.tokens ∧ (unary f x).nesting = x.nesting + 1 ∧
        (unary f x).text = f.text ++ parenthesized x.text) ∨
      (∃ o l r, x = .binary o l r) ∧ (unary f x).inside = x.inside ∧
        (unary f x).nesting = x.nesting ∧ (unary f x).text = f.text ++ x.text := by
  cases f <;> first | exact absurd rfl hf | cases x <;> simp [inside, nesting, text]

theorem nesting_unary_pos (f : Function) (x : Tree) : 0 < (unary f x).nesting := by
  by_cases hf : f = .factorial
  · subst hf
    simp [nesting]
  · rcases unary_cases hf x with ⟨-, hn, -⟩ | ⟨⟨o, l, r, rfl⟩, -, hn, -⟩
    · omega
    · rw [hn]
      simp [nesting]

theorem balanced_tokens_of_inside {t : Tree} (h : Token.Balanced t.inside) :
    Token.Balanced t.tokens := by
  cases t with
  | constant v => exact h
  | binary o l r => exact h.group
  | unary f x =>
    by_cases hf : f = .factorial
    · subst hf
      have hs : Token.Balanced [.bang] := Token.balanced_singleton (by simp) (by simp)
      have hb := h.group.append hs
      simpa [tokens_factorial] using hb
    · rw [tokens_unary hf]
      exact h.group.cons (by simp) (by simp)

theorem balanced_inside (t : Tree) : Token.Balanced t.inside := by
  induction t with
  | constant v => exact Token.balanced_singleton (by simp) (by simp)
  | binary o l r hl hr =>
    have hr := (balanced_tokens_of_inside hr).cons (t := .operator o) (by simp) (by simp)
    exact (balanced_tokens_of_inside hl).append hr
  | unary f x hx =>
    by_cases hf : f = .factorial
    · subst hf
      exact balanced_tokens_of_inside hx
    · rcases unary_cases hf x with ⟨hi, -⟩ | ⟨-, hi, -⟩
      · rw [hi]
        exact balanced_tokens_of_inside hx
      · rwa [hi]

theorem parenthesis_notMem_plain {v : Binary64} {c : Char} (h : c = '(' ∨ c = ')') :
    c ∉ v.plain := by
  intro hm
  cases v with
  | infinity s => cases s <;> rcases h with rfl | rfl <;> revert hm <;> decide
  | nan => rcases h with rfl | rfl <;> revert hm <;> decide
  | finite s m =>
    rcases List.mem_append.mp hm with hm | hm
    · cases s <;> rcases h with rfl | rfl <;> revert hm <;> decide
    · have hn := Decimal.isNumeralChar_of_mem_plain hm
      rcases h with rfl | rfl <;> revert hn <;> decide

theorem count_parenthesized {t : Text} (h : t.count '(' = t.count ')') :
    (parenthesized t).count '(' = (parenthesized t).count ')' := by
  simp [parenthesized, h]

/-- The written form spells the tokens of the tree. Only a constant needs a place where an operand
must begin. -/
theorem spells_text {t : Tree} (hf : t.isFinite = true) (previous : Option Token)
    (hp : ∀ v, t = .constant v → Token.awaitsOperand previous = true) {rest : Text}
    (hb : Breaks rest) : Token.Spells previous t.text t.tokens rest := by
  induction t generalizing previous rest with
  | constant v => exact Token.spells_value hf previous (fun _ _ => hp v rfl) hb
  | binary o l r hl hr =>
    rw [isFinite, Bool.and_eq_true] at hf
    have hc : Breaks (')' :: rest) := breaks_cons (by decide)
    have hr := hr hf.2 (some (.operator o)) (fun _ _ => rfl) hc
    have ho := ((hr.blank_cons (c := ' ') (by decide)).symbol_cons
      (Token.latest (some .opening) l.tokens) (Token.ofSymbol?_operator o)
      (fun _ _ => breaks_cons (by decide))).blank_cons (c := ' ') (by decide)
    have hl := hl hf.1 (some .opening) (fun _ _ => rfl)
      (breaks_cons (c := ' ') (t := o.symbol :: ' ' :: r.text ++ ')' :: rest) (by decide))
    exact (hl.append ho).parenthesized previous
  | unary f x hx =>
    by_cases hfact : f = .factorial
    · subst hfact
      have hi := hx hf (some .opening) (fun _ _ => rfl)
        (breaks_cons (c := ')') (t := '!' :: rest) (by decide))
      have hm := (Token.spells_nil (some .bang) rest).symbol_cons (c := '!')
        (Token.latest previous (.opening :: x.tokens ++ [.closing])) rfl (by simp)
      have ha := (hi.parenthesized previous).append hm
      simpa [text, tokens] using ha
    · -- Either way the name is written before a parenthesis, where it cannot go on.
      have hn : ∀ t : Text, Token.Spells previous f.text [.function f] (parenthesized t ++ rest) :=
        fun t => Token.spells_function (by simp)
          (Function.leading?_text hfact (by decide) _) previous
      rcases unary_cases hfact x with ⟨hi, -, ht⟩ | ⟨⟨o, l, r, rfl⟩, hi, -, ht⟩
      · have hx := hx hf (some .opening) (fun _ _ => rfl)
          (breaks_cons (c := ')') (t := rest) (by decide))
        have ha := (hn x.text).append (hx.parenthesized _)
        rw [tokens_unary hfact, hi, ht]
        simpa using ha
      · have hx := hx hf (some (.function f)) (fun v hv => by cases hv) hb
        rw [tokens_unary hfact, hi, ht]
        exact (hn _).append hx

theorem notMem_operator (o : Operator) :
    '(' ∉ [' ', o.symbol, ' '] ∧ ')' ∉ [' ', o.symbol, ' '] := by cases o <;> decide

theorem notMem_function (f : Function) : '(' ∉ f.text ∧ ')' ∉ f.text := by cases f <;> decide

theorem count_operation {s t : Text} (o : Operator) (hs : s.count '(' = s.count ')')
    (ht : t.count '(' = t.count ')') :
    (s ++ ' ' :: o.symbol :: ' ' :: t).count '(' =
      (s ++ ' ' :: o.symbol :: ' ' :: t).count ')' := by
  have ho : o.symbol ≠ '(' ∧ o.symbol ≠ ')' := by cases o <;> decide
  simp [hs, ht, ho]

theorem count_text (t : Tree) : t.text.count '(' = t.text.count ')' := by
  induction t with
  | constant v =>
    rw [text, List.count_eq_zero.mpr (parenthesis_notMem_plain (.inl rfl)),
      List.count_eq_zero.mpr (parenthesis_notMem_plain (.inr rfl))]
  | binary o l r hl hr =>
    exact count_parenthesized (count_operation o hl hr)
  | unary f x hx =>
    by_cases hf : f = .factorial
    · subst hf
      simpa [text, List.count_append] using count_parenthesized hx
    · have ho := List.count_eq_zero.mpr (notMem_function f).1
      have hc := List.count_eq_zero.mpr (notMem_function f).2
      have hp := count_parenthesized hx
      rcases unary_cases hf x with ⟨-, -, ht⟩ | ⟨-, -, -, ht⟩
      · rw [ht, List.count_append, List.count_append]
        omega
      · rw [ht, List.count_append, List.count_append]
        omega

theorem nestsWithin_text {n : Nat} {t : Tree} : Text.NestsWithin n t.text ↔ t.nesting ≤ n := by
  induction t generalizing n with
  | constant v =>
    simp [text, nesting, Text.nestsWithin_of_notMem (parenthesis_notMem_plain (.inl rfl))]
  | binary o l r hl hr =>
    cases n with
    | zero => simp [text, nesting, not_nestsWithin_parenthesized]
    | succ n =>
      have ho := notMem_operator o
      have hi : Text.NestsWithin n (l.text ++ ([' ', o.symbol, ' '] ++ r.text)) ↔
          l.nesting ≤ n ∧ r.nesting ≤ n := by
        rw [Text.nestsWithin_append l.count_text,
          Text.nestsWithin_append_of_notMem ho.1 ho.2, hl, hr]
      have hc := count_operation o l.count_text r.count_text
      rw [text, nestsWithin_parenthesized hc, nesting, Nat.add_le_add_iff_right, Nat.max_le]
      exact hi
  | unary f x hx =>
    have hp : Text.NestsWithin n (parenthesized x.text) ↔ x.nesting + 1 ≤ n := by
      cases n with
      | zero => simp [not_nestsWithin_parenthesized]
      | succ n => rw [nestsWithin_parenthesized x.count_text, hx, Nat.add_le_add_iff_right]
    by_cases hf : f = .factorial
    · subst hf
      have hb : Text.NestsWithin n ['!'] := Text.nestsWithin_of_notMem (by decide) n
      rw [text, nesting, Text.nestsWithin_append (count_parenthesized x.count_text), hp]
      simp [hb]
    · have hn := notMem_function f
      rcases unary_cases hf x with ⟨-, hl, ht⟩ | ⟨-, -, hl, ht⟩
      · rw [ht, hl, Text.nestsWithin_append_of_notMem hn.1 hn.2, hp]
      · rw [ht, hl, Text.nestsWithin_append_of_notMem hn.1 hn.2, hx]

end Tree
end Reckoner
