import Reckoner.Proofs.Spacing

set_option autoImplicit false

namespace Reckoner

namespace Lexeme

def beginsOperand (ls : List Lexeme) : Nat → Bool
  | 0 => true
  | i + 1 =>
    match ls[i]? with
    | some ⟨.operator _, _, _⟩ | some ⟨.opening, _, _⟩ => true
    | _ => false

/-- The literal that has the lexeme at an index as its sign. The sign is a minus, where an operand
begins, and the literal begins where it ends. -/
def signed? (ls : List Lexeme) (i : Nat) : Option Binary64 :=
  match ls[i]?, ls[i + 1]? with
  | some ⟨.operator .minus, _, stop⟩, some ⟨.number v, start, _⟩ =>
    if beginsOperand ls i && start == stop then some v else none
  | _, _ => none

def hasSign (ls : List Lexeme) : Nat → Bool
  | 0 => false
  | i + 1 => (signed? ls i).isSome

/-- What the lexeme at an index adds to the tokens: a sign the literal with this sign, a literal
behind its sign nothing, and any other lexeme its token. -/
def tokensAt (ls : List Lexeme) (i : Nat) : List Token :=
  match signed? ls i with
  | some v => [.number v.neg]
  | none => if hasSign ls i then [] else (ls[i]?.map token).toList

theorem beginsOperand_succ {ls : List Lexeme} {i : Nat} {l : Lexeme} (h : ls[i]? = some l) :
    beginsOperand ls (i + 1) = Token.awaitsOperand (some l.token) := by
  obtain ⟨t, start, stop⟩ := l
  rw [beginsOperand, h]
  cases t <;> rfl

theorem signed?_eq_some_iff {ls : List Lexeme} {i : Nat} {v : Binary64} :
    signed? ls i = some v ↔ ∃ l k, ls[i]? = some l ∧ ls[i + 1]? = some k ∧
      l.token = .operator .minus ∧ k.token = .number v ∧ k.start = l.stop ∧
      beginsOperand ls i = true := by
  unfold signed?
  constructor
  · intro h
    split at h
    · next first stop v' start last hl hk =>
      obtain ⟨hb, he⟩ := Option.ite_none_right_eq_some.mp h
      cases he
      rw [Bool.and_eq_true, beq_iff_eq] at hb
      exact ⟨_, _, hl, hk, rfl, rfl, hb.2, hb.1⟩
    · cases h
  · rintro ⟨⟨_, first, stop⟩, ⟨_, start, last⟩, hl, hk, rfl, rfl, rfl, hb⟩
    rw [hl, hk]
    simp [hb]

theorem of_drop_eq_cons {ls rest : List Lexeme} {i : Nat} {l : Lexeme} (h : ls.drop i = l :: rest) :
    ls[i]? = some l ∧ ls.drop (i + 1) = rest := by
  constructor
  · rw [← List.head?_drop, h]
    rfl
  · rw [← List.tail_drop, h]
    rfl

theorem tokensAt_of_signed?_eq_none {ls : List Lexeme} {i : Nat} {l : Lexeme}
    (hl : ls[i]? = some l) (hs : signed? ls i = none) (hn : hasSign ls i = false) :
    tokensAt ls i = [l.token] := by
  simp [tokensAt, hs, hn, hl]

theorem signed?_eq_none {ls : List Lexeme} {i : Nat} {l : Lexeme} (hl : ls[i]? = some l)
    (ht : l.token ≠ .operator .minus) : signed? ls i = none := by
  rw [Option.eq_none_iff_forall_ne_some]
  intro v hv
  obtain ⟨k, -, hk, -, hm, -⟩ := signed?_eq_some_iff.mp hv
  rw [hl] at hk
  cases hk
  exact ht hm

theorem hasSign_eq_false {ls : List Lexeme} {i : Nat} {l : Lexeme} (hl : ls[i]? = some l)
    (ht : ∀ v, l.token ≠ .number v) : hasSign ls i = false := by
  cases i with
  | zero => rfl
  | succ i =>
    rw [hasSign, ← Bool.not_eq_true, Option.isSome_iff_exists]
    rintro ⟨v, hv⟩
    obtain ⟨-, k, -, hk, -, hm, -⟩ := signed?_eq_some_iff.mp hv
    rw [hl] at hk
    cases hk
    exact ht v hm

theorem tokensAt_of_signed? {ls : List Lexeme} {i : Nat} {v : Binary64}
    (h : signed? ls i = some v) :
    tokensAt ls i = [.number v.neg] ∧ signed? ls (i + 1) = none ∧ tokensAt ls (i + 1) = [] := by
  obtain ⟨l, k, hl, hk, -, hv, -⟩ := signed?_eq_some_iff.mp h
  have hn : signed? ls (i + 1) = none := signed?_eq_none hk (by simp [hv])
  refine ⟨by simp [tokensAt, h], hn, by simp [tokensAt, hn, hasSign, h]⟩

end Lexeme

theorem map_eq_ok_iff {ε α β : Type} {x : Except ε α} {a : α} {r : Prop}
    (h : ∀ b, x = .ok b ↔ r ∧ b = a) (f : α → β) {c : β} :
    x.map f = .ok c ↔ r ∧ c = f a := by
  constructor
  · intro hc
    obtain ⟨b, hb, rfl⟩ := map_eq_ok hc
    obtain ⟨hr, rfl⟩ := (h b).mp hb
    exact ⟨hr, rfl⟩
  · rintro ⟨hr, rfl⟩
    rw [(h a).mpr ⟨hr, rfl⟩]
    rfl

namespace Token

open Lexeme

/-- Settling goes by what it has settled last, the rule by the lexemes beside a minus. They come to
the same as long as both see an operand begin, and no sign waits for its literal. -/
theorem settle_eq_ok_iff_of_drop (size : Nat) {ls : List Lexeme} {previous : Option Token}
    {rest : List Lexeme} {i : Nat} (hd : ls.drop i = rest)
    (hp : awaitsOperand previous = beginsOperand ls i) (hn : hasSign ls i = false)
    {ts : List Token} :
    settle size previous rest = .ok ts ↔ (∀ l ∈ rest, refusal? size l = none) ∧
      ts = (List.range' i rest.length).flatMap (tokensAt ls) := by
  induction previous, rest using settle_induction generalizing i ts with
  | nil previous =>
    rw [settle]
    simp [eq_comm]
  | fold previous start next stop v rest ha ih =>
    obtain ⟨hl, hd⟩ := of_drop_eq_cons hd
    obtain ⟨hk, hd⟩ := of_drop_eq_cons hd
    have hs : signed? ls i = some v :=
      signed?_eq_some_iff.mpr ⟨_, _, hl, hk, rfl, rfl, rfl, hp.symm.trans ha⟩
    obtain ⟨ht, hs', ht'⟩ := tokensAt_of_signed? hs
    have hb : awaitsOperand (some (.number v.neg)) = beginsOperand ls (i + 2) :=
      (beginsOperand_succ hk).symm
    have hn' : hasSign ls (i + 2) = false := by rw [hasSign, hs', Option.isSome_none]
    have hpieces : (List.range' i (rest.length + 2)).flatMap (tokensAt ls) =
        .number v.neg :: (List.range' (i + 2) rest.length).flatMap (tokensAt ls) := by
      rw [List.range'_succ, List.range'_succ, List.flatMap_cons, List.flatMap_cons, ht, ht']
      rfl
    rw [settle_fold ha, List.length_cons, List.length_cons, hpieces,
      map_eq_ok_iff fun us => ih hd hb hn']
    simp [refusal?]
  | keep previous l rest hf ih =>
    obtain ⟨hl, hd⟩ := of_drop_eq_cons hd
    have hs : signed? ls i = none := by
      rw [Option.eq_none_iff_forall_ne_some]
      intro v hv
      obtain ⟨l', k, hl', hk, hm, hkv, he, hb⟩ := signed?_eq_some_iff.mp hv
      rw [hl] at hl'
      cases hl'
      rw [← List.head?_drop, hd] at hk
      exact hf (folds_iff.mpr ⟨hm, hp.trans hb, k, hk, ⟨v, hkv⟩, he⟩)
    have hb : awaitsOperand (some l.token) = beginsOperand ls (i + 1) :=
      (beginsOperand_succ hl).symm
    have hn' : hasSign ls (i + 1) = false := by rw [hasSign, hs, Option.isSome_none]
    have hpieces : (List.range' i (rest.length + 1)).flatMap (tokensAt ls) =
        l.token :: (List.range' (i + 1) rest.length).flatMap (tokensAt ls) := by
      rw [List.range'_succ, List.flatMap_cons, tokensAt_of_signed?_eq_none hl hs hn]
      rfl
    rw [settle_cons hf, List.length_cons, hpieces, List.forall_mem_cons]
    cases hr : refusal? size l with
    | some e => simp
    | none =>
      rw [map_eq_ok_iff fun us => ih hd hb hn']
      simp

theorem settle_eq_ok_iff {size : Nat} {ls : List Lexeme} {ts : List Token} :
    settle size none ls = .ok ts ↔ (∀ l ∈ ls, refusal? size l = none) ∧
      ts = (List.range ls.length).flatMap (tokensAt ls) := by
  rw [List.range_eq_range']
  exact settle_eq_ok_iff_of_drop size (List.drop_zero ..) rfl rfl

/-- The tokens of a text are those of its lexemes, except that a minus that an operand begins with
and the literal that it touches are one. Where an operand begins is seen from the lexeme before. -/
theorem ofText_eq_tokensAt {s : Text} {ts : List Token} (h : ofText s = .ok ts) :
    ∃ ls, Lexeme.scan 0 s = .ok ls ∧ ts = (List.range ls.length).flatMap (tokensAt ls) := by
  obtain ⟨ls, hl, hs⟩ := bind_eq_ok h
  exact ⟨ls, hl, (settle_eq_ok_iff.mp hs).2⟩

theorem ofText_eq_tokensAt_repeated :
    ∃ ls, Lexeme.scan 0 "0---0".toList = .ok ls ∧
      [.number .zero, .operator .minus, .operator .minus, .number (.neg .zero)] =
        (List.range ls.length).flatMap (tokensAt ls) :=
  ofText_eq_tokensAt (s := "0---0".toList) (by decide +kernel)

end Token
end Reckoner
