import Reckoner.Lexeme

set_option autoImplicit false

namespace Reckoner

theorem isNumeralChar_iff {c : Char} :
    Decimal.isNumeralChar c = true ↔ c.isDigit = true ∨ c = '.' := by
  simp [Decimal.isNumeralChar]

theorem toNat_of_isNumeralChar {c : Char} (h : Decimal.isNumeralChar c = true) :
    c.toNat = 46 ∨ 48 ≤ c.toNat ∧ c.toNat ≤ 57 := by
  rcases isNumeralChar_iff.mp h with hd | rfl
  · exact .inr (Char.isDigit_iff_toNat.mp hd)
  · exact .inl rfl

theorem utf8Size_of_toNat_le {c : Char} (h : c.toNat ≤ 127) : c.utf8Size = 1 :=
  Char.utf8Size_eq_one_iff.mpr (UInt32.le_iff_toNat_le.mpr h)

theorem bytes_of_isNumeralChar {t : Text} (h : ∀ c ∈ t, Decimal.isNumeralChar c = true) :
    t.bytes = t.length := by
  induction t with
  | nil => rfl
  | cons c t ih =>
    have hc := toNat_of_isNumeralChar (h c List.mem_cons_self)
    have ht := ih fun d hd => h d (List.mem_cons_of_mem c hd)
    rw [Text.bytes_cons, utf8Size_of_toNat_le (by omega), ht, List.length_cons]
    omega

theorem isBlank_of_isNumeralChar {c : Char} (h : Decimal.isNumeralChar c = true) :
    isBlank c = false := by
  have hc := toNat_of_isNumeralChar h
  simp [isBlank, blankRanges]
  omega

theorem Text.bytes_pos {t : Text} (h : t ≠ []) : 0 < t.bytes := by
  cases t with
  | nil => exact absurd rfl h
  | cons c t =>
    have hc := c.utf8Size_pos
    rw [bytes_cons]; omega

theorem Text.eq_nil_of_bytes {t : Text} (h : t.bytes = 0) : t = [] := by
  by_cases ht : t = []
  · exact ht
  · exact absurd h (Nat.ne_of_gt (bytes_pos ht))

/-- The text begins with no digit and no point, so a numeral before it ends there. -/
def Breaks (t : Text) : Prop := ∀ c ∈ t.head?, Decimal.isNumeralChar c = false

theorem breaks_nil : Breaks [] := by simp [Breaks]

theorem breaks_cons {c : Char} {t : Text} (h : Decimal.isNumeralChar c = false) :
    Breaks (c :: t) := by simpa [Breaks] using h

theorem takeWhile_append_of_breaks {run rest : Text}
    (hr : ∀ c ∈ run, Decimal.isNumeralChar c = true) (hb : Breaks rest) :
    (run ++ rest).takeWhile Decimal.isNumeralChar = run ∧
      (run ++ rest).dropWhile Decimal.isNumeralChar = rest := by
  rw [List.takeWhile_append_of_pos hr, List.dropWhile_append_of_pos hr]
  cases rest with
  | nil => simp
  | cons c rest =>
    have hc := hb c rfl
    simp [hc]

def symbols : List Char := ['+', '-', '*', '/', '^', '(', ')', '!']

theorem ofSymbol?_eq_some {c : Char} {t : Token} (h : Token.ofSymbol? c = some t) :
    (c = '(' ∧ t = .opening) ∨ (c = ')' ∧ t = .closing) ∨ (c = '!' ∧ t = .bang) ∨
      ∃ o, c = Operator.symbol o ∧ t = .operator o := by
  unfold Token.ofSymbol? at h
  split at h
  · next hc => exact .inl ⟨hc, (Option.some.inj h).symm⟩
  split at h
  · next hc => exact .inr (.inl ⟨hc, (Option.some.inj h).symm⟩)
  split at h
  · next hc => exact .inr (.inr (.inl ⟨hc, (Option.some.inj h).symm⟩))
  · obtain ⟨o, ho, ht⟩ := Option.map_eq_some_iff.mp h
    exact .inr (.inr (.inr ⟨o, (Operator.symbol_of_ofSymbol? ho).symm, ht.symm⟩))

theorem Token.ofSymbol?_operator (o : Operator) :
    Token.ofSymbol? o.symbol = some (.operator o) := by cases o <;> rfl

theorem mem_symbols_of_ofSymbol? {c : Char} {t : Token} (h : Token.ofSymbol? c = some t) :
    c ∈ symbols := by
  rcases ofSymbol?_eq_some h with ⟨rfl, -⟩ | ⟨rfl, -⟩ | ⟨rfl, -⟩ | ⟨o, rfl, -⟩
  · decide
  · decide
  · decide
  · cases o <;> decide

theorem isSome_ofSymbol? {c : Char} (h : c ∈ symbols) : (Token.ofSymbol? c).isSome = true := by
  have hs : symbols.all (fun c => (Token.ofSymbol? c).isSome) = true := by decide
  exact List.all_eq_true.mp hs c h

theorem isBlank_of_mem_symbols {c : Char} (h : c ∈ symbols) : isBlank c = false := by
  have hs : symbols.all (fun c => isBlank c == false) = true := by decide
  exact beq_iff_eq.mp (List.all_eq_true.mp hs c h)

theorem isNumeralChar_of_mem_symbols {c : Char} (h : c ∈ symbols) :
    Decimal.isNumeralChar c = false := by
  have hs : symbols.all (fun c => Decimal.isNumeralChar c == false) = true := by decide
  exact beq_iff_eq.mp (List.all_eq_true.mp hs c h)

theorem utf8Size_of_mem_symbols {c : Char} (h : c ∈ symbols) : c.utf8Size = 1 := by
  have hs : symbols.all (fun c => c.utf8Size == 1) = true := by decide
  exact beq_iff_eq.mp (List.all_eq_true.mp hs c h)

namespace Function

theorem mem_named {f : Function} : f ∈ named ↔ f ≠ .factorial := by cases f <;> decide

theorem text_eq_cons {f : Function} (h : f ∈ named) : ∃ c cs, f.text = c :: cs ∧
    isBlank c = false ∧ Decimal.isNumeralChar c = false ∧ Token.ofSymbol? c = none := by
  cases f
  case factorial => exact absurd h (by decide)
  all_goals exact ⟨_, _, rfl, by decide, by decide, by decide⟩

/-- Only a name that goes on with `h` could be a longer one. -/
theorem leading?_text {f : Function} (hf : f ≠ .factorial) {c : Char} (hc : c ≠ 'h') (cs : Text) :
    leading? (f.text ++ c :: cs) = some f := by
  have hc' : ('h' == c) = false := beq_false_of_ne (Ne.symm hc)
  cases f <;> first | exact absurd rfl hf | simp [leading?, named, text, List.isPrefixOf, hc']

theorem leading?_text_nil {f : Function} (hf : f ≠ .factorial) :
    leading? (f.text ++ []) = some f := by
  cases f <;> first | exact absurd rfl hf | rfl

theorem ne_factorial_of_takesBare {f : Function} (h : f.takesBare = true) : f ≠ .factorial := by
  rintro rfl
  cases h

@[simp] theorem bytes_text (f : Function) : f.text.bytes = f.text.length := by
  cases f <;> decide

end Function

namespace Lexeme

theorem scan_blank {c : Char} (h : isBlank c = true) (position : Nat) (t : Text) :
    scan position (c :: t) = scan (position + c.utf8Size) t := by
  rw [scan, if_pos h]

theorem scan_run {run rest : Text} (hne : run ≠ [])
    (hr : ∀ c ∈ run, Decimal.isNumeralChar c = true) (hb : Breaks rest) (position : Nat) :
    scan position (run ++ rest) =
      literal run position >>= fun v => scan (position + run.length) rest >>= fun ls =>
        .ok (⟨.number v, position, position + run.length⟩ :: ls) := by
  cases run with
  | nil => exact absurd rfl hne
  | cons c cs =>
    have hc : Decimal.isNumeralChar c = true := hr c List.mem_cons_self
    obtain ⟨ht, hd⟩ := takeWhile_append_of_breaks (fun d hd => hr d (List.mem_cons_of_mem c hd)) hb
    rw [List.cons_append, scan, isBlank_of_isNumeralChar hc]
    simp only [hc, ht, hd, Bool.false_eq_true, if_false, if_true]
    rfl

theorem scan_symbol {c : Char} {t : Token} (h : Token.ofSymbol? c = some t) (position : Nat)
    (rest : Text) :
    scan position (c :: rest) =
      scan (position + 1) rest >>= fun ls => .ok (⟨t, position, position + 1⟩ :: ls) := by
  have hc := mem_symbols_of_ofSymbol? h
  rw [scan, isBlank_of_mem_symbols hc, isNumeralChar_of_mem_symbols hc, h]
  rfl

theorem scan_name {f : Function} {rest : Text} (h : Function.leading? (f.text ++ rest) = some f)
    (position : Nat) :
    scan position (f.text ++ rest) =
      scan (position + f.text.length) rest >>= fun ls =>
        .ok (⟨.function f, position, position + f.text.length⟩ :: ls) := by
  obtain ⟨c, cs, hf, hb, hn, hs⟩ := Function.text_eq_cons (List.mem_of_find?_eq_some h)
  have hd : (f.text ++ rest).drop f.text.length = rest := List.drop_left
  rw [hf, List.cons_append] at h hd ⊢
  rw [scan, hb, hn, hs, h]
  simp only [Bool.false_eq_true, if_false, hf, hd]
  rfl

theorem scan_unknown {c : Char} {cs : Text} (hb : isBlank c = false)
    (hn : Decimal.isNumeralChar c = false) (hs : c ∉ symbols)
    (hl : Function.leading? (c :: cs) = none) (position : Nat) :
    scan position (c :: cs) = .error (.unknownCharacter c position) := by
  cases ht : Token.ofSymbol? c with
  | none => rw [scan, hb, hn, ht, hl]; rfl
  | some t => exact absurd (mem_symbols_of_ofSymbol? ht) hs

end Lexeme

/-- A token as a lexeme has it: numbers are finite and have no sign, functions have a name. -/
def Token.IsRaw : Token → Prop
  | .number v => ∃ m, v = .finite false m
  | .function f => f ≠ .factorial
  | _ => True

namespace Lexeme

theorem exists_of_literal {run : Text} {position : Nat} {v : Binary64}
    (h : literal run position = .ok v) : ∃ m, v = .finite false m := by
  unfold literal at h
  split at h
  · cases h
  · split at h
    · cases h
    · next m _ => exact ⟨m, (Except.ok.inj h).symm⟩

/-- What holds of no lexemes, and still holds if a blank or a raw token is put in front, holds of
all that is scanned. -/
theorem scan_induction {motive : Nat → List Lexeme → Prop} (nil : ∀ position, motive position [])
    (blank : ∀ position n ls, motive (position + n) ls → motive position ls)
    (cons : ∀ position t n ls, t.IsRaw → motive (position + n) ls →
      motive position (⟨t, position, position + n⟩ :: ls))
    {position : Nat} {t : Text} {ls : List Lexeme} (h : scan position t = .ok ls) :
    motive position ls := by
  fun_induction scan position t generalizing ls with
  | case1 position => cases h; exact nil position
  | case2 position c cs hb ih => exact blank _ _ _ (ih h)
  | case3 position c cs hb hn run =>
    rename_i ih
    obtain ⟨v, hv, h⟩ := bind_eq_ok h
    obtain ⟨ks, hk, h⟩ := bind_eq_ok h
    cases h
    exact cons _ _ _ _ (exists_of_literal hv) (ih hk)
  | case4 position c cs hb hn t ht ih =>
    obtain ⟨ks, hk, h⟩ := bind_eq_ok h
    cases h
    refine cons _ _ _ _ ?_ (ih hk)
    rcases ofSymbol?_eq_some ht with ⟨-, rfl⟩ | ⟨-, rfl⟩ | ⟨-, rfl⟩ | ⟨o, -, rfl⟩ <;> trivial
  | case5 position c cs hb hn hs f hf stop =>
    rename_i ih
    obtain ⟨ks, hk, h⟩ := bind_eq_ok h
    cases h
    exact cons _ _ _ _ (Function.mem_named.mp (List.mem_of_find?_eq_some hf)) (ih hk)
  | case6 => cases h

theorem isRaw_of_scan {position : Nat} {t : Text} {ls : List Lexeme}
    (h : scan position t = .ok ls) : ∀ l ∈ ls, l.token.IsRaw := by
  refine scan_induction (motive := fun _ ls => ∀ l ∈ ls, l.token.IsRaw) ?_ ?_ ?_ h
  · simp
  · intro _ _ ls ih
    exact ih
  · intro _ t _ ls ht ih
    exact List.forall_mem_cons.mpr ⟨ht, ih⟩

end Lexeme
end Reckoner
