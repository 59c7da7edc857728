import Reckoner.Binary64.ReadBack
import Reckoner.Proofs.Scanning

/-!
Written tokens read back, one after the other. What a token reads as depends on the token before
it and on the character after it, so both stand in the statements.
-/
set_option autoImplicit false

namespace Reckoner

theorem Decimal.isNumeralChar_of_mem_plain {d : Decimal} {c : Char} (h : c ∈ d.plain) :
    isNumeralChar c = true := by
  rw [isNumeralChar_iff]
  have hw : c ∈ d.wholePart → c.isDigit = true := isDigit_of_mem_ofNat
  unfold plain at h
  split at h
  · exact .inl (hw h)
  · rcases List.mem_append.mp h with h | h
    · exact .inl (hw h)
    rcases List.mem_cons.mp h with h | h
    · exact .inr h
    · exact .inl (isDigit_of_mem_fractionPart h)

theorem Lexeme.le_start {position : Nat} {t : Text} {ls : List Lexeme}
    (h : scan position t = .ok ls) : ∀ l ∈ ls, position ≤ l.start := by
  refine scan_induction (motive := fun position ls => ∀ l ∈ ls, position ≤ l.start) ?_ ?_ ?_ h
  · simp
  · intro position n ls ih l hl
    exact Nat.le_of_add_right_le (ih l hl)
  · intro position t n ls _ ih
    exact List.forall_mem_cons.mpr
      ⟨Nat.le_refl _, fun l hl => Nat.le_of_add_right_le (ih l hl)⟩

theorem Lexeme.lt_start_of_breaks {position start stop : Nat} {t : Text} {v : Binary64}
    {ls : List Lexeme} (hb : Breaks t)
    (h : scan position t = .ok (⟨.number v, start, stop⟩ :: ls)) : position < start := by
  fun_cases scan position t with
  | case1 => rw [scan] at h; cases h
  | case2 c cs hc =>
    rw [scan_blank hc] at h
    have hle : position + c.utf8Size ≤ start := le_start h _ List.mem_cons_self
    have hp := c.utf8Size_pos
    omega
  | case3 c cs hc hn => exact absurd hn (by simp [hb c rfl])
  | case4 c cs hc hn t ht =>
    rw [scan_symbol ht] at h
    obtain ⟨ks, -, h⟩ := bind_eq_ok h
    cases h
    simpa using ofSymbol?_eq_some ht
  | case5 c cs hc hn hs f hf =>
    obtain ⟨rest, hr⟩ := List.isPrefixOf_iff_prefix.mp (Function.isPrefixOf_of_leading? hf)
    rw [← hr] at h hf
    rw [scan_name hf] at h
    obtain ⟨ks, -, h⟩ := bind_eq_ok h
    cases h
  | case6 c cs hc hn hs hf =>
    rw [scan] at h
    simp only [hc, hn, hs, hf, Bool.false_eq_true, if_false] at h
    cases h

namespace Token

/-- A minus where an operand must begin, and a literal right behind it. -/
def Folds (previous : Option Token) (l : Lexeme) (ls : List Lexeme) : Prop :=
  l.token = .operator .minus ∧ awaitsOperand previous = true ∧
    ∃ v stop rest, ls = ⟨.number v, l.stop, stop⟩ :: rest

theorem settle_fold {previous : Option Token} (h : awaitsOperand previous = true)
    (size start next stop : Nat) (v : Binary64) (ls : List Lexeme) :
    settle size previous (⟨.operator .minus, start, next⟩ :: ⟨.number v, next, stop⟩ :: ls) =
      (settle size (some (.number v.neg)) ls).map (.number v.neg :: ·) := by
  simp [settle, h]
  rfl

theorem settle_keep {size : Nat} {previous : Option Token} {l : Lexeme} {ls : List Lexeme}
    (hf : ¬ Folds previous l ls)
    (hb : ∀ f, l.token = .function f → f.takesBare = true → l.stop ≠ size) :
    settle size previous (l :: ls) = (settle size (some l.token) ls).map (l.token :: ·) := by
  rw [settle.eq_def]
  split
  · next h => cases h
  · next start stop v next finish rest h =>
    obtain ⟨rfl, rfl⟩ := List.cons.inj h
    have hn : (awaitsOperand previous && next == stop) = false := by
      rw [Bool.and_eq_false_imp]
      intro ha
      rw [beq_eq_false_iff_ne]
      intro he
      subst he
      exact hf ⟨rfl, ha, v, finish, rest, rfl⟩
    rw [hn]
    rfl
  · next f start stop rest h =>
    obtain ⟨rfl, rfl⟩ := List.cons.inj h
    have hn : (f.takesBare && stop == size) = false := by
      rw [Bool.and_eq_false_imp]
      intro ht
      exact beq_eq_false_iff_ne.mpr (hb f rfl ht)
    rw [hn]
    rfl
  · next h =>
    obtain ⟨rfl, rfl⟩ := List.cons.inj h
    rfl

def refusal? (size : Nat) (l : Lexeme) : Option LexicalError :=
  match l.token with
  | .function f =>
    if f.takesBare && l.stop == size then some (.unknownCharacter (f.text.headD ' ') l.start)
    else none
  | _ => none

theorem settle_cons {previous : Option Token} {l : Lexeme} {ls : List Lexeme}
    (hf : ¬ Folds previous l ls) (size : Nat) :
    settle size previous (l :: ls) =
      match refusal? size l with
      | some e => .error e
      | none => (settle size (some l.token) ls).map (l.token :: ·) := by
  obtain ⟨t, start, stop⟩ := l
  by_cases hb : ∃ f, t = .function f ∧ f.takesBare = true ∧ stop = size
  · obtain ⟨f, rfl, ht, rfl⟩ := hb
    simp [settle, refusal?, ht]
  · have hn : refusal? size ⟨t, start, stop⟩ = none := by
      cases t <;> simp_all [refusal?]
    rw [hn]
    exact settle_keep hf fun f hl ht hs => hb ⟨f, hl, ht, hs⟩

theorem settle_induction {motive : Option Token → List Lexeme → Prop}
    (nil : ∀ previous, motive previous [])
    (fold : ∀ previous start next stop v ls, awaitsOperand previous = true →
      motive (some (.number v.neg)) ls →
      motive previous (⟨.operator .minus, start, next⟩ :: ⟨.number v, next, stop⟩ :: ls))
    (keep : ∀ previous l ls, ¬ Folds previous l ls → motive (some l.token) ls →
      motive previous (l :: ls))
    (previous : Option Token) (ls : List Lexeme) : motive previous ls := by
  induction hn : ls.length using Nat.strongRecOn generalizing previous ls with
  | ind n ih =>
    subst hn
    cases ls with
    | nil => exact nil previous
    | cons l ls =>
      by_cases hf : Folds previous l ls
      · obtain ⟨k, start, next⟩ := l
        obtain ⟨rfl, ha, v, stop, rest, rfl⟩ := hf
        have hl : rest.length < (⟨.operator .minus, start, next⟩ ::
            ⟨.number v, next, stop⟩ :: rest : List Lexeme).length := by
          simp only [List.length_cons]; omega
        exact fold previous start next stop v rest ha (ih _ hl _ _ rfl)
      · exact keep previous l ls hf (ih _ (Nat.lt_succ_self _) _ _ rfl)

def reading (previous : Option Token) (position : Nat) (t : Text) :
    Except LexicalError (List Token) :=
  Lexeme.scan position t >>= settle (position + t.bytes) previous

theorem ofText_eq_reading (t : Text) : ofText t = reading none 0 t := by
  simp [ofText, reading]

def latest (previous : Option Token) (ts : List Token) : Option Token := ts.getLast?.or previous

@[simp] theorem latest_nil (previous : Option Token) : latest previous [] = previous := rfl

@[simp] theorem latest_append (previous : Option Token) (ts us : List Token) :
    latest previous (ts ++ us) = latest (latest previous ts) us := by
  simp [latest, Option.or_assoc]

@[simp] theorem latest_cons (previous : Option Token) (t : Token) (ts : List Token) :
    latest previous (t :: ts) = latest (some t) ts := latest_append previous [t] ts

/-- After `previous` and before `rest` the text reads as these tokens, wherever it stands. -/
def Spells (previous : Option Token) (t : Text) (ts : List Token) (rest : Text) : Prop :=
  ∀ position, reading previous position (t ++ rest) =
    (reading (latest previous ts) (position + t.bytes) rest).map (ts ++ ·)

theorem Spells.append {previous : Option Token} {s t rest : Text} {ts us : List Token}
    (h : Spells previous s ts (t ++ rest)) (h' : Spells (latest previous ts) t us rest) :
    Spells previous (s ++ t) (ts ++ us) rest := by
  intro position
  rw [List.append_assoc, h, h', latest_append, Text.bytes_append, Nat.add_assoc]
  cases reading (latest (latest previous ts) us) (position + (s.bytes + t.bytes)) rest with
  | error e => rfl
  | ok vs => simp [Except.map]

theorem Spells.ofText_eq {t : Text} {ts : List Token} (h : Spells none t ts []) :
    ofText t = .ok ts := by
  have hr := h 0
  rw [List.append_nil, ← ofText_eq_reading] at hr
  rw [hr]
  simp [reading, Lexeme.scan, settle, bind, Except.bind, Except.map]

theorem spells_of_scan (ks : Nat → List Lexeme) {previous : Option Token} {t rest : Text}
    {ts : List Token}
    (hs : ∀ position, Lexeme.scan position (t ++ rest) =
      Lexeme.scan (position + t.bytes) rest >>= fun ls => .ok (ks position ++ ls))
    (hk : ∀ position size ls, Lexeme.scan (position + t.bytes) rest = .ok ls →
      size = position + t.bytes + rest.bytes →
      settle size previous (ks position ++ ls) =
        (settle size (latest previous ts) ls).map (ts ++ ·)) :
    Spells previous t ts rest := by
  intro position
  rw [reading, hs, reading, Text.bytes_append, ← Nat.add_assoc]
  cases h : Lexeme.scan (position + t.bytes) rest with
  | error e => rfl
  | ok ls => exact hk position _ ls h rfl

theorem spells_blank {c : Char} (h : isBlank c = true) (previous : Option Token) (rest : Text) :
    Spells previous [c] [] rest := by
  intro position
  have hc : Text.bytes [c] = c.utf8Size := by simp
  rw [reading, List.singleton_append, Lexeme.scan_blank h, Text.bytes_cons, ← Nat.add_assoc,
    latest_nil, hc, reading]
  cases (Lexeme.scan (position + c.utf8Size) rest >>=
    settle (position + c.utf8Size + rest.bytes) previous) <;> rfl

theorem spells_symbol {c : Char} {t : Token} (h : ofSymbol? c = some t) {previous : Option Token}
    {rest : Text} (hm : t = .operator .minus → awaitsOperand previous = true → Breaks rest) :
    Spells previous [c] [t] rest := by
  have hc : Text.bytes [c] = 1 := by
    simp [utf8Size_of_mem_symbols (mem_symbols_of_ofSymbol? h)]
  refine spells_of_scan (fun position => [⟨t, position, position + 1⟩])
    (fun position => ?_) (fun position size ls hl hs => settle_keep ?_ ?_)
  · rw [List.singleton_append, Lexeme.scan_symbol h, hc]
    rfl
  · intro hf
    obtain ⟨ht, ha, v, stop, ks, rfl⟩ := hf
    have hlt := Lexeme.lt_start_of_breaks (hm ht ha) hl
    rw [hc] at hlt
    exact Nat.lt_irrefl _ hlt
  · intro f hf
    subst hf
    simpa using ofSymbol?_eq_some h

theorem spells_nil (previous : Option Token) (rest : Text) : Spells previous [] [] rest := by
  intro position
  cases h : reading previous position rest <;> simp [h, Except.map]

theorem Spells.blank_cons {previous : Option Token} {c : Char} {t rest : Text} {ts : List Token}
    (h : Spells previous t ts rest) (hc : isBlank c = true) :
    Spells previous (c :: t) ts rest := (spells_blank hc previous (t ++ rest)).append h

theorem Spells.symbol_cons {c : Char} {k : Token} {t rest : Text} {ts : List Token}
    (h : Spells (some k) t ts rest) (previous : Option Token) (hk : ofSymbol? c = some k)
    (hm : k = .operator .minus → awaitsOperand previous = true → Breaks (t ++ rest)) :
    Spells previous (c :: t) (k :: ts) rest :=
  (spells_symbol hk hm).append h

theorem spells_function {f : Function} {rest : Text} (hne : f.takesBare = true → rest ≠ [])
    (h : Function.leading? (f.text ++ rest) = some f) (previous : Option Token) :
    Spells previous f.text [.function f] rest := by
  refine spells_of_scan (fun position => [⟨.function f, position, position + f.text.length⟩])
    (fun position => ?_) (fun position size ls hl hs => settle_keep ?_ ?_)
  · rw [Lexeme.scan_name h, Function.bytes_text]
    rfl
  · intro hf
    cases hf.1
  · intro g hg ht
    cases hg
    have hp := Text.bytes_pos (hne ht)
    rw [Function.bytes_text] at hs
    simp only; omega

theorem scan_numeral (m : Magnitude) {rest : Text} (hb : Breaks rest) (position : Nat) :
    Lexeme.scan position (m.shortest.plain ++ rest) =
      Lexeme.scan (position + m.shortest.plain.length) rest >>= fun ls =>
        .ok (⟨.number (.finite false m), position, position + m.shortest.plain.length⟩ :: ls) := by
  rw [Lexeme.scan_run m.shortest.plain_ne_nil
    (fun c hc => Decimal.isNumeralChar_of_mem_plain hc) hb,
    Lexeme.literal_decimal m.shortest_magnitude?]
  rfl

theorem spells_value {v : Binary64} (hv : v.isFinite = true) (previous : Option Token)
    (hp : ∀ m, v = .finite true m → awaitsOperand previous = true) {rest : Text}
    (hb : Breaks rest) : Spells previous v.plain [.number v] rest := by
  cases v with
  | infinity s => cases hv
  | nan => cases hv
  | finite s m =>
    have hl : m.shortest.plain.bytes = m.shortest.plain.length :=
      bytes_of_isNumeralChar fun c hc => Decimal.isNumeralChar_of_mem_plain hc
    cases s with
    | false =>
      refine spells_of_scan (t := m.shortest.plain)
        (fun position =>
          [⟨.number (.finite false m), position, position + m.shortest.plain.length⟩])
        (fun position => ?_) (fun position size ls _ _ => settle_keep ?_ ?_)
      · rw [scan_numeral m hb, hl]
        rfl
      · intro hf
        cases hf.1
      · intro f hf
        cases hf
    | true =>
      have ht : Text.bytes ('-' :: m.shortest.plain) = 1 + m.shortest.plain.length := by
        rw [Text.bytes_cons, hl]
        rfl
      refine spells_of_scan (t := '-' :: m.shortest.plain)
        (fun position => [⟨.operator .minus, position, position + 1⟩,
          ⟨.number (.finite false m), position + 1, position + 1 + m.shortest.plain.length⟩])
        (fun position => ?_) (fun position size ls _ _ => settle_fold (hp m rfl) _ _ _ _ _ _)
      rw [List.cons_append, Lexeme.scan_symbol (t := .operator .minus) rfl, scan_numeral m hb, ht,
        ← Nat.add_assoc, bind_assoc]
      rfl

end Token
end Reckoner
