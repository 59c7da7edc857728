import Reckoner.Proofs.Munching

set_option autoImplicit false

namespace Reckoner

namespace Token

/-- Tokens that a text can have after `previous`: raw ones, and numbers with a sign where an
operand must begin. -/
inductive Legible : Option Token → List Token → Prop where
  | nil (previous : Option Token) : Legible previous []
  | raw (previous : Option Token) {t : Token} {ts : List Token} (ht : t.IsRaw)
      (h : Legible (some t) ts) : Legible previous (t :: ts)
  | signed {previous : Option Token} (hp : awaitsOperand previous = true) (m : Magnitude)
      {ts : List Token} (h : Legible (some (.number (.finite true m))) ts) :
      Legible previous (.number (.finite true m) :: ts)

theorem Legible.tail {previous : Option Token} {t : Token} {ts : List Token}
    (h : Legible previous (t :: ts)) : Legible (some t) ts := by
  cases h <;> assumption

theorem Legible.left {previous : Option Token} {ts us : List Token}
    (h : Legible previous (ts ++ us)) : Legible previous ts := by
  induction ts generalizing previous with
  | nil => exact .nil previous
  | cons t ts ih =>
    cases h with
    | raw _ ht h => exact .raw previous ht (ih h)
    | signed hp m h => exact .signed hp m (ih h)

theorem Legible.right {previous : Option Token} {ts us : List Token}
    (h : Legible previous (ts ++ us)) : Legible (latest previous ts) us := by
  induction ts generalizing previous with
  | nil => exact h
  | cons t ts ih =>
    rw [latest_cons]
    exact ih h.tail

/-- A function at the very end is refused, so what is settled goes on with the token of the lexeme
that it begins with. -/
theorem settle_keep_eq_ok {size : Nat} {previous : Option Token} {l : Lexeme} {ls : List Lexeme}
    {ts : List Token} (hf : ¬ Folds previous l ls) (h : settle size previous (l :: ls) = .ok ts) :
    ∃ us, settle size (some l.token) ls = .ok us ∧ l.token :: us = ts := by
  rw [settle_cons hf] at h
  split at h
  · cases h
  · exact map_eq_ok h

theorem legible_of_settle {size : Nat} {previous : Option Token} {ls : List Lexeme}
    {ts : List Token} (hr : ∀ l ∈ ls, l.token.IsRaw) (h : settle size previous ls = .ok ts) :
    Legible previous ts := by
  induction previous, ls using settle_induction generalizing ts with
  | nil previous =>
    rw [settle] at h
    cases h
    exact .nil previous
  | fold previous start next stop v ls ha ih =>
    rw [settle_fold ha] at h
    obtain ⟨us, hu, rfl⟩ := map_eq_ok h
    simp only [List.forall_mem_cons] at hr
    obtain ⟨-, ⟨m, rfl⟩, hr⟩ := hr
    exact .signed ha m (ih hr hu)
  | keep previous l ls hf ih =>
    obtain ⟨us, hu, rfl⟩ := settle_keep_eq_ok hf h
    rw [List.forall_mem_cons] at hr
    exact .raw previous hr.1 (ih hr.2 hu)

theorem legible_of_ofText {s : Text} {ts : List Token} (h : ofText s = .ok ts) :
    Legible none ts := by
  obtain ⟨ls, hl, h⟩ := bind_eq_ok h
  exact legible_of_settle (Lexeme.isRaw_of_scan hl) h

theorem Legible.spells {previous : Option Token} {t : Token} {ts : List Token}
    (h : Legible previous (t :: ts)) {rest : Text} (hb : Breaks rest)
    (hf : ∀ f, t = .function f → f ≠ .factorial → Function.leading? (f.text ++ rest) = some f ∧
      (f.takesBare = true → rest ≠ [])) : Spells previous t.text [t] rest := by
  cases h with
  | signed hp m h => exact spells_value (v := .finite true m) rfl previous (fun _ _ => hp) hb
  | raw _ ht h =>
    cases t with
    | number v =>
      obtain ⟨m, rfl⟩ := ht
      exact spells_value (v := .finite false m) rfl previous (by simp) hb
    | operator o => exact spells_symbol (ofSymbol?_operator o) fun _ _ => hb
    | opening => exact spells_symbol (c := '(') rfl (by simp)
    | closing => exact spells_symbol (c := ')') rfl (by simp)
    | bang => exact spells_symbol (c := '!') rfl (by simp)
    | function f => exact spells_function (hf f rfl ht).2 (hf f rfl ht).1 previous

def spaced (ts : List Token) : Text := ts.flatMap fun t => t.text ++ [' ']

theorem Legible.spells_spaced {previous : Option Token} {ts : List Token}
    (h : Legible previous ts) (rest : Text) : Spells previous (spaced ts) ts rest := by
  induction ts generalizing previous with
  | nil => exact spells_nil previous rest
  | cons t ts ih =>
    have hs : spaced (t :: ts) = t.text ++ ' ' :: spaced ts := by simp [spaced]
    have ht : Spells previous t.text [t] (' ' :: spaced ts ++ rest) :=
      h.spells (breaks_cons (by decide))
        fun f _ hf => ⟨Function.leading?_text hf (by decide) _, by simp⟩
    rw [hs]
    exact ht.append ((ih h.tail).blank_cons (by decide))

theorem listing_append_singleton (ts : List Token) (t : Token) :
    listing (ts ++ [t]) = spaced ts ++ t.text := by
  induction ts with
  | nil => rfl
  | cons k ts ih =>
    have hs : spaced (k :: ts) = k.text ++ [' '] ++ spaced ts := rfl
    rw [hs, List.append_assoc, ← ih]
    cases ts <;> rfl

theorem ofText_listing_of_ne_bare {ts : List Token} {t : Token} (h : Legible none (ts ++ [t]))
    (ht : ∀ f, t = .function f → f.takesBare = false) :
    ofText (listing (ts ++ [t])) = .ok (ts ++ [t]) := by
  have hs := h.left.spells_spaced (t.text ++ [])
  have hl : Spells (latest none ts) t.text [t] [] :=
    h.right.spells breaks_nil
      fun f hf hn => ⟨Function.leading?_text_nil hn, by simp [ht f hf]⟩
  rw [listing_append_singleton]
  exact (hs.append hl).ofText_eq

theorem ofText_listing_of_bare {ts : List Token} {f : Function}
    (h : Legible none (ts ++ [.function f])) (hf : f.takesBare = true) :
    ofText (listing (ts ++ [.function f])) =
      .error (.unknownCharacter (f.text.headD ' ') (spaced ts).bytes) := by
  have hs := h.left.spells_spaced f.text 0
  have hn := Lexeme.scan_name
    (Function.leading?_text_nil (Function.ne_factorial_of_takesBare hf)) (spaced ts).bytes
  have hb : settle ((spaced ts).bytes + f.text.length) (latest none ts)
      ([] ++ [⟨.function f, (spaced ts).bytes, (spaced ts).bytes + f.text.length⟩]) =
        .error (.unknownCharacter (f.text.headD ' ') (spaced ts).bytes) :=
    settle_bare hf _ _ (by simp)
  rw [List.append_nil, Lexeme.scan] at hn
  rw [listing_append_singleton, ofText_eq_reading, text, hs, reading, Nat.zero_add, hn,
    Function.bytes_text]
  exact congrArg (Except.map (ts ++ ·)) hb

/-- The tokens of a text, written with spaces between them, read back as the same tokens. If the
last of them could take a bare operand, it is refused where its name begins. -/
theorem ofText_listing {s : Text} {ts : List Token} (h : ofText s = .ok ts) :
    ((∀ f ∈ [Function.ln, .log, .sqrt], ts.getLast? ≠ some (.function f)) →
        ofText (listing ts) = .ok ts) ∧
      ∀ f ∈ [Function.ln, .log, .sqrt], ts.getLast? = some (.function f) →
        ∃ p c cs, listing ts = p ++ f.text ∧ f.text = c :: cs ∧
          ofText (listing ts) = .error (.unknownCharacter c p.bytes) := by
  have hl := legible_of_ofText h
  rcases List.eq_nil_or_concat ts with rfl | ⟨us, t, rfl⟩
  · refine ⟨fun _ => ?_, fun f _ hf => ?_⟩
    · exact (spells_nil none []).ofText_eq
    · cases hf
  · rw [List.concat_eq_append] at hl ⊢
    rw [List.getLast?_concat]
    refine ⟨fun hn => ofText_listing_of_ne_bare hl ?_, fun f hf ht => ?_⟩
    · rintro f rfl
      rw [← Bool.not_eq_true, Function.takesBare_iff]
      exact fun hf => hn f hf rfl
    · obtain rfl := Option.some.inj ht
      obtain ⟨c, cs, hc⟩ := List.exists_cons_of_length_pos f.text_length_pos
      refine ⟨spaced us, c, cs, listing_append_singleton us _, hc, ?_⟩
      rw [ofText_listing_of_bare hl (Function.takesBare_iff.mpr hf), hc]
      rfl

theorem ofText_listing_signed :
    ofText (listing [.number .zero, .operator .minus, .number (.neg .zero)]) =
        .ok [.number .zero, .operator .minus, .number (.neg .zero)] ∧
      ∃ p c cs, listing [.number (.neg .zero), .function .ln] = p ++ Function.ln.text ∧
        Function.ln.text = c :: cs ∧
        ofText (listing [.number (.neg .zero), .function .ln]) =
          .error (.unknownCharacter c p.bytes) :=
  ⟨(ofText_listing (s := "0--0".toList) (by decide +kernel)).1 (by decide),
    (ofText_listing (s := "-0ln ".toList) (by decide +kernel)).2 .ln (by decide) rfl⟩

end Token
end Reckoner
