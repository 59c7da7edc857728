import Reckoner.Proofs.Numerals
import Reckoner.Proofs.Spelling

/-!
Texts cut into longest lexemes, as one would do it by hand. Main statement: a text has tokens if
this comes to its end and no name there lacks its operand; otherwise the error is the one of the
first place where it cannot go on, or names that last function.
-/
set_option autoImplicit false

namespace Reckoner

structure IsRun (w : Text) : Prop where
  ne_nil : w ≠ []
  numeral : ∀ c ∈ w, Decimal.isNumeralChar c = true

inductive IsLexeme : Text → Prop where
  | run {w : Text} (h : IsRun w) : IsLexeme w
  | symbol {c : Char} (h : c ∈ symbols) : IsLexeme [c]
  | name {f : Function} (h : f ≠ .factorial) : IsLexeme f.text

/-- No lexeme at the head of the text `w ++ rest` is longer than `w`. -/
structure Longest (w rest : Text) : Prop where
  isLexeme : IsLexeme w
  length_le : ∀ v, IsLexeme v → v <+: w ++ rest → v.length ≤ w.length

structure InRange (w : Text) : Prop where
  wellFormed : Decimal.WellFormed w
  finite : ¬ (Decimal.written w).Overflows

/-- Going through the text `done ++ rest`, one comes to the place where `rest` begins. -/
inductive Munched : Text → Text → Prop where
  | start (rest : Text) : Munched [] rest
  | blank {done rest : Text} {c : Char} (h : Munched done (c :: rest)) (hc : isBlank c = true) :
      Munched (done ++ [c]) rest
  | lexeme {done w rest : Text} (h : Munched done (w ++ rest)) (hw : Longest w rest)
      (hr : IsRun w → InRange w) : Munched (done ++ w) rest

/-- Why one cannot go on where the text begins that stands at this position. -/
inductive Fails (position : Nat) : Text → LexicalError → Prop where
  | unknown {c : Char} {cs : Text} (hc : isBlank c = false)
      (h : ∀ w, IsLexeme w → ¬ w <+: c :: cs) :
      Fails position (c :: cs) (.unknownCharacter c position)
  | malformed {w rest : Text} (hw : Longest w rest) (hr : IsRun w)
      (h : ¬ Decimal.WellFormed w) : Fails position (w ++ rest) (.malformedNumber w position)
  | tooLarge {w rest : Text} (hw : Longest w rest) (hr : IsRun w) (h : Decimal.WellFormed w)
      (ho : (Decimal.written w).Overflows) :
      Fails position (w ++ rest) (.literalTooLarge w position)

theorem IsLexeme.ne_nil {w : Text} (h : IsLexeme w) : w ≠ [] := by
  cases h with
  | run h => exact h.ne_nil
  | symbol h => simp
  | name h =>
    rename_i f
    cases f <;> simp [Function.text]

theorem isRun_singleton {c : Char} (h : Decimal.isNumeralChar c = true) : IsRun [c] :=
  ⟨by simp, by simpa using h⟩

theorem Longest.breaks {w rest : Text} (h : Longest w rest) (hr : IsRun w) : Breaks rest := by
  cases rest with
  | nil => exact breaks_nil
  | cons c cs =>
    refine breaks_cons ?_
    rw [← Bool.not_eq_true]
    intro hc
    have hv : IsRun (w ++ [c]) :=
      ⟨by simp, List.forall_mem_append.mpr ⟨hr.numeral, by simpa using hc⟩⟩
    have hl := h.length_le _ (.run hv) ((List.prefix_append_right_inj w).mpr (by simp))
    rw [List.length_append, List.length_singleton] at hl
    omega

theorem Longest.leading? {f : Function} {rest : Text} (h : Longest f.text rest)
    (hf : f ≠ .factorial) : Function.leading? (f.text ++ rest) = some f := by
  have hp : f.text.isPrefixOf (f.text ++ rest) = true :=
    List.isPrefixOf_iff_prefix.mpr (List.prefix_append f.text rest)
  have hs : (Function.leading? (f.text ++ rest)).isSome = true :=
    List.find?_isSome.mpr ⟨f, Function.mem_named.mpr hf, hp⟩
  obtain ⟨g, hg⟩ := Option.isSome_iff_exists.mp hs
  have hm : g ≠ .factorial := Function.mem_named.mp (List.mem_of_find?_eq_some hg)
  have hgp := List.isPrefixOf_iff_prefix.mp (Function.isPrefixOf_of_leading? hg)
  have hle := h.length_le g.text (.name hm) hgp
  have hge := Function.le_length_of_leading? hg (Function.mem_named.mpr hf) hp
  have ht : g.text = f.text :=
    (List.prefix_of_prefix_length_le hgp (List.prefix_append f.text rest) hle).eq_of_length
      (by omega)
  have hgf := Function.ofText?_text g
  rw [ht, Function.ofText?_text] at hgf
  rw [hg, hgf]

theorem exists_longest {t w : Text} (hw : IsLexeme w) (hp : w <+: t) :
    ∃ v rest, t = v ++ rest ∧ Longest v rest := by
  by_cases h : ∀ v, IsLexeme v → v <+: t → v.length ≤ w.length
  · obtain ⟨rest, rfl⟩ := hp
    exact ⟨w, rest, rfl, hw, h⟩
  · have hv : ∃ v, IsLexeme v ∧ v <+: t ∧ w.length < v.length := by simpa using h
    obtain ⟨v, hv, hvp, hlt⟩ := hv
    have hle := hvp.length_le
    exact exists_longest hv hvp
termination_by t.length - w.length

theorem place_cases (position : Nat) (t : Text) :
    t = [] ∨ (∃ c cs, t = c :: cs ∧ isBlank c = true) ∨
      (∃ w rest, t = w ++ rest ∧ Longest w rest ∧ (IsRun w → InRange w)) ∨
      ∃ e, Fails position t e := by
  cases t with
  | nil => exact .inl rfl
  | cons c cs =>
    right
    by_cases hc : isBlank c = true
    · exact .inl ⟨c, cs, rfl, hc⟩
    right
    by_cases hw : ∃ w, IsLexeme w ∧ w <+: c :: cs
    · obtain ⟨w, hw, hp⟩ := hw
      obtain ⟨v, rest, ht, hv⟩ := exists_longest hw hp
      rw [ht]
      by_cases hr : IsRun v
      · by_cases hf : Decimal.WellFormed v
        · by_cases ho : (Decimal.written v).Overflows
          · exact .inr ⟨_, .tooLarge hv hr hf ho⟩
          · exact .inl ⟨v, rest, rfl, hv, fun _ => ⟨hf, ho⟩⟩
        · exact .inr ⟨_, .malformed hv hr hf⟩
      · exact .inl ⟨v, rest, rfl, hv, fun h => absurd h hr⟩
    · have hn : ∀ w, IsLexeme w → ¬ w <+: c :: cs := fun w hw' hp => hw ⟨w, hw', hp⟩
      exact .inr ⟨_, .unknown (by simpa using hc) hn⟩

theorem Munched.end_or_fails {done t : Text} (h : Munched done t) :
    Munched (done ++ t) [] ∨ ∃ p rest e, done ++ t = p ++ rest ∧ Munched p rest ∧
      Fails p.bytes rest e := by
  induction hn : t.length using Nat.strongRecOn generalizing done t with
  | ind n ih =>
    subst hn
    rcases place_cases done.bytes t with rfl | ⟨c, cs, rfl, hc⟩ | ⟨w, rest, rfl, hw, hr⟩ | ⟨e, he⟩
    · left
      rwa [List.append_nil]
    · have hb := ih cs.length (by simp) (h.blank hc) rfl
      rwa [List.append_assoc] at hb
    · have hne := List.length_pos_iff.mpr hw.isLexeme.ne_nil
      have hl := ih rest.length (by rw [List.length_append]; omega) (h.lexeme hw hr) rfl
      rwa [List.append_assoc] at hl
    · exact .inr ⟨done, t, e, rfl, h, he⟩

namespace Lexeme

theorem exists_token {w : Text} (h : IsLexeme w) (hr : IsRun w → InRange w) :
    ∃ k, (∀ f, k = .function f → w = f.text) ∧ ∀ {rest}, Longest w rest → ∀ position,
      scan position (w ++ rest) = scan (position + w.bytes) rest >>= fun ls =>
        .ok (⟨k, position, position + w.bytes⟩ :: ls) := by
  cases h with
  | run hw =>
    have hi := hr hw
    obtain ⟨v, hv⟩ := exists_literal hw.numeral hi.wellFormed hi.finite
    refine ⟨.number v, by simp, fun hl position => ?_⟩
    rw [scan_run hw.ne_nil hw.numeral (hl.breaks hw), hv, bytes_of_isNumeralChar hw.numeral]
    rfl
  | symbol hc =>
    rename_i c
    obtain ⟨k, hk⟩ := Option.isSome_iff_exists.mp (isSome_ofSymbol? hc)
    refine ⟨k, ?_, fun {rest} _ position => ?_⟩
    · intro f hf
      subst hf
      exact absurd (ofSymbol?_eq_some hk) (by simp)
    · have hb : Text.bytes [c] = 1 := by simp [utf8Size_of_mem_symbols hc]
      rw [hb]
      exact scan_symbol hk position rest
  | name hf =>
    rename_i f
    refine ⟨.function f, ?_, fun hl position => ?_⟩
    · intro g hg
      cases hg
      rfl
    · rw [Function.bytes_text]
      exact scan_name (hl.leading? hf) position

theorem scan_fails {position : Nat} {t : Text} {e : LexicalError} (h : Fails position t e) :
    scan position t = .error e := by
  cases h with
  | unknown hc hn =>
    rename_i c cs
    have hr : Decimal.isNumeralChar c = false := by
      rw [← Bool.not_eq_true]
      exact fun hr => hn [c] (.run (isRun_singleton hr)) (List.prefix_append [c] cs)
    have hs : c ∉ symbols := fun hs => hn [c] (.symbol hs) (List.prefix_append [c] cs)
    have hl : Function.leading? (c :: cs) = none := by
      rw [Option.eq_none_iff_forall_ne_some]
      intro f hf
      have hm : f ≠ .factorial := Function.mem_named.mp (List.mem_of_find?_eq_some hf)
      exact hn f.text (.name hm)
        (List.isPrefixOf_iff_prefix.mp (Function.isPrefixOf_of_leading? hf))
    exact scan_unknown hc hr hs hl position
  | malformed hw hr h =>
    rw [scan_run hr.ne_nil hr.numeral (hw.breaks hr), literal_malformed hr.numeral h]
    rfl
  | tooLarge hw hr h ho =>
    rw [scan_run hr.ne_nil hr.numeral (hw.breaks hr), literal_overflow hr.numeral h ho]
    rfl

end Lexeme

theorem Munched.scan_eq {done t : Text} (h : Munched done t) :
    ∃ ks, Lexeme.scan 0 (done ++ t) =
        (Lexeme.scan done.bytes t >>= fun ls => .ok (ks ++ ls)) ∧
      ∀ k ∈ ks, k.stop ≤ done.bytes ∧ ∀ f, k.token = .function f →
        ∃ p rest, done ++ t = p ++ (f.text ++ rest) ∧ Munched p (f.text ++ rest) ∧
          k.stop = p.bytes + f.text.bytes := by
  induction h with
  | start rest =>
    refine ⟨[], ?_, by simp⟩
    rw [List.nil_append, Text.bytes_nil]
    cases Lexeme.scan 0 rest <;> rfl
  | @blank done rest c h hc ih =>
    obtain ⟨ks, hs, hk⟩ := ih
    rw [Lexeme.scan_blank hc] at hs
    refine ⟨ks, ?_, fun k hm => ⟨?_, fun f hf => ?_⟩⟩
    · simpa using hs
    · have hle := (hk k hm).1
      rw [Text.bytes_append]; omega
    · simpa using (hk k hm).2 f hf
  | @lexeme done w rest h hw hr ih =>
    obtain ⟨ks, hs, hk⟩ := ih
    obtain ⟨k, hkf, hscan⟩ := Lexeme.exists_token hw.isLexeme hr
    rw [hscan hw, bind_assoc] at hs
    refine ⟨ks ++ [⟨k, done.bytes, done.bytes + w.bytes⟩], ?_, ?_⟩
    · rw [List.append_assoc, hs, Text.bytes_append]
      simp only [List.append_assoc, List.singleton_append]
      rfl
    · rw [Text.bytes_append, List.append_assoc]
      refine List.forall_mem_append.mpr ⟨fun l hl => ?_, List.forall_mem_singleton.mpr ?_⟩
      · exact ⟨Nat.le_add_right_of_le (hk l hl).1, (hk l hl).2⟩
      · refine ⟨Nat.le_refl _, fun f hf => ?_⟩
        obtain rfl := hkf f hf
        exact ⟨done, rest, rfl, h, rfl⟩

namespace Token

theorem exists_settle {size : Nat} (previous : Option Token) {ls : List Lexeme}
    (h : ∀ l ∈ ls, ∀ f, l.token = .function f → f.takesBare = true → l.stop ≠ size) :
    ∃ ts, settle size previous ls = .ok ts := by
  induction previous, ls using settle_induction with
  | nil previous => exact ⟨[], by rw [settle]⟩
  | fold previous start next stop v ls ha ih =>
    obtain ⟨ts, ht⟩ := ih fun l hl =>
      h l (List.mem_cons_of_mem _ (List.mem_cons_of_mem _ hl))
    exact ⟨_, by rw [settle_fold ha, ht]; rfl⟩
  | keep previous l ls hf ih =>
    rw [List.forall_mem_cons] at h
    obtain ⟨ts, ht⟩ := ih h.2
    exact ⟨_, by rw [settle_keep hf h.1, ht]; rfl⟩

theorem settle_bare {size : Nat} {f : Function} (hf : f.takesBare = true) (start : Nat)
    (previous : Option Token) {ks : List Lexeme} (h : ∀ k ∈ ks, k.stop ≠ size) :
    settle size previous (ks ++ [⟨.function f, start, size⟩]) =
      .error (.unknownCharacter (f.text.headD ' ') start) := by
  generalize hl : ks ++ [⟨.function f, start, size⟩] = ls
  induction previous, ls using settle_induction generalizing ks with
  | nil previous => simp at hl
  | fold previous first next stop v ls ha ih =>
    cases ks with
    | nil => cases hl
    | cons k ks =>
      cases ks with
      | nil => cases hl
      | cons k' ks =>
        simp only [List.cons_append, List.cons.injEq] at hl
        rw [List.forall_mem_cons, List.forall_mem_cons] at h
        rw [settle_fold ha, ih h.2.2 hl.2.2]
        rfl
  | keep previous l ls hk ih =>
    cases ks with
    | nil =>
      cases hl
      simp [settle, hf]
    | cons k ks =>
      obtain ⟨rfl, hr⟩ := List.cons.inj hl
      rw [List.forall_mem_cons] at h
      rw [settle_keep hk (fun _ _ _ => h.1), ih h.2 hr]
      rfl

end Token

/-- The last lexeme of `s`, after `p`, is a function that could take a bare operand. -/
structure EndsBare (s p : Text) (f : Function) : Prop where
  bare : f ∈ [.ln, .log, .sqrt]
  text_eq : s = p ++ f.text
  munched : Munched p f.text

theorem ofText_of_fails {s p rest : Text} {e : LexicalError} (hs : s = p ++ rest)
    (h : Munched p rest) (he : Fails p.bytes rest e) : Token.ofText s = .error e := by
  obtain ⟨ks, hk, -⟩ := h.scan_eq
  rw [Token.ofText, hs, hk, Lexeme.scan_fails he]
  rfl

theorem EndsBare.ofText {s p : Text} {f : Function} (h : EndsBare s p f) :
    Token.ofText s = .error (.unknownCharacter (f.text.headD ' ') p.bytes) := by
  obtain ⟨hf, rfl, hm⟩ := h
  have ht := Function.takesBare_iff.mpr hf
  obtain ⟨ks, hs, hk⟩ := hm.scan_eq
  have hn := Lexeme.scan_name
    (Function.leading?_text_nil (Function.ne_factorial_of_takesBare ht)) p.bytes
  rw [List.append_nil, ← Function.bytes_text, ← Text.bytes_append] at hn
  have hp := f.text_length_pos
  have hlt : p.bytes < (p ++ f.text).bytes := by
    rw [Text.bytes_append, Function.bytes_text]; omega
  have hstop : ∀ k ∈ ks, k.stop ≠ (p ++ f.text).bytes := fun k hm =>
    Nat.ne_of_lt (Nat.lt_of_le_of_lt (hk k hm).1 hlt)
  have hb := Token.settle_bare ht p.bytes none hstop
  rw [Token.ofText, hs, hn, Lexeme.scan]
  exact hb

theorem exists_ofText {s : Text} (h : Munched s []) (hb : ¬ ∃ p f, EndsBare s p f) :
    ∃ ts, Token.ofText s = .ok ts := by
  obtain ⟨ks, hs, hk⟩ := h.scan_eq
  rw [List.append_nil, Lexeme.scan] at hs
  have hn : ∀ k ∈ ks, ∀ f, k.token = .function f → f.takesBare = true → k.stop ≠ s.bytes := by
    intro k hm f hf ht hstop
    obtain ⟨p, rest, hp, hm, he⟩ := (hk k hm).2 f hf
    rw [List.append_nil] at hp
    rw [he, hp, Text.bytes_append, Text.bytes_append] at hstop
    rw [Text.eq_nil_of_bytes (t := rest) (by omega), List.append_nil] at hp hm
    exact hb ⟨p, f, Function.takesBare_iff.mp ht, hp, hm⟩
  obtain ⟨ts, ht⟩ := Token.exists_settle none hn
  refine ⟨ts, ?_⟩
  rw [Token.ofText, hs]
  simpa [bind, Except.bind] using ht

theorem Fails.position_eq {position : Nat} {t : Text} {e : LexicalError}
    (h : Fails position t e) : e.position = position := by
  cases h <;> rfl

/-- There is only one place where one cannot go on. -/
theorem Munched.eq_of_fails {p rest p' rest' : Text} {e e' : LexicalError}
    (hs : p ++ rest = p' ++ rest') (h : Munched p rest) (he : Fails p.bytes rest e)
    (h' : Munched p' rest') (he' : Fails p'.bytes rest' e') : p = p' ∧ e = e' := by
  have ho := ofText_of_fails hs h' he'
  rw [ofText_of_fails rfl h he, Except.error.injEq] at ho
  subst ho
  have hb : p.bytes = p'.bytes := he.position_eq.symm.trans he'.position_eq
  refine ⟨?_, rfl⟩
  rcases List.append_eq_append_iff.mp hs with ⟨q, rfl, -⟩ | ⟨q, rfl, -⟩
  · rw [Text.bytes_append] at hb
    rw [Text.eq_nil_of_bytes (t := q) (by omega), List.append_nil]
  · rw [Text.bytes_append] at hb
    rw [Text.eq_nil_of_bytes (t := q) (by omega), List.append_nil]

/-- A text has tokens if going through it one comes to its end, and it does not end in a function
that could take a bare operand. Otherwise the error is the one of the place where one cannot go on,
or the first letter of that function. -/
theorem ofText_eq_of_munched (s : Text) :
    ((∃ ts, Token.ofText s = .ok ts) ↔ Munched s [] ∧ ¬ ∃ p f, EndsBare s p f) ∧
      ∀ e, Token.ofText s = .error e ↔
        (∃ p rest, s = p ++ rest ∧ Munched p rest ∧ Fails p.bytes rest e) ∨
          (Munched s [] ∧ ∃ p f c cs, EndsBare s p f ∧ f.text = c :: cs ∧
            e = .unknownCharacter c p.bytes) := by
  have hbare : ∀ p f c cs, EndsBare s p f → f.text = c :: cs →
      Token.ofText s = .error (.unknownCharacter c p.bytes) := by
    intro p f c cs h hc
    rw [h.ofText, hc]
    rfl
  have hplace : Munched s [] ∨ ∃ p rest e, s = p ++ rest ∧ Munched p rest ∧
      Fails p.bytes rest e := (Munched.start s).end_or_fails
  refine ⟨⟨fun ⟨ts, ht⟩ => ?_, fun h => exists_ofText h.1 h.2⟩, fun e => ⟨fun he => ?_, ?_⟩⟩
  · refine ⟨?_, fun ⟨p, f, h⟩ => ?_⟩
    · rcases hplace with hm | ⟨p, rest, e, hs, hm, he⟩
      · exact hm
      · rw [ofText_of_fails hs hm he] at ht
        cases ht
    · rw [h.ofText] at ht
      cases ht
  · rcases hplace with hm | ⟨p, rest, e', hs, hm, he'⟩
    · by_cases hb : ∃ p f, EndsBare s p f
      · obtain ⟨p, f, h⟩ := hb
        obtain ⟨c, cs, hc⟩ := List.exists_cons_of_length_pos f.text_length_pos
        rw [hbare p f c cs h hc] at he
        exact .inr ⟨hm, p, f, c, cs, h, hc, (Except.error.inj he).symm⟩
      · obtain ⟨ts, ht⟩ := exists_ofText hm hb
        rw [ht] at he
        cases he
    · rw [ofText_of_fails hs hm he'] at he
      cases he
      exact .inl ⟨p, rest, hs, hm, he'⟩
  · intro h
    rcases h with ⟨p, rest, hs, hm, he⟩ | ⟨-, p, f, c, cs, h, hc, rfl⟩
    · exact ofText_of_fails hs hm he
    · exact hbare p f c cs h hc

example : Token.ofText "²1 ln".toList = .error (.unknownCharacter '²' 0) := by decide +kernel

example : Token.ofText "\u00a02 ln".toList = .error (.unknownCharacter 'l' 4) := by decide +kernel

end Reckoner
