import Reckoner.Proofs.Legible

set_option autoImplicit false

namespace Reckoner

theorem IsLexeme.isBlank_of_mem {w : Text} (h : IsLexeme w) : ∀ d ∈ w, isBlank d = false := by
  cases h with
  | run h => exact fun d hd => isBlank_of_isNumeralChar (h.numeral d hd)
  | symbol h => simpa using isBlank_of_mem_symbols h
  | name h =>
    rename_i f
    have ha : f.text.all (!isBlank ·) := by cases f <;> decide
    simpa using ha

theorem IsLexeme.prefix_append_blank {w : Text} (hw : IsLexeme w) {c : Char}
    (hc : isBlank c = true) {t rest : Text} (h : w <+: t ++ c :: rest) : w <+: t := by
  rcases List.prefix_or_prefix_of_prefix h (List.prefix_append t (c :: rest)) with h' | ⟨q, rfl⟩
  · exact h'
  · cases q with
    | nil => simp
    | cons d q =>
      have hd := (List.prefix_append_right_inj t).mp h
      obtain ⟨rfl, -⟩ := List.cons_prefix_cons.mp hd
      rw [hw.isBlank_of_mem d (by simp)] at hc
      cases hc

theorem Longest.append_blank {w rest : Text} (h : Longest w rest) {c : Char}
    (hc : isBlank c = true) (t : Text) : Longest w (rest ++ c :: t) := by
  refine ⟨h.isLexeme, fun v hv hp => h.length_le v hv ?_⟩
  rw [← List.append_assoc] at hp
  exact hv.prefix_append_blank hc hp

theorem Fails.append_blank {position : Nat} {t : Text} {e : LexicalError}
    (h : Fails position t e) {c : Char} (hc : isBlank c = true) (rest : Text) :
    Fails position (t ++ c :: rest) e := by
  cases h with
  | unknown hd h => exact .unknown hd fun w hw hp => h w hw (hw.prefix_append_blank hc hp)
  | malformed hw hr h =>
    rw [List.append_assoc]
    exact .malformed (hw.append_blank hc rest) hr h
  | tooLarge hw hr h ho =>
    rw [List.append_assoc]
    exact .tooLarge (hw.append_blank hc rest) hr h ho

theorem Fails.shift {position : Nat} {t : Text} {e : LexicalError} (h : Fails position t e)
    (n : Nat) : Fails (n + position) t (e.shift n) := by
  cases h with
  | unknown hd h => exact .unknown hd h
  | malformed hw hr h => exact .malformed hw hr h
  | tooLarge hw hr h ho => exact .tooLarge hw hr h ho

/-- What holds of the empty text and of every text that begins with no lexeme, and still holds if
a blank or a lexeme is put in front, holds of all texts. -/
theorem munch_induction {motive : Text → Prop} (nil : motive [])
    (blank : ∀ c t, isBlank c = true → motive t → motive (c :: t))
    (lexeme : ∀ w rest, Longest w rest → (IsRun w → InRange w) → motive rest → motive (w ++ rest))
    (fails : ∀ t e, Fails 0 t e → motive t) (t : Text) : motive t := by
  induction hn : t.length using Nat.strongRecOn generalizing t with
  | ind n ih =>
    subst hn
    rcases place_cases 0 t with rfl | ⟨c, cs, rfl, hc⟩ | ⟨w, rest, rfl, hw, hr⟩ | ⟨e, he⟩
    · exact nil
    · exact blank c cs hc (ih _ (Nat.lt_succ_self _) cs rfl)
    · have hp := List.length_pos_iff.mpr hw.isLexeme.ne_nil
      exact lexeme w rest hw hr (ih _ (by rw [List.length_append]; omega) rest rfl)
    · exact fails t e he

namespace Lexeme

theorem scan_append_blank {c : Char} (hc : isBlank c = true) (position : Nat) (t rest : Text) :
    scan position (t ++ c :: rest) =
      scan position t >>= fun ks => scan (position + t.bytes) (c :: rest) >>= fun ls =>
        .ok (ks ++ ls) := by
  induction t using munch_induction generalizing position with
  | nil =>
    rw [List.nil_append, Text.bytes_nil, Nat.add_zero, scan]
    cases scan position (c :: rest) <;> rfl
  | blank d t hd ih =>
    rw [List.cons_append, scan_blank hd, scan_blank hd, ih, Text.bytes_cons, Nat.add_assoc]
  | lexeme w t hw hr ih =>
    obtain ⟨k, -, hk⟩ := exists_token hw.isLexeme hr
    rw [List.append_assoc, hk (hw.append_blank hc rest), hk hw, ih, Text.bytes_append,
      ← Nat.add_assoc]
    simp only [bind_assoc]
    rfl
  | fails t e he =>
    have hp : Fails position t (e.shift position) := he.shift position
    rw [scan_fails hp, scan_fails (hp.append_blank hc rest)]
    rfl

def shift (n : Nat) (l : Lexeme) : Lexeme := ⟨l.token, n + l.start, n + l.stop⟩

theorem scan_shift (n position : Nat) (t : Text) :
    scan (n + position) t =
      ((scan position t).map (List.map (shift n))).mapError (LexicalError.shift n) := by
  induction t using munch_induction generalizing position with
  | nil =>
    rw [scan, scan]
    rfl
  | blank d t hd ih => rw [scan_blank hd, scan_blank hd, Nat.add_assoc, ih]
  | lexeme w t hw hr ih =>
    obtain ⟨k, -, hk⟩ := exists_token hw.isLexeme hr
    rw [hk hw, hk hw, Nat.add_assoc, ih]
    cases scan (position + w.bytes) t <;> rfl
  | fails t e he =>
    have hp : Fails position t (e.shift position) := he.shift position
    rw [scan_fails (hp.shift n), scan_fails hp]
    rfl

theorem scan_ok_induction {motive : Nat → Text → List Lexeme → Prop}
    (nil : ∀ position, motive position [] [])
    (blank : ∀ position c t ls, isBlank c = true → motive (position + c.utf8Size) t ls →
      motive position (c :: t) ls)
    (lexeme : ∀ position w t k ls, Longest w t →
      (∀ rest, Longest w rest → scan position (w ++ rest) =
        scan (position + w.bytes) rest >>= fun ls =>
          .ok (⟨k, position, position + w.bytes⟩ :: ls)) →
      scan (position + w.bytes) t = .ok ls → motive (position + w.bytes) t ls →
      motive position (w ++ t) (⟨k, position, position + w.bytes⟩ :: ls))
    {position : Nat} {t : Text} {ls : List Lexeme} (h : scan position t = .ok ls) :
    motive position t ls := by
  induction t using munch_induction generalizing position ls with
  | nil =>
    rw [scan] at h
    cases h
    exact nil position
  | blank c t hc ih =>
    rw [scan_blank hc] at h
    exact blank _ _ _ _ hc (ih h)
  | lexeme w t hw hr ih =>
    obtain ⟨k, -, hk⟩ := exists_token hw.isLexeme hr
    rw [hk hw] at h
    obtain ⟨ks, hs, h⟩ := bind_eq_ok h
    cases h
    exact lexeme _ _ _ _ _ hw (fun rest hw => hk hw position) hs (ih hs)
  | fails t e he =>
    have hp : Fails position t (e.shift position) := he.shift position
    rw [scan_fails hp] at h
    cases h

theorem stop_le {position : Nat} {t : Text} {ls : List Lexeme} (h : scan position t = .ok ls) :
    ∀ l ∈ ls, l.stop ≤ position + t.bytes := by
  refine scan_ok_induction
    (motive := fun position t ls => ∀ l ∈ ls, l.stop ≤ position + t.bytes) ?_ ?_ ?_ h
  · simp
  · intro position c t ls _ ih
    rwa [Text.bytes_cons, ← Nat.add_assoc]
  · intro position w t k ls _ _ _ ih
    rw [Text.bytes_append, ← Nat.add_assoc]
    exact List.forall_mem_cons.mpr ⟨Nat.le_add_right _ _, ih⟩

end Lexeme

namespace Token

theorem folds_iff {previous : Option Token} {l : Lexeme} {ls : List Lexeme} :
    Folds previous l ls ↔ l.token = .operator .minus ∧ awaitsOperand previous = true ∧
      ∃ k ∈ ls.head?, (∃ v, k.token = .number v) ∧ k.start = l.stop := by
  refine and_congr_right fun _ => and_congr_right fun _ => ?_
  constructor
  · rintro ⟨v, stop, rest, rfl⟩
    exact ⟨_, rfl, ⟨v, rfl⟩, rfl⟩
  · rintro ⟨⟨t, start, stop⟩, hk, ⟨v, rfl⟩, rfl⟩
    cases ls with
    | nil => cases hk
    | cons k ls =>
      cases hk
      exact ⟨v, stop, ls, rfl⟩

theorem folds_shift (n : Nat) {previous : Option Token} {l : Lexeme} {ls : List Lexeme} :
    Folds previous (l.shift n) (ls.map (Lexeme.shift n)) ↔ Folds previous l ls := by
  cases ls <;> simp [folds_iff, Lexeme.shift]

theorem refusal?_shift (n size : Nat) (l : Lexeme) :
    refusal? (n + size) (l.shift n) = (refusal? size l).map (LexicalError.shift n) := by
  obtain ⟨t, start, stop⟩ := l
  cases t with
  | function f =>
    have hs : (n + stop == n + size) = (stop == size) := by
      rw [Bool.eq_iff_iff]
      simp
    simp only [refusal?, Lexeme.shift, hs]
    split <;> rfl
  | _ => rfl

theorem settle_shift (n size : Nat) (previous : Option Token) (ls : List Lexeme) :
    settle (n + size) previous (ls.map (Lexeme.shift n)) =
      (settle size previous ls).mapError (LexicalError.shift n) := by
  induction previous, ls using settle_induction with
  | nil previous =>
    rw [List.map_nil, settle, settle]
    rfl
  | fold previous start next stop v ls ha ih =>
    rw [List.map_cons, List.map_cons, Lexeme.shift, Lexeme.shift, settle_fold ha, settle_fold ha,
      ih]
    cases settle size (some (.number v.neg)) ls <;> rfl
  | keep previous l ls hf ih =>
    rw [List.map_cons, settle_cons (mt (folds_shift n).mp hf), settle_cons hf, refusal?_shift]
    cases refusal? size l with
    | some e => rfl
    | none =>
      rw [Option.map_none, Lexeme.shift, ih]
      cases settle size (some l.token) ls <;> rfl

/-- Only whether an operand must follow is known of what stands before. -/
theorem settle_congr {p q : Option Token} (h : awaitsOperand p = awaitsOperand q) (size : Nat)
    (ls : List Lexeme) : settle size p ls = settle size q ls := by
  rw [settle.eq_def, settle.eq_def size q]
  split <;> simp [h]

theorem reading_shift (n position : Nat) (previous : Option Token) (t : Text) :
    reading previous (n + position) t =
      (reading previous position t).mapError (LexicalError.shift n) := by
  rw [reading, reading, Lexeme.scan_shift, Nat.add_assoc]
  cases Lexeme.scan position t with
  | error e => rfl
  | ok ls => exact settle_shift n _ previous ls

theorem settle_append {size size' : Nat} {previous : Option Token} {ks ls : List Lexeme}
    {ts : List Token} (h : settle size' previous ks = .ok ts) (hb : ∀ k ∈ ks, k.stop ≠ size)
    (hn : ∀ k ∈ ks, ∀ l ∈ ls.head?, l.start ≠ k.stop) :
    settle size previous (ks ++ ls) = (settle size (latest previous ts) ls).map (ts ++ ·) := by
  induction previous, ks using settle_induction generalizing ts with
  | nil previous =>
    rw [settle] at h
    cases h
    rw [List.nil_append, latest_nil]
    cases settle size previous ls <;> rfl
  | fold previous start next stop v ks ha ih =>
    rw [settle_fold ha] at h
    obtain ⟨us, hu, rfl⟩ := map_eq_ok h
    simp only [List.forall_mem_cons] at hb hn
    rw [List.cons_append, List.cons_append, settle_fold ha, ih hu hb.2.2 hn.2.2, latest_cons]
    cases settle size (latest (some (.number v.neg)) us) ls <;> rfl
  | keep previous l ks hf ih =>
    obtain ⟨us, hu, rfl⟩ := settle_keep_eq_ok hf h
    rw [List.forall_mem_cons] at hb hn
    have hf' : ¬ Folds previous l (ks ++ ls) := by
      rw [folds_iff] at hf ⊢
      rintro ⟨ht, ha, k, hk, hv, he⟩
      cases ks with
      | nil => exact hn.1 k hk he
      | cons k' ks => exact hf ⟨ht, ha, k, hk, hv, he⟩
    rw [List.cons_append, settle_keep hf' (fun _ _ _ => hb.1), ih hu hb.2 hn.2, latest_cons]
    cases settle size (latest (some l.token) us) ls <;> rfl

theorem settle_eq_of_not_folds {p q : Option Token} {l : Lexeme} {ls : List Lexeme}
    (hp : ¬ Folds p l ls) (hq : ¬ Folds q l ls) (size : Nat) :
    settle size p (l :: ls) = settle size q (l :: ls) := by
  rw [settle_cons hp, settle_cons hq]

theorem spells_of_ofText {t : Text} {ts : List Token} (h : ofText t = .ok ts) {c : Char}
    (hc : isBlank c = true) (rest : Text) : Spells none t ts (c :: rest) := by
  obtain ⟨ks, hk, hs⟩ := bind_eq_ok h
  have hshift : ∀ position, Lexeme.scan position t = .ok (ks.map (Lexeme.shift position)) := by
    intro position
    have hp := Lexeme.scan_shift position 0 t
    rw [hk] at hp
    exact hp
  refine spells_of_scan (fun position => ks.map (Lexeme.shift position)) (fun position => ?_)
    (fun position size ls hl hsize => ?_)
  · rw [Lexeme.scan_append_blank hc, hshift]
    rfl
  · have hle := Lexeme.stop_le (hshift position)
    have hsettle := settle_shift position t.bytes none ks
    rw [hs] at hsettle
    have hp := c.utf8Size_pos
    refine settle_append hsettle (fun k hm => ?_) (fun k hm l hl' => ?_)
    · have := hle k hm
      rw [Text.bytes_cons] at hsize
      omega
    · have := hle k hm
      rw [Lexeme.scan_blank hc] at hl
      have := Lexeme.le_start hl l (List.mem_of_mem_head? hl')
      omega

theorem spells_blanks {w : Text} (hw : ∀ c ∈ w, isBlank c = true) (previous : Option Token)
    (rest : Text) : Spells previous w [] rest := by
  induction w with
  | nil => exact spells_nil previous rest
  | cons c w ih =>
    rw [List.forall_mem_cons] at hw
    exact (ih hw.2).blank_cons hw.1

theorem ofText_append_of_ofText {a w : Text} {ts : List Token} (h : ofText a = .ok ts)
    (hne : w ≠ []) (hw : ∀ c ∈ w, isBlank c = true) (b : Text) :
    ofText (a ++ w ++ b) =
      ((reading ts.getLast? 0 b).mapError (.shift (a ++ w).bytes)).map (ts ++ ·) := by
  obtain ⟨c, w, rfl⟩ := List.exists_cons_of_ne_nil hne
  have ha := (spells_of_ofText h (hw c List.mem_cons_self) (w ++ b)).append
    (spells_blanks hw (latest none ts) b) 0
  have hs := reading_shift (a ++ c :: w).bytes 0 ts.getLast? b
  rw [Nat.add_zero] at hs
  rw [ofText_eq_reading, ha, Nat.zero_add, List.append_nil, latest, Option.or_none, hs]

/-- The last of these tokens ends an operand: it is no operator, and it opens no group. -/
def EndsOperand (ts : List Token) : Prop :=
  ∃ t, ts.getLast? = some t ∧ t ≠ .opening ∧ ∀ o, t ≠ .operator o

theorem endsOperand_iff {ts : List Token} :
    EndsOperand ts ↔ awaitsOperand ts.getLast? = false := by
  unfold EndsOperand
  cases ts.getLast? with
  | none => simp [awaitsOperand]
  | some t => cases t <;> simp [awaitsOperand]

/-- The first lexeme of the text is a minus and the second the literal `v`, which it touches. -/
def BeginsSigned (t : Text) (v : Binary64) : Prop :=
  ∃ start next stop ls,
    Lexeme.scan 0 t = .ok (⟨.operator .minus, start, next⟩ :: ⟨.number v, next, stop⟩ :: ls)

theorem reading_of_awaits {previous : Option Token} (h : awaitsOperand previous = true)
    (position : Nat) (t : Text) : reading previous position t = reading none position t := by
  rw [reading, reading]
  congr 1
  funext ls
  exact settle_congr h _ ls

theorem reading_of_not_beginsSigned {t : Text} (h : ∀ v, ¬ BeginsSigned t v)
    (previous : Option Token) : reading previous 0 t = reading none 0 t := by
  rw [reading, reading]
  cases hs : Lexeme.scan 0 t with
  | error e => rfl
  | ok ls =>
    cases ls with
    | nil => exact (settle.eq_1 _ _).trans (settle.eq_1 _ _).symm
    | cons l ls =>
      have hf : ∀ p, ¬ Folds p l ls := by
        intro p hp
        obtain ⟨k, start, next⟩ := l
        obtain ⟨rfl, -, v, stop, rest, rfl⟩ := hp
        exact h v ⟨start, next, stop, rest, hs⟩
      exact settle_eq_of_not_folds (hf previous) (hf none) _

theorem reading_of_beginsSigned {t : Text} {v : Binary64} (h : BeginsSigned t v)
    {previous : Option Token} (hp : awaitsOperand previous = false) :
    ∃ r : Except LexicalError (List Token), reading none 0 t = r.map (.number v.neg :: ·) ∧
      reading previous 0 t = r.map fun ts => .operator .minus :: .number v :: ts := by
  obtain ⟨start, next, stop, ls, hs⟩ := h
  refine ⟨settle (0 + t.bytes) (some (.number v.neg)) ls, ?_, ?_⟩
  · rw [reading, hs]
    exact settle_fold rfl _ _ _ _ _ _
  · have hm : ¬ Folds previous ⟨.operator .minus, start, next⟩ (⟨.number v, next, stop⟩ :: ls) := by
      rw [folds_iff, hp]
      simp
    have hv : ¬ Folds (some (.operator .minus)) ⟨.number v, next, stop⟩ ls := by simp [Folds]
    have hc : settle (0 + t.bytes) (some (.number v)) ls =
        settle (0 + t.bytes) (some (.number v.neg)) ls :=
      settle_congr (p := some (.number v)) (q := some (.number v.neg)) rfl _ ls
    rw [reading, hs]
    refine (settle_keep hm (by simp)).trans ?_
    rw [settle_keep hv (by simp), hc]
    cases settle (0 + t.bytes) (some (.number v.neg)) ls <;> rfl

theorem reading_eq_or_signed (previous : Option Token) (t : Text) :
    reading previous 0 t = reading none 0 t ∨
      awaitsOperand previous = false ∧ ∃ v, BeginsSigned t v := by
  cases hp : awaitsOperand previous with
  | true => exact .inl (reading_of_awaits hp 0 t)
  | false =>
    by_cases hv : ∃ v, BeginsSigned t v
    · exact .inr ⟨rfl, hv⟩
    · exact .inl (reading_of_not_beginsSigned (fun v h => hv ⟨v, h⟩) previous)

/-- Two texts set apart by blanks have the tokens of the first and those of the second, but a sign
at the head of the second is an operator if the first ends an operand. Otherwise the whole has the
error of the part, at the place where it stands in the whole. -/
theorem ofText_append_blanks {w : Text} (hne : w ≠ []) (hw : ∀ c ∈ w, isBlank c = true)
    (a b : Text) :
    (∀ ts us, ofText a = .ok ts → ofText b = .ok us →
        (∀ v, BeginsSigned b v → EndsOperand ts → ∃ vs, us = .number v.neg :: vs ∧
          ofText (a ++ w ++ b) = .ok (ts ++ [.operator .minus, .number v] ++ vs)) ∧
        (¬ (EndsOperand ts ∧ ∃ v, BeginsSigned b v) → ofText (a ++ w ++ b) = .ok (ts ++ us))) ∧
      (∀ ts e, ofText a = .ok ts → ofText b = .error e →
        ofText (a ++ w ++ b) = .error (e.shift (a ++ w).bytes)) ∧
      ∀ e, Lexeme.scan 0 a = .error e → ofText (a ++ w ++ b) = .error e := by
  refine ⟨fun ts us ha hb => ⟨fun v hv he => ?_, fun hn => ?_⟩, fun ts e ha hb => ?_,
    fun e he => ?_⟩
  · obtain ⟨r, hr, hr'⟩ := reading_of_beginsSigned hv (endsOperand_iff.mp he)
    rw [ofText_eq_reading, hr] at hb
    obtain ⟨vs, rfl, rfl⟩ := map_eq_ok hb
    refine ⟨vs, rfl, ?_⟩
    rw [ofText_append_of_ofText ha hne hw, hr', List.append_assoc]
    rfl
  · rcases reading_eq_or_signed ts.getLast? b with hr | ⟨hp, hv⟩
    · rw [ofText_append_of_ofText ha hne hw, hr, ← ofText_eq_reading, hb]
      rfl
    · exact absurd ⟨endsOperand_iff.mpr hp, hv⟩ hn
  · have hr : reading ts.getLast? 0 b = .error e := by
      rw [ofText_eq_reading] at hb
      rcases reading_eq_or_signed ts.getLast? b with hr | ⟨hp, v, hv⟩
      · rw [hr, hb]
      · obtain ⟨r, hr, hr'⟩ := reading_of_beginsSigned hv hp
        rw [hr] at hb
        rw [hr']
        cases r with
        | error e' =>
          cases hb
          rfl
        | ok vs => cases hb
    rw [ofText_append_of_ofText ha hne hw, hr]
    rfl
  · obtain ⟨c, w, rfl⟩ := List.exists_cons_of_ne_nil hne
    have hs := Lexeme.scan_append_blank (hw c List.mem_cons_self) 0 a (w ++ b)
    rw [he] at hs
    rw [List.append_assoc, List.cons_append, ofText, hs]
    rfl

theorem ofText_append_blanks_signed :
    ofText ("0)".toList ++ ['\u3000'] ++ "-0!".toList) =
        .ok [.number .zero, .closing, .operator .minus, .number .zero, .bang] ∧
      ofText ("0(".toList ++ ['\u3000'] ++ "-0!".toList) =
        .ok [.number .zero, .opening, .number (.neg .zero), .bang] ∧
      ofText ("0)".toList ++ ['\u3000'] ++ "²".toList) = .error (.unknownCharacter '²' 5) ∧
      ofText ("0..".toList ++ ['\u3000'] ++ "²".toList) =
        .error (.malformedNumber "0..".toList 0) := by
  have h := ofText_append_blanks (w := ['\u3000']) (by simp) (List.all_eq_true.mp (by decide))
  have ha : ofText "0)".toList = .ok [.number .zero, .closing] := by decide +kernel
  have ho : ofText "0(".toList = .ok [.number .zero, .opening] := by decide +kernel
  have hb : ofText "-0!".toList = .ok [.number (.neg .zero), .bang] := by decide +kernel
  have hv : BeginsSigned "-0!".toList .zero := ⟨0, 1, 2, [⟨.bang, 2, 3⟩], by decide +kernel⟩
  have he : EndsOperand [.number .zero, .closing] := ⟨.closing, rfl, by decide, by simp⟩
  have hn : ¬ EndsOperand [.number .zero, .opening] := by simp [endsOperand_iff, awaitsOperand]
  refine ⟨?_, ?_, ?_, ?_⟩
  · obtain ⟨vs, hs, hr⟩ := ((h _ _).1 _ _ ha hb).1 _ hv he
    cases hs
    exact hr
  · exact ((h _ _).1 _ _ ho hb).2 fun hs => hn hs.1
  · exact (h _ _).2.1 _ (.unknownCharacter '²' 0) ha (by decide +kernel)
  · exact (h _ _).2.2 (.malformedNumber "0..".toList 0) (by decide +kernel)

end Token
end Reckoner
