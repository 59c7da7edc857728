import Reckoner.CommandLine.Input

set_option autoImplicit false

namespace Reckoner

namespace Text

section

variable {separator : Char}

theorem split_of_notMem {t : Text} (h : separator ∉ t) : split separator t = [t] := by
  induction t with
  | nil => rfl
  | cons c t ih =>
    rw [List.mem_cons, not_or] at h
    rw [split, if_neg (Ne.symm h.1), ih h.2]

theorem separator_notMem_of_mem_split {t p : Text} (h : p ∈ split separator t) :
    separator ∉ p := by
  induction t generalizing p with
  | nil =>
    rw [List.mem_singleton.mp h]
    exact List.not_mem_nil
  | cons c t ih =>
    rw [split] at h
    split at h
    · rcases List.mem_cons.mp h with rfl | h
      · exact List.not_mem_nil
      · exact ih h
    · next hc =>
      split at h
      · next he => exact absurd he (split_ne_nil separator t)
      · next q qs he =>
        rw [he] at ih
        rcases List.mem_cons.mp h with rfl | h
        · rw [List.mem_cons, not_or]
          exact ⟨Ne.symm hc, ih List.mem_cons_self⟩
        · exact ih (List.mem_cons_of_mem q h)

theorem split_join {ps : List Text} (hne : ps ≠ []) (h : ∀ p ∈ ps, separator ∉ p) :
    split separator (join [separator] ps) = ps := by
  induction ps with
  | nil => exact absurd rfl hne
  | cons p ps ih =>
    rw [List.forall_mem_cons] at h
    cases ps with
    | nil => exact split_of_notMem h.1
    | cons q qs =>
      have hj : join [separator] (p :: q :: qs) = p ++ separator :: join [separator] (q :: qs) := by
        simp [join]
      rw [hj, split_append_separator, split_of_notMem h.1, ih (by simp) h.2]
      rfl

theorem join_split (t : Text) : join [separator] (split separator t) = t := by
  induction t with
  | nil => rfl
  | cons c t ih =>
    rw [split]
    cases hs : split separator t with
    | nil => exact absurd hs (split_ne_nil separator t)
    | cons p ps =>
      rw [hs] at ih
      split
      · next hc => simp [join, ih, hc]
      · cases ps <;> simp [join, ← ih]

end

theorem dropWhile_of_head? {p : Char → Bool} {t : Text} (h : ∀ c ∈ t.head?, p c = false) :
    t.dropWhile p = t := by
  cases t with
  | nil => rfl
  | cons c t => simp [h c rfl]

theorem of_mem_head?_dropWhile {p : Char → Bool} {t : Text} :
    ∀ c ∈ (t.dropWhile p).head?, p c = false := by
  intro c hc
  have h := List.head?_dropWhile_not p t
  rw [Option.mem_def.mp hc] at h
  exact h

theorem mem_head?_of_isPrefix {s t : Text} (h : s <+: t) {c : Char} (hc : c ∈ s.head?) :
    c ∈ t.head? := by
  obtain ⟨u, rfl⟩ := h
  cases s with
  | nil => cases hc
  | cons d s => exact hc

theorem isPrefix_trimEnd (t : Text) : trimEnd t <+: t :=
  ⟨_, dropEndWhile_append_takeWhile isBlank t⟩

structure Trimmed (t : Text) : Prop where
  head : ∀ c ∈ t.head?, isBlank c = false
  last : ∀ c ∈ t.getLast?, isBlank c = false

theorem isBlank_getLast?_trimEnd (t : Text) : ∀ c ∈ (trimEnd t).getLast?, isBlank c = false := by
  rw [trimEnd, dropEndWhile, List.getLast?_reverse]
  exact of_mem_head?_dropWhile

theorem trimEnd_of_getLast? {t : Text} (h : ∀ c ∈ t.getLast?, isBlank c = false) :
    trimEnd t = t := by
  rw [← List.head?_reverse] at h
  rw [trimEnd, dropEndWhile, dropWhile_of_head? h, List.reverse_reverse]

theorem trimmed_trim (t : Text) : Trimmed (trim t) where
  head _ hc := of_mem_head?_dropWhile _ (mem_head?_of_isPrefix (isPrefix_trimEnd _) hc)
  last := isBlank_getLast?_trimEnd _

theorem Trimmed.trim_eq {t : Text} (h : Trimmed t) : trim t = t := by
  rw [trim, trimStart, dropWhile_of_head? h.head, trimEnd_of_getLast? h.last]

theorem mem_of_mem_trim {t : Text} {c : Char} (h : c ∈ trim t) : c ∈ t :=
  (List.dropWhile_suffix isBlank).mem ((isPrefix_trimEnd _).mem h)

theorem trimEnd_append_blanks (t : Text) {v : Text} (hv : ∀ c ∈ v, isBlank c = true) :
    trimEnd (t ++ v) = trimEnd t := by
  have hr : ∀ c ∈ v.reverse, isBlank c = true := by simpa using hv
  rw [trimEnd, dropEndWhile, List.reverse_append, List.dropWhile_append_of_pos hr, trimEnd,
    dropEndWhile]

theorem trim_append_blanks (t : Text) {v : Text} (hv : ∀ c ∈ v, isBlank c = true) :
    trim (t ++ v) = trim t := by
  rw [trim, trimStart, List.dropWhile_append, trim, trimStart]
  split
  · next h =>
    have hd : v.dropWhile isBlank = [] := by
      rw [← List.append_nil v, List.dropWhile_append_of_pos hv, List.dropWhile_nil]
    rw [hd, List.isEmpty_iff.mp h]
  · exact trimEnd_append_blanks _ hv

theorem trim_blanks_append {u : Text} (hu : ∀ c ∈ u, isBlank c = true) (t : Text) :
    trim (u ++ t) = trim t := by
  rw [trim, trimStart, List.dropWhile_append_of_pos hu, trim, trimStart]

def Padded (e t : Text) : Prop :=
  ∃ u v, (∀ c ∈ u, isBlank c = true) ∧ (∀ c ∈ v, isBlank c = true) ∧ t = u ++ e ++ v

theorem padded_trim (t : Text) : Padded (trim t) t := by
  refine ⟨t.takeWhile isBlank, (t.trimStart.reverse.takeWhile isBlank).reverse, ?_, ?_, ?_⟩
  · exact fun c hc => List.all_eq_true.mp List.all_takeWhile c hc
  · exact fun c hc => List.all_eq_true.mp List.all_takeWhile c (List.mem_reverse.mp hc)
  · rw [List.append_assoc, trim, trimEnd, dropEndWhile_append_takeWhile, trimStart,
      List.takeWhile_append_dropWhile]

theorem Padded.trim_eq {e t : Text} (h : Padded e t) (he : Trimmed e) : trim t = e := by
  obtain ⟨u, v, hu, hv, rfl⟩ := h
  rw [trim_append_blanks _ hv, trim_blanks_append hu, he.trim_eq]

theorem dropWhile_append_cons {p : Char → Bool} {c : Char} (h : p c = false) (s t : Text) :
    (s ++ c :: t).dropWhile p = s.dropWhile p ++ c :: t := by
  rw [List.dropWhile_append]
  split
  · next hn =>
    rw [List.isEmpty_iff.mp hn]
    simp [h]
  · rfl

theorem trimEnd_append_cons (s t : Text) {c : Char} (h : isBlank c = false) :
    trimEnd (s ++ c :: t) = s ++ c :: trimEnd t := by
  have hr : (s ++ c :: t).reverse = t.reverse ++ c :: s.reverse := by simp
  rw [trimEnd, dropEndWhile, hr, dropWhile_append_cons h, trimEnd, dropEndWhile]
  simp

theorem trim_append_cons (s t : Text) {c : Char} (h : isBlank c = false) :
    trim (s ++ c :: t) = trimStart s ++ c :: trimEnd t := by
  rw [trim, trimStart, dropWhile_append_cons h, trimEnd_append_cons _ _ h, trimStart]

/-- A carriage return belongs to the line break behind it. -/
def dropReturn (l : Text) : Text := if l.getLast? = some '\r' then l.dropLast else l

theorem trim_dropReturn (l : Text) : trim (dropReturn l) = trim l := by
  rw [dropReturn]
  split
  · next h =>
    obtain ⟨s, rfl⟩ := List.getLast?_eq_some_iff.mp h
    have hb : ∀ c ∈ ['\r'], isBlank c = true := by
      intro c hc
      rw [List.mem_singleton.mp hc]
      decide
    rw [List.dropLast_concat, trim_append_blanks s hb]
  · rfl

/-- The lines of a file, given what its line breaks separate: the last one needs no break, and
behind a last break there is no line. -/
def closed : List Text → List Text
  | [] => []
  | [l] => if l = [] then [] else [l]
  | l :: k :: ks => dropReturn l :: closed (k :: ks)

end Text

namespace Worksheet

theorem expression?_dropReturn (l : Text) : expression? l.dropReturn = expression? l := by
  rw [expression?, Text.trim_dropReturn, expression?]

theorem expressions_eq_closed (t : Text) :
    expressions t = (Text.closed t.lines).filterMap expression? := by
  rw [expressions]
  induction t.lines with
  | nil => rfl
  | cons l ls ih =>
    cases ls with
    | nil =>
      by_cases hl : l = []
      · subst hl
        rfl
      · rw [Text.closed, if_neg hl]
    | cons k ks =>
      have hc : Text.closed (l :: k :: ks) = l.dropReturn :: Text.closed (k :: ks) := rfl
      rw [List.filterMap_cons, ih, hc, List.filterMap_cons, expression?_dropReturn]

theorem isPrefix_leftSide (t : Text) : leftSide t <+: t := by
  rw [leftSide]
  split
  · exact (Text.isPrefix_trimEnd _).trans (List.takeWhile_prefix _)
  · exact List.prefix_refl t

theorem equals_notMem_leftSide (t : Text) : '=' ∉ leftSide t := by
  rw [leftSide]
  split
  · intro h
    have hm := (Text.isPrefix_trimEnd _).mem h
    have ha := List.all_eq_true.mp List.all_takeWhile _ hm
    cases ha
  · assumption

theorem trimmed_leftSide {t : Text} (h : t.Trimmed) : (leftSide t).Trimmed where
  head c hc := h.head c (Text.mem_head?_of_isPrefix (isPrefix_leftSide t) hc)
  last := by
    rw [leftSide]
    split
    · exact Text.isBlank_getLast?_trimEnd _
    · exact h.last

theorem leftSide_trim_append {first : Text} (h : '=' ∉ first) (rest : Text) :
    leftSide (Text.trim (first ++ '=' :: rest)) = first.trim := by
  have hf : ∀ c ∈ first.trimStart, (c != '=') = true := by
    intro c hc
    rw [bne_iff_ne]
    rintro rfl
    exact h ((List.dropWhile_suffix isBlank).mem hc)
  rw [Text.trim_append_cons _ _ (by decide), leftSide, if_pos (by simp),
    List.takeWhile_append_of_pos hf]
  simp [Text.trim]

theorem expression?_eq_some {l e : Text} :
    expression? l = some e ↔ l.trim ≠ [] ∧ l.trim.head? ≠ some '#' ∧ leftSide l.trim = e := by
  rw [expression?]
  cases l.trim with
  | nil => simp
  | cons c t =>
    by_cases hc : c = '#'
    · subst hc
      simp
    · simp [hc]

/-- Neither blanks around it nor a comment, and nothing in it that would be cut off. -/
structure Plain (e : Text) : Prop where
  trimmed : e.Trimmed
  comment : e.head? ≠ some '#'
  equals : '=' ∉ e

/-- What a line holds, namely all of it or what is before its first equals sign. -/
inductive Holds : Text → Text → Prop where
  | whole {line e : Text} (h : Plain e) (hne : e ≠ []) (hp : Text.Padded e line) : Holds line e
  | before {first rest e : Text} (h : Plain e) (hp : Text.Padded e first) :
      Holds (first ++ '=' :: rest) e

theorem plain_of_expression? {l e : Text} (h : expression? l = some e) : Plain e := by
  obtain ⟨-, hc, rfl⟩ := expression?_eq_some.mp h
  exact {
    trimmed := trimmed_leftSide l.trimmed_trim
    comment := fun hh => hc (Text.mem_head?_of_isPrefix (isPrefix_leftSide l.trim) hh)
    equals := equals_notMem_leftSide _ }

theorem expression?_of_padded {l e : Text} (h : Plain e) (hne : e ≠ []) (hp : l.trim = e) :
    expression? l = some e := by
  rw [expression?_eq_some, hp, leftSide, if_neg h.equals]
  exact ⟨hne, h.comment, rfl⟩

theorem Plain.expression?_eq {e : Text} (h : Plain e) (hne : e ≠ []) : expression? e = some e :=
  expression?_of_padded h hne h.trimmed.trim_eq

theorem Plain.equals_notMem {first e : Text} (h : Plain e) (hp : Text.Padded e first) :
    '=' ∉ first := by
  obtain ⟨u, v, hu, hv, rfl⟩ := hp
  have hb : ∀ t : Text, (∀ c ∈ t, isBlank c = true) → '=' ∉ t := by
    intro t ht hm
    have hm := ht _ hm
    cases hm
  simp [hb u hu, hb v hv, h.equals]

theorem Plain.expression?_append {first e : Text} (h : Plain e) (hp : Text.Padded e first)
    (rest : Text) : expression? (first ++ '=' :: rest) = some e := by
  have ht := hp.trim_eq h.trimmed
  rw [expression?_eq_some, leftSide_trim_append (h.equals_notMem hp), Text.trim_append_cons _ _
    (by decide)]
  refine ⟨by simp, ?_, ht⟩
  -- A number sign at the head would be at the head of `e` as well.
  cases hs : first.trimStart with
  | nil => simp
  | cons c s =>
    intro hc
    rw [List.cons_append, List.head?_cons, Option.some.injEq] at hc
    subst hc
    rw [Text.trim, hs, ← List.nil_append ('#' :: s), Text.trimEnd_append_cons _ _ (by decide)] at ht
    exact h.comment (ht ▸ rfl)

theorem expression?_eq_some_iff (line e : Text) : expression? line = some e ↔ Holds line e := by
  constructor
  · intro he
    have hp := plain_of_expression? he
    obtain ⟨hne, -, rfl⟩ := expression?_eq_some.mp he
    by_cases hm : '=' ∈ line
    · obtain ⟨first, rest, rfl, hf⟩ := List.eq_append_cons_of_mem hm
      rw [leftSide_trim_append hf] at hp ⊢
      exact .before hp (Text.padded_trim first)
    · have hl : leftSide line.trim = line.trim := if_neg fun h => hm (Text.mem_of_mem_trim h)
      rw [hl] at hp ⊢
      exact .whole hp hne line.padded_trim
  · rintro (⟨h, hne, hp⟩ | ⟨h, hp⟩)
    · exact expression?_of_padded h hne (hp.trim_eq h.trimmed)
    · exact h.expression?_append hp _

theorem expression?_eq_some_nil (l : Text) :
    expression? l = some [] ↔ l.trim.head? = some '=' := by
  have hb := l.trimmed_trim.head
  rw [expression?_eq_some]
  generalize l.trim = t at hb ⊢
  cases t with
  | nil => simp
  | cons c t =>
    have hc : isBlank c = false := hb c rfl
    by_cases he : c = '='
    · subst he
      simp [leftSide, Text.trimEnd, Text.dropEndWhile]
    · have hn : leftSide (c :: t) ≠ [] := by
        rw [leftSide]
        split
        · rw [List.takeWhile_cons, if_pos (bne_iff_ne.mpr he),
            ← List.nil_append (c :: _), Text.trimEnd_append_cons _ _ hc]
          simp
        · simp
      simp [hn, he]

theorem nil_mem_expressions (t : Text) :
    [] ∈ expressions t ↔ ∃ l ∈ t.lines, l.trim.head? = some '=' := by
  simp only [expressions, List.mem_filterMap, expression?_eq_some_nil]

theorem newline_notMem_of_mem_expressions {t e : Text} (h : e ∈ expressions t) : '\n' ∉ e := by
  obtain ⟨l, hl, he⟩ := List.mem_filterMap.mp h
  obtain ⟨-, -, rfl⟩ := expression?_eq_some.mp he
  intro hm
  have hm := Text.mem_of_mem_trim ((isPrefix_leftSide l.trim).mem hm)
  exact Text.separator_notMem_of_mem_split hl hm

theorem plain_of_mem_expressions {t e : Text} (h : e ∈ expressions t) : Plain e := by
  obtain ⟨l, -, he⟩ := List.mem_filterMap.mp h
  exact plain_of_expression? he

theorem filterMap_expression? {es : List Text} (h : ∀ e ∈ es, Plain e) :
    es.filterMap expression? = es.filter (· ≠ []) := by
  induction es with
  | nil => rfl
  | cons e es ih =>
    rw [List.forall_mem_cons] at h
    by_cases he : e = []
    · subst he
      exact ih h.2
    · rw [List.filterMap_cons_some (h.1.expression?_eq he), ih h.2, List.filter_cons_of_pos]
      simpa using he

/-- A worksheet is read line by line, and the expressions read from it, written one a line, are
read again as they are, but for the empty ones. Those come from lines that begin with an equals
sign. -/
theorem expressions_join :
    (∀ s t : Text, expressions (s ++ '\n' :: t) = expressions s ++ expressions t) ∧
      (∀ t : Text, expressions (Text.join ['\n'] (expressions t)) =
        (expressions t).filter (· ≠ [])) ∧
      (∀ t : Text, expressions t = (Text.closed t.lines).filterMap expression?) ∧
      (∀ t : Text, Text.join ['\n'] t.lines = t ∧ ∀ l ∈ t.lines, '\n' ∉ l) ∧
      (∀ line e : Text, expression? line = some e ↔ Holds line e) ∧
      ∀ t : Text, [] ∈ expressions t ↔ ∃ l ∈ t.lines, l.trim.head? = some '=' := by
  refine ⟨expressions_append_newline, fun t => ?_, expressions_eq_closed,
    fun t => ⟨Text.join_split t, fun l => Text.separator_notMem_of_mem_split⟩,
    expression?_eq_some_iff, nil_mem_expressions⟩
  have hp : ∀ e ∈ expressions t, Plain e := fun e he => plain_of_mem_expressions he
  by_cases hne : expressions t = []
  · rw [hne]
    rfl
  · rw [expressions, Text.lines,
      Text.split_join hne fun e he => newline_notMem_of_mem_expressions he]
    exact filterMap_expression? hp

example : expressions "# sums\n\n 1 + 2 = 3\r\n= 4\n5!".toList =
    ["1 + 2".toList, [], "5!".toList] := by decide +kernel

end Worksheet
end Reckoner
