import Reckoner.Proofs.Signs

set_option autoImplicit false

namespace Reckoner

/-- Puts a text into another, behind so many of its bytes. -/
def Text.insertAt (p : Nat) (w : Text) : Text → Text
  | [] => w
  | c :: t => if p = 0 then w ++ c :: t else c :: insertAt (p - c.utf8Size) w t

theorem Text.insertAt_bytes (a w b : Text) : insertAt a.bytes w (a ++ b) = a ++ w ++ b := by
  induction a with
  | nil => cases b <;> simp [insertAt]
  | cons c a ih =>
    have hp := c.utf8Size_pos
    rw [List.cons_append, bytes_cons, insertAt, if_neg (by omega), Nat.add_sub_cancel_left, ih]
    rfl

theorem Text.bytes_insertAt (p : Nat) (w t : Text) :
    (insertAt p w t).bytes = w.bytes + t.bytes := by
  induction t generalizing p with
  | nil => rfl
  | cons c t ih =>
    rw [insertAt]
    split
    · exact bytes_append w (c :: t)
    · rw [bytes_cons, ih, bytes_cons]
      omega

theorem Longest.of_append {w a b : Text} (h : Longest w (a ++ b)) : Longest w a := by
  refine ⟨h.isLexeme, fun v hv hp => h.length_le v hv ?_⟩
  rw [← List.append_assoc]
  exact hp.trans (List.prefix_append (w ++ a) b)

theorem flatMap_range_pair {α : Type} (f : Nat → List α) {i n : Nat} (h : i + 2 ≤ n) :
    (List.range n).flatMap f = (List.range i).flatMap f ++
      (f i ++ (f (i + 1) ++ (List.range' (i + 2) (n - (i + 2))).flatMap f)) := by
  obtain ⟨m, rfl⟩ := Nat.exists_eq_add_of_le h
  have hr : List.range (i + 2 + m) = List.range i ++ i :: (i + 1) :: List.range' (i + 2) m := by
    rw [List.range_eq_range', List.range_eq_range', Nat.add_assoc, Nat.add_comm 2 m,
      ← List.range'_append_1, Nat.zero_add, List.range'_succ, List.range'_succ]
  rw [hr, Nat.add_sub_cancel_left]
  simp only [List.flatMap_append, List.flatMap_cons]

namespace Lexeme

theorem exists_split {position p : Nat} {t : Text} {ls : List Lexeme}
    (h : scan position t = .ok ls) (hp : ∃ l ∈ ls, p = l.start ∨ p = l.stop) :
    ∃ a b ks ms, t = a ++ b ∧ p = position + a.bytes ∧ scan position a = .ok ks ∧
      scan p b = .ok ms ∧ ls = ks ++ ms := by
  refine scan_ok_induction (motive := fun position t ls => (∃ l ∈ ls, p = l.start ∨ p = l.stop) →
    ∃ a b ks ms, t = a ++ b ∧ p = position + a.bytes ∧ scan position a = .ok ks ∧
      scan p b = .ok ms ∧ ls = ks ++ ms) ?_ ?_ ?_ h hp
  · simp
  · intro position c t ls hc ih hp
    obtain ⟨a, b, ks, ms, rfl, rfl, ha, hb, rfl⟩ := ih hp
    refine ⟨c :: a, b, ks, ms, rfl, ?_, ?_, hb, rfl⟩
    · rw [Text.bytes_cons, Nat.add_assoc]
    · rwa [scan_blank hc]
  · intro position w t k ls hw hk hl ih hp
    -- Behind the first lexeme the text comes apart at its end, or where the rest does.
    have hcut : p = position ∨ ∃ a b ks ms, t = a ++ b ∧ p = position + w.bytes + a.bytes ∧
        scan (position + w.bytes) a = .ok ks ∧ scan p b = .ok ms ∧ ls = ks ++ ms := by
      obtain ⟨l, hm, hp⟩ := hp
      rcases List.mem_cons.mp hm with rfl | hm
      · rcases hp with rfl | rfl
        · exact .inl rfl
        · exact .inr ⟨[], t, [], ls, rfl, rfl, by rw [scan], hl, rfl⟩
      · exact .inr (ih ⟨l, hm, hp⟩)
    rcases hcut with rfl | ⟨a, b, ks, ms, rfl, rfl, ha, hb, rfl⟩
    · refine ⟨[], w ++ t, [], _, rfl, rfl, by rw [scan], ?_, rfl⟩
      rw [hk t hw, hl]
      rfl
    · refine ⟨w ++ a, b, _ :: ks, ms, (List.append_assoc w a b).symm, ?_, ?_, hb, rfl⟩
      · rw [Text.bytes_append, Nat.add_assoc]
      · rw [hk a hw.of_append, ha]
        rfl

theorem start_lt_stop {position : Nat} {t : Text} {ls : List Lexeme}
    (h : scan position t = .ok ls) : ∀ l ∈ ls, l.start < l.stop := by
  refine scan_ok_induction (motive := fun _ _ ls => ∀ l ∈ ls, l.start < l.stop) ?_ ?_ ?_ h
  · simp
  · intro _ _ _ _ _ ih
    exact ih
  · intro position w t k ls hw _ _ ih
    have hp := Text.bytes_pos hw.isLexeme.ne_nil
    exact List.forall_mem_cons.mpr ⟨Nat.lt_add_of_pos_right hp, ih⟩

theorem pairwise_stop_le {position : Nat} {t : Text} {ls : List Lexeme}
    (h : scan position t = .ok ls) : ls.Pairwise fun l k => l.stop ≤ k.start := by
  refine scan_ok_induction
    (motive := fun _ _ ls => ls.Pairwise fun l k => l.stop ≤ k.start) ?_ ?_ ?_ h
  · simp
  · intro _ _ _ _ _ ih
    exact ih
  · intro position w t k ls _ _ hl ih
    exact List.pairwise_cons.mpr ⟨le_start hl, ih⟩

def spread (p n : Nat) (l : Lexeme) : Lexeme :=
  ⟨l.token, if p ≤ l.start then n + l.start else l.start,
    if p < l.stop then n + l.stop else l.stop⟩

theorem spread_of_stop_le {p n : Nat} {l : Lexeme} (hl : l.start < l.stop) (h : l.stop ≤ p) :
    spread p n l = l := by
  simp only [spread, if_neg (Nat.not_lt.mpr h), if_neg (Nat.not_le.mpr (Nat.lt_of_lt_of_le hl h))]

theorem spread_of_le_start {p n : Nat} {l : Lexeme} (hl : l.start < l.stop) (h : p ≤ l.start) :
    spread p n l = l.shift n := by
  simp only [spread, shift, if_pos h, if_pos (Nat.lt_of_le_of_lt h hl)]

theorem scan_blanks {w : Text} (hw : ∀ c ∈ w, isBlank c = true) (position : Nat) (t : Text) :
    scan position (w ++ t) = scan (position + w.bytes) t := by
  induction w generalizing position with
  | nil => rfl
  | cons c w ih =>
    rw [List.forall_mem_cons] at hw
    rw [List.cons_append, scan_blank hw.1, ih hw.2, Text.bytes_cons, Nat.add_assoc]

theorem scan_insertAt {s w : Text} {ls : List Lexeme} {p : Nat} (h : scan 0 s = .ok ls)
    (hp : ∃ l ∈ ls, p = l.start ∨ p = l.stop) (hne : w ≠ []) (hw : ∀ c ∈ w, isBlank c = true) :
    scan 0 (Text.insertAt p w s) = .ok (ls.map (spread p w.bytes)) := by
  obtain ⟨a, b, ks, ms, rfl, hpa, ha, hb, rfl⟩ := exists_split h hp
  rw [Nat.zero_add] at hpa
  subst hpa
  have hlt := start_lt_stop h
  rw [List.forall_mem_append] at hlt
  have hks : ks.map (spread a.bytes w.bytes) = ks := by
    refine (List.map_congr_left fun l hl => ?_).trans (List.map_id ks)
    have hle := stop_le ha l hl
    rw [Nat.zero_add] at hle
    exact spread_of_stop_le (hlt.1 l hl) hle
  have hms : ms.map (spread a.bytes w.bytes) = ms.map (shift w.bytes) :=
    List.map_congr_left fun l hl => spread_of_le_start (hlt.2 l hl) (le_start hb l hl)
  have hshift : scan (a.bytes + w.bytes) b = .ok (ms.map (shift w.bytes)) := by
    rw [Nat.add_comm, scan_shift, hb]
    rfl
  obtain ⟨c, v, rfl⟩ := List.exists_cons_of_ne_nil hne
  rw [Text.insertAt_bytes, List.append_assoc, List.cons_append,
    scan_append_blank (hw c List.mem_cons_self), ha, Nat.zero_add, ← List.cons_append,
    scan_blanks hw, hshift, List.map_append, hks, hms]
  rfl

theorem touches_spread {p n : Nat} (hn : 0 < n) {l k : Lexeme} (h : l.stop ≤ k.start) :
    (spread p n k).start = (spread p n l).stop ↔ k.start = l.stop ∧ l.stop ≠ p := by
  simp only [spread]
  split <;> split <;> omega

theorem beginsOperand_spread (p n : Nat) (ls : List Lexeme) (i : Nat) :
    beginsOperand (ls.map (spread p n)) i = beginsOperand ls i := by
  cases i with
  | zero => rfl
  | succ i =>
    cases hl : ls[i]? with
    | none => simp [beginsOperand, hl]
    | some l =>
      have hm : (ls.map (spread p n))[i]? = some (spread p n l) := by
        rw [List.getElem?_map, hl]
        rfl
      exact (beginsOperand_succ hm).trans (beginsOperand_succ hl).symm

/-- The position lies between a sign, at this index, and its literal. -/
def PartsSign (ls : List Lexeme) (p i : Nat) (v : Binary64) : Prop :=
  signed? ls i = some v ∧ ls[i]?.map stop = some p

section

variable {ls : List Lexeme} (hord : ls.Pairwise fun l k => l.stop ≤ k.start)
include hord

theorem stop_le_start {i j : Nat} {l k : Lexeme} (hl : ls[i]? = some l) (hk : ls[j]? = some k)
    (hij : i < j) : l.stop ≤ k.start := by
  obtain ⟨hi, rfl⟩ := List.getElem?_eq_some_iff.mp hl
  obtain ⟨hj, rfl⟩ := List.getElem?_eq_some_iff.mp hk
  exact List.pairwise_iff_getElem.mp hord i j hi hj hij

theorem signed?_spread {p n : Nat} (hn : 0 < n) {i : Nat} {v : Binary64} :
    signed? (ls.map (spread p n)) i = some v ↔
      signed? ls i = some v ∧ ls[i]?.map stop ≠ some p := by
  constructor
  · intro h
    obtain ⟨l', k', hl', hk', ht, hv, he, hb⟩ := signed?_eq_some_iff.mp h
    rw [List.getElem?_map, Option.map_eq_some_iff] at hl' hk'
    obtain ⟨l, hl, rfl⟩ := hl'
    obtain ⟨k, hk, rfl⟩ := hk'
    obtain ⟨he, hne⟩ :=
      (touches_spread hn (stop_le_start hord hl hk (Nat.lt_succ_self i))).mp he
    rw [beginsOperand_spread] at hb
    refine ⟨signed?_eq_some_iff.mpr ⟨l, k, hl, hk, ht, hv, he, hb⟩, ?_⟩
    simpa [hl] using hne
  · rintro ⟨h, hp⟩
    obtain ⟨l, k, hl, hk, ht, hv, he, hb⟩ := signed?_eq_some_iff.mp h
    have hne : l.stop ≠ p := by simpa [hl] using hp
    refine signed?_eq_some_iff.mpr
      ⟨spread p n l, spread p n k, by simp [hl], by simp [hk], ht, hv, ?_, ?_⟩
    · exact (touches_spread hn (Nat.le_of_eq he.symm)).mpr ⟨he, hne⟩
    · rwa [beginsOperand_spread]

theorem signed?_spread_of_ne {p n : Nat} (hn : 0 < n) {i : Nat}
    (h : ∀ v, ¬ PartsSign ls p i v) : signed? (ls.map (spread p n)) i = signed? ls i := by
  refine Option.ext fun v => ?_
  rw [signed?_spread hord hn]
  exact and_iff_left_of_imp fun hs hp => h v ⟨hs, hp⟩

theorem tokensAt_spread {p n : Nat} (hn : 0 < n) {i : Nat}
    (h : ∀ j v, PartsSign ls p j v → j ≠ i ∧ j + 1 ≠ i) :
    tokensAt (ls.map (spread p n)) i = tokensAt ls i := by
  have hs : ∀ j, j = i ∨ j + 1 = i → signed? (ls.map (spread p n)) j = signed? ls j := by
    intro j hj
    refine signed?_spread_of_ne hord hn fun v hv => ?_
    have hne := h j v hv
    omega
  have hb : hasSign (ls.map (spread p n)) i = hasSign ls i := by
    cases i with
    | zero => rfl
    | succ i => rw [hasSign, hasSign, hs i (.inr rfl)]
  have ht : (ls.map (spread p n))[i]?.map token = ls[i]?.map token := by
    rw [List.getElem?_map, Option.map_map]
    rfl
  rw [tokensAt, tokensAt, hs i (.inl rfl), hb, ht]

theorem flatMap_tokensAt_spread {p n : Nat} (hn : 0 < n) (is : List Nat)
    (h : ∀ i ∈ is, ∀ j v, PartsSign ls p j v → j ≠ i ∧ j + 1 ≠ i) :
    is.flatMap (tokensAt (ls.map (spread p n))) = is.flatMap (tokensAt ls) := by
  rw [List.flatMap_def, List.flatMap_def,
    List.map_congr_left fun i hi => tokensAt_spread hord hn (h i hi)]

theorem PartsSign.eq (hlt : ∀ l ∈ ls, l.start < l.stop) {p i j : Nat} {v w : Binary64}
    (hi : PartsSign ls p i v) (hj : PartsSign ls p j w) : i = j := by
  obtain ⟨l, hl, hp⟩ := Option.map_eq_some_iff.mp hi.2
  obtain ⟨k, hk, hq⟩ := Option.map_eq_some_iff.mp hj.2
  have hls := hlt l (List.mem_of_getElem? hl)
  have hks := hlt k (List.mem_of_getElem? hk)
  rcases Nat.lt_trichotomy i j with h | h | h
  · have := stop_le_start hord hl hk h
    omega
  · exact h
  · have := stop_le_start hord hk hl h
    omega

/-- A sign that is torn from its literal adds a minus, and the literal behind it adds itself. -/
theorem PartsSign.tokensAt_spread {p n i : Nat} (hn : 0 < n) {v : Binary64}
    (h : PartsSign ls p i v) :
    tokensAt (ls.map (spread p n)) i = [.operator .minus] ∧
      tokensAt (ls.map (spread p n)) (i + 1) = [.number v] := by
  obtain ⟨hs, hp⟩ := h
  obtain ⟨⟨_, start, stop⟩, ⟨_, next, last⟩, hl, hk, rfl, rfl, -⟩ := signed?_eq_some_iff.mp hs
  have hl' := congrArg (Option.map (spread p n)) hl
  have hk' := congrArg (Option.map (spread p n)) hk
  rw [← List.getElem?_map] at hl' hk'
  have hs' : signed? (ls.map (spread p n)) i = none := by
    rw [Option.eq_none_iff_forall_ne_some]
    exact fun w hw => ((signed?_spread hord hn).mp hw).2 hp
  constructor
  · exact tokensAt_of_signed?_eq_none hl' hs' (hasSign_eq_false hl' (by simp [spread]))
  · refine tokensAt_of_signed?_eq_none hk' (signed?_eq_none hk' (by simp [spread])) ?_
    rw [hasSign, hs', Option.isSome_none]

theorem PartsSign.exists_around (hlt : ∀ l ∈ ls, l.start < l.stop) {p n i : Nat} (hn : 0 < n)
    {v : Binary64} (h : PartsSign ls p i v) :
    ∃ us vs, us = (List.range i).flatMap (tokensAt ls) ∧
      (List.range ls.length).flatMap (tokensAt ls) = us ++ .number v.neg :: vs ∧
      (List.range ls.length).flatMap (tokensAt (ls.map (spread p n))) =
        us ++ .operator .minus :: .number v :: vs := by
  have hlen : i + 2 ≤ ls.length := by
    obtain ⟨-, k, -, hk, -⟩ := signed?_eq_some_iff.mp h.1
    exact (List.getElem?_eq_some_iff.mp hk).1
  have haway : ∀ m, m < i ∨ i + 2 ≤ m → ∀ j v, PartsSign ls p j v → j ≠ m ∧ j + 1 ≠ m := by
    intro m hm j v hj
    have he := PartsSign.eq hord hlt h hj
    omega
  obtain ⟨hminus, hnumber⟩ := h.tokensAt_spread hord hn
  obtain ⟨hsign, -, hnone⟩ := tokensAt_of_signed? h.1
  refine ⟨_, (List.range' (i + 2) (ls.length - (i + 2))).flatMap (tokensAt ls), rfl, ?_, ?_⟩
  · rw [flatMap_range_pair _ hlen, hsign, hnone]
    rfl
  · rw [flatMap_range_pair _ hlen, hminus, hnumber, flatMap_tokensAt_spread hord hn,
      flatMap_tokensAt_spread hord hn]
    · rfl
    · exact fun m hm => haway m (.inr (List.mem_range'_1.mp hm).1)
    · exact fun m hm => haway m (.inl (List.mem_range.mp hm))

end

end Lexeme

namespace Token

open Lexeme

theorem refusal?_eq_none_iff {size : Nat} {l : Lexeme} :
    refusal? size l = none ↔ ∀ f, l.token = .function f → f.takesBare = true → l.stop ≠ size := by
  obtain ⟨t, start, stop⟩ := l
  cases t <;> simp [refusal?]

theorem refusal?_spread {p n size : Nat} {l : Lexeme} (hp : p ≤ size) (hn : 0 < n)
    (h : refusal? size l = none) : refusal? (n + size) (spread p n l) = none := by
  rw [refusal?_eq_none_iff] at h ⊢
  intro f hf ht
  have hne := h f hf ht
  simp only [spread]
  split <;> omega

theorem ofText_insertAt_eq {s w : Text} {ts : List Token} {ls : List Lexeme} {p : Nat}
    (h : ofText s = .ok ts) (hl : scan 0 s = .ok ls)
    (hp : ∃ l ∈ ls, p = l.start ∨ p = l.stop) (hne : w ≠ []) (hw : ∀ c ∈ w, isBlank c = true) :
    ofText (Text.insertAt p w s) =
      .ok ((List.range ls.length).flatMap (tokensAt (ls.map (spread p w.bytes)))) := by
  rw [ofText, hl] at h
  have hr := (settle_eq_ok_iff.mp h).1
  have hle : p ≤ s.bytes := by
    obtain ⟨l, hm, hp⟩ := hp
    have hlt := start_lt_stop hl l hm
    have hle := stop_le hl l hm
    omega
  have hs : settle (w.bytes + s.bytes) none (ls.map (spread p w.bytes)) =
      .ok ((List.range ls.length).flatMap (tokensAt (ls.map (spread p w.bytes)))) := by
    refine settle_eq_ok_iff.mpr ⟨fun l hm => ?_, by rw [List.length_map]⟩
    obtain ⟨k, hk, rfl⟩ := List.mem_map.mp hm
    exact refusal?_spread hle (Text.bytes_pos hne) (hr k hk)
  rw [ofText, scan_insertAt hl hp hne hw, Text.bytes_insertAt]
  exact hs

/-- Blanks put where a lexeme begins or ends change no token. Only if they part a sign from its
literal, the two are an operator and an unsigned number, and the tokens around them stay. -/
theorem ofText_insertAt {s w : Text} {ts : List Token} {ls : List Lexeme} {p : Nat}
    (h : ofText s = .ok ts) (hl : scan 0 s = .ok ls)
    (hp : ∃ l ∈ ls, p = l.start ∨ p = l.stop) (hne : w ≠ []) (hw : ∀ c ∈ w, isBlank c = true) :
    ((∀ i v, ¬ PartsSign ls p i v) → ofText (Text.insertAt p w s) = .ok ts) ∧
      ∀ i v, PartsSign ls p i v → ∃ us vs, us = (List.range i).flatMap (tokensAt ls) ∧
        ts = us ++ .number v.neg :: vs ∧
        ofText (Text.insertAt p w s) = .ok (us ++ .operator .minus :: .number v :: vs) := by
  have hord := pairwise_stop_le hl
  have hn := Text.bytes_pos hne
  have hts : ts = (List.range ls.length).flatMap (tokensAt ls) := by
    rw [ofText, hl] at h
    exact (settle_eq_ok_iff.mp h).2
  have hins := ofText_insertAt_eq h hl hp hne hw
  refine ⟨fun hno => ?_, fun i v hi => ?_⟩
  · rw [hins, hts, flatMap_tokensAt_spread hord hn]
    exact fun i _ j v hj => absurd hj (hno j v)
  · obtain ⟨us, vs, hu, hold, hnew⟩ := hi.exists_around hord (start_lt_stop hl) hn
    exact ⟨us, vs, hu, hts.trans hold, hins.trans (congrArg _ hnew)⟩

theorem ofText_insertAt_signed :
    ofText (Text.insertAt 3 ['\u3000'] "(-0!".toList) =
        .ok [.opening, .number (.neg .zero), .bang] ∧
      ofText (Text.insertAt 2 ['\u3000'] "(-0!".toList) =
        .ok [.opening, .operator .minus, .number .zero, .bang] := by
  have ht : ofText "(-0!".toList = .ok [.opening, .number (.neg .zero), .bang] := by
    decide +kernel
  have hl : scan 0 "(-0!".toList = .ok [⟨.opening, 0, 1⟩, ⟨.operator .minus, 1, 2⟩,
      ⟨.number .zero, 2, 3⟩, ⟨.bang, 3, 4⟩] := by decide +kernel
  have hw : ∀ c ∈ ['\u3000'], isBlank c = true := List.all_eq_true.mp (by decide)
  constructor
  · refine (ofText_insertAt ht hl (by simp) (by simp) hw).1 fun i v hi => ?_
    match i with
    | 0 | 1 | 2 | 3 | _ + 4 => simp [PartsSign, signed?] at hi
  · obtain ⟨us, vs, hu, hts, hins⟩ := (ofText_insertAt ht hl (by simp) (by simp) hw).2 1 .zero
      ⟨by decide +kernel, rfl⟩
    obtain rfl : us = [.opening] := hu.trans (by decide +kernel)
    cases hts
    exact hins

end Token
end Reckoner
