import Reckoner.Proofs.Balance
import Reckoner.Tree.Building

/-!
The grammar of token lists, and the trees of its phrases. Main statement: what can be built is
exactly the phrases within both limits, and the tree built is the tree of the phrase.
-/
set_option autoImplicit false

namespace Reckoner

/-- Tokens that read as a tree, with the number of levels around the innermost of them. A number,
a group or a function with its operand may stand first; every suffix takes all that precedes it as
its left operand. -/
inductive Phrase : List Token → Tree → Nat → Prop where
  | number (v : Binary64) : Phrase [.number v] (.constant v) 0
  | group {ts : List Token} {t : Tree} {d : Nat} (h : Phrase ts t d) :
      Phrase (.opening :: ts ++ [.closing]) t (d + 1)
  | call (f : Function) {ts : List Token} {t : Tree} {d : Nat} (h : Phrase ts t d) :
      Phrase (.function f :: .opening :: ts ++ [.closing]) (.unary f t) (d + 1)
  | bare {f : Function} (hf : f.takesBare = true) (v : Binary64) :
      Phrase [.function f, .number v] (.unary f (.constant v)) 1
  | bang {ts : List Token} {t : Tree} {d : Nat} (h : Phrase ts t d) :
      Phrase (ts ++ [.bang]) (.unary .factorial t) d
  | operate {ts : List Token} {l : Tree} {d : Nat} (h : Phrase ts l d) (o : Operator)
      (v : Binary64) : Phrase (ts ++ [.operator o, .number v]) (.binary o l (.constant v)) d
  | operateGroup {ts us : List Token} {l r : Tree} {d e : Nat} (h : Phrase ts l d) (o : Operator)
      (hr : Phrase us r e) :
      Phrase (ts ++ .operator o :: .opening :: us ++ [.closing]) (.binary o l r) (max d (e + 1))

theorem Phrase.balanced {ts : List Token} {t : Tree} {d : Nat} (h : Phrase ts t d) :
    Token.Balanced ts := by
  induction h with
  | number v => exact Token.balanced_singleton (by simp) (by simp)
  | group h ih => exact ih.group
  | call f h ih => exact ih.group.cons (by simp) (by simp)
  | bare hf v => exact (Token.balanced_singleton (by simp) (by simp)).cons (by simp) (by simp)
  | bang h ih => exact ih.append (Token.balanced_singleton (by simp) (by simp))
  | operate h o v ih =>
    refine ih.append ?_
    exact (Token.balanced_singleton (by simp) (by simp)).cons (by simp) (by simp)
  | operateGroup h o hr ih ihr =>
    have hg := ih.append (ihr.group.cons (t := .operator o) (by simp) (by simp))
    simpa using hg

namespace Operand

def ofTree (t : Tree) : Operand := ⟨t, t.height⟩

theorem push_bind_of_le {α : Type} {t u : Tree} (hle : t.height ≤ u.height)
    {stack s : List Operand} {f g : List Operand → Except ReadingError α}
    (h : f (ofTree t :: stack) = (ofTree u).push s >>= g) :
    ((ofTree t).push stack >>= f) = (ofTree u).push s >>= g := by
  by_cases ht : heightLimit < t.height
  · have hu : heightLimit < u.height := Nat.lt_of_lt_of_le ht hle
    rw [push_of_lt (x := ofTree t) ht, push_of_lt (x := ofTree u) hu]
    rfl
  · rw [push_of_le (x := ofTree t) (Nat.not_lt.mp ht)]
    exact h

end Operand

theorem readWindow_enter_tree {stack s : List Operand} {k : Token} {ts window rest : List Token}
    {frame : Frame} (hm : Move.first stack k ts = .ok (.enter window frame s rest)) {depth : Nat}
    (hd : depth + 1 ≤ nestingLimit) {t u : Tree}
    (hw : readWindow (depth + 1) [] window =
      (Operand.ofTree t).push [] >>= fun s => readWindow (depth + 1) s [])
    (hu : frame.fill (.ofTree t) = .ofTree u) (hle : t.height ≤ u.height) :
    readWindow depth stack (k :: ts) =
      (Operand.ofTree u).push s >>= fun s => readWindow depth s rest := by
  rw [readWindow_enter hm hd, hw, bind_assoc]
  refine Operand.push_bind_of_le hle ?_
  simp [bind, Except.bind, readWindow, hu]

theorem enterGroup_balanced {ts : List Token} (h : Token.Balanced ts) (frame : Frame)
    (s : List Operand) (rest : List Token) :
    Move.enterGroup frame s (ts ++ .closing :: rest) = .ok (.enter ts frame s rest) := by
  rw [Move.enterGroup, h.splitAtClosing]

section

variable {ts : List Token} (h : Token.Balanced ts) (stack : List Operand) (rest : List Token)
include h

theorem Move.first_group : Move.first stack .opening (ts ++ .closing :: rest) =
    .ok (.enter ts .group stack rest) :=
  enterGroup_balanced h .group stack rest

theorem Move.first_call (f : Function) :
    Move.first stack (.function f) (.opening :: (ts ++ .closing :: rest)) =
      .ok (.enter ts (.argument f) stack rest) :=
  enterGroup_balanced h (.argument f) stack rest

theorem Move.first_operateGroup (o : Operator) (l : Operand) :
    Move.first (l :: stack) (.operator o) (.opening :: (ts ++ .closing :: rest)) =
      .ok (.enter ts (.right o l) stack rest) :=
  enterGroup_balanced h (.right o l) stack rest

end

/-- Reading a phrase puts its tree on the stack, unless the tree is too tall. -/
theorem readWindow_phrase {ts : List Token} {t : Tree} {d : Nat} (h : Phrase ts t d) (depth : Nat)
    (hd : depth + d ≤ nestingLimit) (stack : List Operand) (rest : List Token) :
    readWindow depth stack (ts ++ rest) =
      (Operand.ofTree t).push stack >>= fun s => readWindow depth s rest := by
  induction h generalizing depth stack rest with
  | number v => exact readWindow_place rfl depth
  | @group ts t d h ih =>
    have hw := ih (depth + 1) (by omega) [] []
    rw [List.append_nil] at hw
    have hm := Move.first_group h.balanced stack rest
    have he := readWindow_enter_tree hm (by omega) hw (u := t) rfl (Nat.le_refl _)
    simpa using he
  | @call f ts t d h ih =>
    have hw := ih (depth + 1) (by omega) [] []
    rw [List.append_nil] at hw
    have hm := Move.first_call h.balanced stack rest f
    have he := readWindow_enter_tree hm (by omega) hw (u := .unary f t) rfl
      (by simp [Tree.height])
    simpa using he
  | @bare f hf v =>
    have hw : readWindow (depth + 1) [] [.number v] =
        (Operand.ofTree (.constant v)).push [] >>= fun s => readWindow (depth + 1) s [] :=
      readWindow_place rfl (depth + 1)
    have hm : Move.first stack (.function f) (.number v :: rest) =
        .ok (.enter [.number v] (.argument f) stack rest) := if_pos hf
    exact readWindow_enter_tree hm (by omega) hw (u := .unary f (.constant v)) rfl
      (by simp [Tree.height])
  | @bang ts t d h ih =>
    rw [List.append_assoc, ih depth hd]
    exact Operand.push_bind_of_le (by simp [Tree.height]) (readWindow_place rfl depth)
  | @operate ts l d h o v ih =>
    rw [List.append_assoc, ih depth hd]
    refine Operand.push_bind_of_le ?_ (readWindow_place rfl depth)
    simp only [Tree.height]; omega
  | @operateGroup ts us l r d e h o hr ih ihr =>
    have hw := ihr (depth + 1) (by omega) [] []
    rw [List.append_nil] at hw
    have hm := Move.first_operateGroup hr.balanced stack rest o (.ofTree l)
    have he := readWindow_enter_tree hm (by omega) hw (u := .binary o l r) rfl
      (by simp only [Tree.height]; omega)
    rw [List.append_assoc, List.append_assoc, ih depth (by omega)]
    refine Operand.push_bind_of_le ?_ (by simpa using he)
    simp only [Tree.height]; omega

theorem ofTokens_phrase {ts : List Token} {t : Tree} {d : Nat} (h : Phrase ts t d)
    (hd : d ≤ nestingLimit) :
    Tree.ofTokens ts = if heightLimit < t.height then .error (.tooDeep heightLimit) else .ok t := by
  have hr := readWindow_phrase h 0 (by omega) [] []
  rw [List.append_nil] at hr
  rw [Tree.ofTokens, hr]
  split
  · next ht => rw [Operand.push_of_lt (x := .ofTree t) ht]; rfl
  · next ht =>
    rw [Operand.push_of_le (x := .ofTree t) (Nat.not_lt.mp ht)]
    simp [bind, Except.bind, pure, Except.pure, readWindow, Operand.ofTree]

/-- The moves there are: four put a new operand on the stack, and three take the one on top. -/
inductive Move.Takes : List Operand → Token → List Token → Move → Prop where
  | number (v : Binary64) (stack : List Operand) (rest : List Token) :
      Takes stack (.number v) rest (.place (.constant v) stack rest)
  | group (stack : List Operand) {ts window rest : List Token}
      (h : Token.splitAtClosing 0 ts = some (window, rest)) :
      Takes stack .opening ts (.enter window .group stack rest)
  | call (f : Function) (stack : List Operand) {ts window rest : List Token}
      (h : Token.splitAtClosing 0 ts = some (window, rest)) :
      Takes stack (.function f) (.opening :: ts) (.enter window (.argument f) stack rest)
  | bare {f : Function} (hf : f.takesBare = true) (t : Token) (stack : List Operand)
      (rest : List Token) :
      Takes stack (.function f) (t :: rest) (.enter [t] (.argument f) stack rest)
  | bang (x : Operand) (stack : List Operand) (rest : List Token) :
      Takes (x :: stack) .bang rest (.place (.unary .factorial x) stack rest)
  | operate (o : Operator) (l : Operand) (v : Binary64) (stack : List Operand) (rest : List Token) :
      Takes (l :: stack) (.operator o) (.number v :: rest)
        (.place (.binary o l (.constant v)) stack rest)
  | operateGroup (o : Operator) (l : Operand) (stack : List Operand) {ts window rest : List Token}
      (h : Token.splitAtClosing 0 ts = some (window, rest)) :
      Takes (l :: stack) (.operator o) (.opening :: ts) (.enter window (.right o l) stack rest)

theorem Move.enterGroup_eq_ok {frame : Frame} {stack : List Operand} {ts : List Token} {m : Move}
    (h : enterGroup frame stack ts = .ok m) : ∃ window rest,
      Token.splitAtClosing 0 ts = some (window, rest) ∧ m = .enter window frame stack rest := by
  unfold enterGroup at h
  split at h
  · cases h
  · next window rest hs =>
    cases h
    exact ⟨window, rest, hs, rfl⟩

theorem Move.takes_of_first {stack : List Operand} {t : Token} {ts : List Token} {m : Move}
    (h : first stack t ts = .ok m) : Takes stack t ts m := by
  cases t with
  | number v => cases h; exact .number v stack ts
  | closing => cases h
  | opening =>
    obtain ⟨window, rest, hs, rfl⟩ := enterGroup_eq_ok h
    exact .group stack hs
  | bang =>
    cases stack with
    | nil => cases h
    | cons x stack => cases h; exact .bang x stack ts
  | operator o =>
    cases ts with
    | nil => cases h
    | cons t ts =>
      cases stack with
      | nil => cases h
      | cons l stack =>
        cases t with
        | number v => cases h; exact .operate o l v stack ts
        | opening =>
          obtain ⟨window, rest, hs, rfl⟩ := enterGroup_eq_ok h
          exact .operateGroup o l stack hs
        | _ => cases h
  | function f =>
    simp only [first, function] at h
    split at h
    · cases h
    · obtain ⟨window, rest, hs, rfl⟩ := enterGroup_eq_ok h
      exact .call f stack hs
    · split at h
      · next hf => cases h; exact .bare hf _ stack _
      · cases h

theorem Phrase.ne_nil {ts : List Token} {t : Tree} {d : Nat} (h : Phrase ts t d) : ts ≠ [] := by
  cases h <;> simp

theorem Phrase.eq_number {k : Token} {t : Tree} {d : Nat} (h : Phrase [k] t d) :
    ∃ v, k = .number v ∧ t = .constant v ∧ d = 0 := by
  generalize hk : [k] = ts at h
  cases h with
  | number v => exact ⟨v, by simpa using hk, rfl, rfl⟩
  | bang h =>
    have hn := h.ne_nil
    rw [List.singleton_eq_append_iff] at hk
    simp_all
  | _ => simp_all [List.singleton_eq_append_iff]

def Forms (depth : Nat) (ts : List Token) (x : Operand) : Prop :=
  ∃ t d, Phrase ts t d ∧ x = .ofTree t ∧ depth + d ≤ nestingLimit ∧ t.height ≤ heightLimit

/-- What these tokens make of a stack. With two operands on it nothing leads to a single one. -/
def Completes (depth : Nat) : List Operand → List Token → Operand → Prop
  | [], ts, x => Forms depth ts x
  | [l], ts, x => ∀ us, Forms depth us l → Forms depth (us ++ ts) x
  | _, _, _ => False

theorem Completes.of_cons {depth : Nat} {stack : List Operand} {us rest : List Token}
    {x y : Operand} (h : Completes depth (y :: stack) rest x) (hy : Forms depth us y) :
    Completes depth stack (us ++ rest) x := by
  cases stack with
  | nil => exact h us hy
  | cons l stack => exact h.elim

theorem Completes.of_fold {depth : Nat} {stack : List Operand} {us rest : List Token}
    {l x y : Operand} (h : Completes depth (y :: stack) rest x)
    (hy : ∀ ts, Forms depth ts l → Forms depth (ts ++ us) y) :
    Completes depth (l :: stack) (us ++ rest) x := by
  cases stack with
  | nil =>
    intro ts hl
    rw [← List.append_assoc]
    exact h _ (hy ts hl)
  | cons k stack => exact h.elim

theorem Completes.of_place {depth : Nat} {stack s : List Operand} {t : Token}
    {ts rest : List Token} {x y : Operand} (h : Completes depth (y :: s) rest x)
    (hm : Move.Takes stack t ts (.place y s rest)) (hd : depth ≤ nestingLimit)
    (hy : y.height ≤ heightLimit) : Completes depth stack (t :: ts) x := by
  cases hm with
  | number v =>
    have hf : Forms depth [.number v] (.constant v) := ⟨_, 0, .number v, rfl, hd, hy⟩
    exact h.of_cons hf
  | bang l =>
    have hf : ∀ us, Forms depth us l → Forms depth (us ++ [.bang]) (.unary .factorial l) := by
      intro us hl
      obtain ⟨t, d, hp, rfl, hd, -⟩ := hl
      exact ⟨_, d, hp.bang, rfl, hd, hy⟩
    exact h.of_fold hf
  | operate o l v =>
    have hf : ∀ us, Forms depth us l →
        Forms depth (us ++ [.operator o, .number v]) (.binary o l (.constant v)) := by
      intro us hl
      obtain ⟨t, d, hp, rfl, hd, -⟩ := hl
      exact ⟨_, d, hp.operate o v, rfl, hd, hy⟩
    exact h.of_fold hf

theorem Completes.of_enter {depth : Nat} {stack s : List Operand} {t : Token}
    {ts window rest : List Token} {frame : Frame} {x z : Operand}
    (h : Completes depth (frame.fill z :: s) rest x)
    (hm : Move.Takes stack t ts (.enter window frame s rest)) (hz : Forms (depth + 1) window z)
    (hy : (frame.fill z).height ≤ heightLimit) : Completes depth stack (t :: ts) x := by
  obtain ⟨u, e, hw, rfl, he, hu⟩ := hz
  cases hm with
  | group _ hs =>
    have hf : Forms depth (.opening :: window ++ [.closing]) (.ofTree u) :=
      ⟨u, e + 1, hw.group, rfl, by omega, hu⟩
    have hc := h.of_cons hf
    rw [Token.eq_append_of_splitAtClosing hs]
    simpa using hc
  | call f _ hs =>
    have hf : Forms depth (.function f :: .opening :: window ++ [.closing])
        (.unary f (.ofTree u)) :=
      ⟨.unary f u, e + 1, hw.call f, rfl, by omega, hy⟩
    have hc := h.of_cons hf
    rw [Token.eq_append_of_splitAtClosing hs]
    simpa using hc
  | @bare f hf k =>
    obtain ⟨v, rfl, rfl, rfl⟩ := hw.eq_number
    have hf : Forms depth [.function f, .number v] (.unary f (.constant v)) :=
      ⟨_, 1, .bare hf v, rfl, by omega, hy⟩
    exact h.of_cons hf
  | operateGroup o l _ hs =>
    have hf : ∀ ws, Forms depth ws l →
        Forms depth (ws ++ (.operator o :: .opening :: window ++ [.closing]))
          (.binary o l (.ofTree u)) := by
      intro ws hl
      obtain ⟨t, d, hp, rfl, hd, -⟩ := hl
      have hg := hp.operateGroup o hw
      rw [List.append_assoc] at hg
      exact ⟨.binary o t u, max d (e + 1), hg, rfl, by omega, hy⟩
    have hc := h.of_fold hf
    rw [Token.eq_append_of_splitAtClosing hs]
    simpa using hc

theorem completes_of_readWindow {depth : Nat} {stack : List Operand} {ts : List Token}
    {x : Operand} (h : readWindow depth stack ts = .ok x) :
    depth ≤ nestingLimit → Completes depth stack ts x := by
  refine readWindow_induction (motive := fun depth stack ts x =>
    depth ≤ nestingLimit → Completes depth stack ts x) ?_ ?_ ?_ h
  · intro depth y _ us hy
    rwa [List.append_nil]
  · intro depth stack t ts y s rest x hm hy ih hd
    exact (ih hd).of_place (Move.takes_of_first hm) hd hy
  · intro depth stack t ts window frame s rest z x hm hl ihw hy ih hd
    exact (ih hd).of_enter (Move.takes_of_first hm) (ihw hl) hy

/-- Exactly the phrases within both limits can be built, each into its own tree. -/
theorem ofTokens_eq_ok_iff (ts : List Token) (t : Tree) :
    Tree.ofTokens ts = .ok t ↔ ∃ d, Phrase ts t d ∧ d ≤ 128 ∧ t.height ≤ 512 := by
  constructor
  · intro h
    obtain ⟨x, hx, h⟩ := bind_eq_ok h
    cases h
    obtain ⟨t, d, hp, rfl, hd, ht⟩ := completes_of_readWindow hx (Nat.zero_le _)
    exact ⟨d, hp, by simpa [nestingLimit] using hd, ht⟩
  · intro h
    obtain ⟨d, hp, hd, ht⟩ := h
    exact (ofTokens_phrase hp hd).trans (if_neg (Nat.not_lt.mpr ht))

end Reckoner
