import Reckoner.Proofs.Grammar

/-!
Parts of a token list exchanged for others: the contents of a group for contents that come to the
same, and a bare operand for the same operand in parentheses. Main statements: nothing around them
can tell, up to the nesting limit.
-/
set_option autoImplicit false

namespace Reckoner

/-- The same outcome, unless one of the two is an excused error. -/
def AgreeUnless {α : Type} (excused : ReadingError → Prop) (x y : Except ReadingError α) : Prop :=
  x = y ∨ ∃ e, excused e ∧ (x = .error e ∨ y = .error e)

theorem AgreeUnless.refl {α : Type} (excused : ReadingError → Prop) (x : Except ReadingError α) :
    AgreeUnless excused x x := .inl rfl

theorem AgreeUnless.bind {α β : Type} {excused : ReadingError → Prop}
    {x y : Except ReadingError α} {f g : α → Except ReadingError β} (h : AgreeUnless excused x y)
    (hf : ∀ a, x = .ok a → AgreeUnless excused (f a) (g a)) :
    AgreeUnless excused (x >>= f) (y >>= g) := by
  rcases h with rfl | ⟨e, he, rfl | rfl⟩
  · cases x with
    | error e => exact .refl excused _
    | ok a => exact hf a rfl
  · exact .inr ⟨e, he, .inl rfl⟩
  · exact .inr ⟨e, he, .inr rfl⟩

def Interchangeable (excused : ReadingError → Prop) (ts us : List Token) : Prop :=
  ∀ depth, AgreeUnless excused (readWindow depth [] ts) (readWindow depth [] us)

/-- Token lists that differ only in the contents of some groups, and in parentheses around some
bare operands. -/
inductive Exchanged (excused : ReadingError → Prop) : List Token → List Token → Prop where
  | nil : Exchanged excused [] []
  | cons (t : Token) {ts us : List Token} (h : Exchanged excused ts us) :
      Exchanged excused (t :: ts) (t :: us)
  | group {as bs ts us : List Token} (ha : Token.Balanced as) (hb : Token.Balanced bs)
      (hw : Interchangeable excused as bs) (h : Exchanged excused ts us) :
      Exchanged excused (.opening :: as ++ .closing :: ts) (.opening :: bs ++ .closing :: us)
  | bare {f : Function} (hf : f.takesBare = true) (v : Binary64) {ts us : List Token}
      (h : Exchanged excused ts us) :
      Exchanged excused (.function f :: .number v :: ts)
        (.function f :: .opening :: .number v :: .closing :: us)

variable {excused : ReadingError → Prop}

theorem Exchanged.refl (ts : List Token) : Exchanged excused ts ts := by
  induction ts with
  | nil => exact .nil
  | cons t ts ih => exact ih.cons t

theorem Exchanged.append_left (pre : List Token) {ts us : List Token}
    (h : Exchanged excused ts us) : Exchanged excused (pre ++ ts) (pre ++ us) := by
  induction pre with
  | nil => exact h
  | cons t pre ih => exact ih.cons t

def ExchangedParts (excused : ReadingError → Prop) (p q : List Token × List Token) : Prop :=
  Exchanged excused p.1 q.1 ∧ Exchanged excused p.2 q.2

theorem ExchangedParts.map {x y : Option (List Token × List Token)}
    (h : Option.Rel (ExchangedParts excused) x y) {f g : List Token → List Token}
    (hf : ∀ ts us, Exchanged excused ts us → Exchanged excused (f ts) (g us)) :
    Option.Rel (ExchangedParts excused) (x.map fun p => (f p.1, p.2))
      (y.map fun p => (g p.1, p.2)) := by
  cases h with
  | none => exact .none
  | some h => exact .some ⟨hf _ _ h.1, h.2⟩

theorem Exchanged.splitAtClosing {ts us : List Token} (h : Exchanged excused ts us) (inner : Nat) :
    Option.Rel (ExchangedParts excused) (Token.splitAtClosing inner ts)
      (Token.splitAtClosing inner us) := by
  induction h generalizing inner with
  | nil => exact .none
  | cons t h ih =>
    have hc := fun inner => ExchangedParts.map (ih inner) fun _ _ h => h.cons t
    cases t with
    | opening => exact hc (inner + 1)
    | closing =>
      cases inner with
      | zero => exact .some ⟨.nil, h⟩
      | succ inner => exact hc inner
    | _ => exact hc inner
  | @group as bs ts us ha hb hw h ih =>
    have hc := ExchangedParts.map (ih inner) fun _ _ h => h.group ha hb hw
    have hl := ha.group.splitAtClosing_append inner ts
    have hr := hb.group.splitAtClosing_append inner us
    simp only [List.append_assoc, List.singleton_append] at hl hr
    rw [hl, hr]
    simpa using hc
  | @bare f hf v ts us h ih =>
    have hc := ExchangedParts.map (ih inner) fun _ _ h => h.bare hf v
    simpa [Token.splitAtClosing, Function.comp_def] using hc

def Readable (ts : List Token) : Prop := ∃ depth x, readWindow depth [] ts = .ok x

theorem not_readable_function (f : Function) : ¬ Readable [.function f] := by
  intro ⟨depth, x, h⟩
  rw [readWindow_error rfl] at h
  cases h

/-- Moves that enter interchangeable windows and leave exchanged tokens behind them. What stands
behind a window that cannot be read is never reached. -/
inductive Move.Exchanged (excused : ReadingError → Prop) :
    Except ReadingError Move → Except ReadingError Move → Prop where
  | error (e : ReadingError) : Move.Exchanged excused (.error e) (.error e)
  | place (x : Operand) (stack : List Operand) {ts us : List Token}
      (h : Reckoner.Exchanged excused ts us) :
      Move.Exchanged excused (.ok (.place x stack ts)) (.ok (.place x stack us))
  | enter (frame : Frame) (stack : List Operand) {ws vs ts us : List Token}
      (hw : Reckoner.Exchanged excused ws vs ∨ Interchangeable excused ws vs)
      (h : Readable ws → Reckoner.Exchanged excused ts us) :
      Move.Exchanged excused (.ok (.enter ws frame stack ts)) (.ok (.enter vs frame stack us))

theorem Exchanged.enterGroup {ts us : List Token} (h : Exchanged excused ts us) (frame : Frame)
    (stack : List Operand) :
    Move.Exchanged excused (Move.enterGroup frame stack ts) (Move.enterGroup frame stack us) := by
  have hs := h.splitAtClosing 0
  unfold Move.enterGroup
  generalize Token.splitAtClosing 0 ts = x at hs ⊢
  generalize Token.splitAtClosing 0 us = y at hs ⊢
  cases hs with
  | none => exact .error _
  | some hp => exact .enter frame stack (.inl hp.1) fun _ => hp.2

theorem Exchanged.enterGroup_group {as bs ts us : List Token} (ha : Token.Balanced as)
    (hb : Token.Balanced bs) (hw : Interchangeable excused as bs) (h : Exchanged excused ts us)
    (frame : Frame) (stack : List Operand) :
    Move.Exchanged excused (Move.enterGroup frame stack (as ++ .closing :: ts))
      (Move.enterGroup frame stack (bs ++ .closing :: us)) := by
  rw [enterGroup_balanced ha, enterGroup_balanced hb]
  exact .enter frame stack (.inr hw) fun _ => h

theorem Exchanged.operator {ts us : List Token} (h : Exchanged excused ts us) (o : Operator)
    (stack : List Operand) :
    Move.Exchanged excused (Move.operator o stack ts) (Move.operator o stack us) := by
  cases stack with
  | nil => cases h <;> exact .error _
  | cons l stack =>
    cases h with
    | nil => exact .error _
    | cons t h =>
      cases t with
      | number v => exact .place _ stack h
      | opening => exact h.enterGroup (.right o l) stack
      | _ => exact .error _
    | group ha hb hw h => exact h.enterGroup_group ha hb hw (.right o l) stack
    | bare hf v h => exact .error _

theorem Exchanged.function {ts us : List Token} (h : Exchanged excused ts us) (f : Function)
    (stack : List Operand) :
    Move.Exchanged excused (Move.function f stack ts) (Move.function f stack us) := by
  cases h with
  | nil => exact .error _
  | cons t h =>
    by_cases ht : t = .opening
    · subst ht
      exact h.enterGroup (.argument f) stack
    · cases hf : f.takesBare with
      | false =>
        rw [Move.function_of_not_takesBare hf ht, Move.function_of_not_takesBare hf ht]
        exact .error _
      | true =>
        rw [Move.function_of_takesBare hf ht, Move.function_of_takesBare hf ht]
        exact .enter (.argument f) stack (.inl (.refl [t])) fun _ => h
  | group ha hb hw h => exact h.enterGroup_group ha hb hw (.argument f) stack
  | @bare g hg v ts us h =>
    -- The second function is the bare operand of the first, and as such it has none itself.
    have hn : Token.function g ≠ .opening := by simp
    cases hf : f.takesBare with
    | false =>
      rw [Move.function_of_not_takesBare hf hn, Move.function_of_not_takesBare hf hn]
      exact .error _
    | true =>
      rw [Move.function_of_takesBare hf hn, Move.function_of_takesBare hf hn]
      exact .enter (.argument f) stack (.inl (.refl _)) fun hr =>
        absurd hr (not_readable_function g)

theorem Exchanged.first {t k : Token} {ts us : List Token}
    (h : Exchanged excused (t :: ts) (k :: us)) (stack : List Operand) :
    t = k ∧ Move.Exchanged excused (Move.first stack t ts) (Move.first stack k us) := by
  cases h with
  | cons t h =>
    refine ⟨rfl, ?_⟩
    cases t with
    | number v => exact .place _ stack h
    | operator o => exact h.operator o stack
    | opening => exact h.enterGroup .group stack
    | closing => exact .error _
    | function f => exact h.function f stack
    | bang =>
      cases stack with
      | nil => exact .error _
      | cons x stack => exact .place _ stack h
  | group ha hb hw h => exact ⟨rfl, h.enterGroup_group ha hb hw .group stack⟩
  | @bare f hf v ts us h =>
    have hl := Move.function_of_takesBare hf (t := .number v) (by simp) stack ts
    have hr := enterGroup_balanced (Token.balanced_singleton (t := .number v) (by simp) (by simp))
      (.argument f) stack us
    refine ⟨rfl, ?_⟩
    rw [Move.first, hl, Move.first, Move.function]
    exact hr ▸ .enter (.argument f) stack (.inl (.refl [.number v])) fun _ => h

/-- Exchanged tokens are read alike. -/
theorem Exchanged.readWindow {ts us : List Token} (h : Exchanged excused ts us) (depth : Nat)
    (stack : List Operand) :
    AgreeUnless excused (readWindow depth stack ts) (readWindow depth stack us) := by
  -- A window need not be part of the derivation, but it is shorter than what holds it.
  induction hn : ts.length using Nat.strongRecOn generalizing ts us depth stack with
  | ind n ih =>
    subst hn
    cases ts with
    | nil => cases h; exact .refl excused _
    | cons t ts =>
      cases us with
      | nil => cases h
      | cons k us =>
        obtain ⟨rfl, hm⟩ := h.first stack
        generalize hx : Move.first stack t ts = x at hm
        generalize hy : Move.first stack t us = y at hm
        cases hm with
        | error e =>
          rw [readWindow_error hx, readWindow_error hy]
          exact .refl excused _
        | place x s h =>
          have hl := Move.length_first hx
          rw [readWindow_place hx, readWindow_place hy]
          exact .bind (.refl excused _) fun s _ => ih _ (Nat.lt_succ_of_le hl) h depth s rfl
        | @enter frame s ws vs rest rest' hw h =>
          obtain ⟨hlw, hlr⟩ := Move.length_first_enter hx
          by_cases hd : depth + 1 ≤ nestingLimit
          · have hw : AgreeUnless excused (Reckoner.readWindow (depth + 1) [] ws)
                (Reckoner.readWindow (depth + 1) [] vs) := by
              rcases hw with hw | hw
              · exact ih _ hlw hw (depth + 1) [] rfl
              · exact hw (depth + 1)
            rw [readWindow_enter hx hd, readWindow_enter hy hd]
            exact hw.bind fun x hr => .bind (.refl excused _) fun s _ =>
              ih _ hlr (h ⟨depth + 1, x, hr⟩) depth s rfl
          · rw [readWindow_enter_tooDeep hx (Nat.not_le.mp hd),
              readWindow_enter_tooDeep hy (Nat.not_le.mp hd)]
            exact .refl excused _

theorem Exchanged.ofTokens {ts us : List Token} (h : Exchanged excused ts us) :
    AgreeUnless excused (Tree.ofTokens ts) (Tree.ofTokens us) :=
  (h.readWindow 0 []).bind fun _ _ => .refl excused _

/-- The second outcome is the first one, or else it meets the nesting limit. -/
def Deepened {α : Type} (x y : Except ReadingError α) : Prop :=
  y = x ∨ y = .error (.tooDeep nestingLimit)

theorem Deepened.refl {α : Type} (x : Except ReadingError α) : Deepened x x := .inl rfl

theorem Deepened.bind {α β : Type} {x y : Except ReadingError α} {f g : α → Except ReadingError β}
    (h : Deepened x y) (hf : ∀ a, Deepened (f a) (g a)) : Deepened (x >>= f) (y >>= g) := by
  rcases h with rfl | rfl
  · cases y with
    | error e => exact .refl _
    | ok a => exact hf a
  · exact .inr rfl

theorem readWindow_deepened {d e : Nat} (h : d ≤ e) (stack : List Operand) (ts : List Token) :
    Deepened (readWindow d stack ts) (readWindow e stack ts) := by
  induction hn : ts.length using Nat.strongRecOn generalizing d e stack ts with
  | ind n ih =>
    subst hn
    cases ts with
    | nil => left; rw [readWindow.eq_def, readWindow.eq_def d]
    | cons t ts =>
      cases hm : Move.first stack t ts with
      | error e => left; rw [readWindow_error hm, readWindow_error hm]
      | ok m =>
        cases m with
        | place x s rest =>
          have hl := Move.length_first hm
          rw [readWindow_place hm, readWindow_place hm]
          exact .bind (.refl _) fun s => ih _ (Nat.lt_succ_of_le hl) h s rest rfl
        | enter ws frame s rest =>
          obtain ⟨hlw, hlr⟩ := Move.length_first_enter hm
          by_cases he : e + 1 ≤ nestingLimit
          · rw [readWindow_enter hm he, readWindow_enter hm (by omega)]
            exact (ih _ hlw (Nat.succ_le_succ h) [] ws rfl).bind fun x =>
              .bind (.refl _) fun s => ih _ hlr h s rest rfl
          · exact .inr (readWindow_enter_tooDeep hm (Nat.not_le.mp he))

theorem eq_ofTree_of_readWindow {ts : List Token} {x : Operand}
    (h : readWindow 0 [] ts = .ok x) : x = .ofTree x.tree := by
  obtain ⟨t, d, -, rfl, -⟩ := completes_of_readWindow h (Nat.zero_le _)
  rfl

/-- The tree decides the operand, so equal trees leave nothing to choose between two windows. -/
theorem readWindow_eq_of_ofTokens {as bs : List Token}
    (h : Tree.ofTokens as = Tree.ofTokens bs) : readWindow 0 [] as = readWindow 0 [] bs := by
  unfold Tree.ofTokens at h
  cases ha : readWindow 0 [] as with
  | error e =>
    cases hb : readWindow 0 [] bs with
    | error e' => rw [ha, hb] at h; cases h; rfl
    | ok y => rw [ha, hb] at h; cases h
  | ok x =>
    cases hb : readWindow 0 [] bs with
    | error e' => rw [ha, hb] at h; cases h
    | ok y =>
      rw [ha, hb] at h
      have ht : x.tree = y.tree := Except.ok.inj h
      rw [eq_ofTree_of_readWindow ha, eq_ofTree_of_readWindow hb, ht]

theorem interchangeable_of_ofTokens {as bs : List Token}
    (h : Tree.ofTokens as = Tree.ofTokens bs) :
    Interchangeable (· = .tooDeep nestingLimit) as bs := by
  intro depth
  have hab := readWindow_eq_of_ofTokens h
  rcases readWindow_deepened (Nat.zero_le depth) [] as with ha | ha
  · rcases readWindow_deepened (Nat.zero_le depth) [] bs with hb | hb
    · exact .inl (by rw [ha, hb, hab])
    · exact .inr ⟨_, rfl, .inr hb⟩
  · exact .inr ⟨_, rfl, .inl ha⟩

/-- Whatever stands around a group, balanced contents that come to the same can be put into it,
unless one of the two meets the nesting limit. -/
theorem ofTokens_group {as bs : List Token} (ha : Token.Balanced as) (hb : Token.Balanced bs)
    (h : Tree.ofTokens as = Tree.ofTokens bs) (pre post : List Token) :
    Tree.ofTokens (pre ++ [.opening] ++ as ++ [.closing] ++ post) =
        Tree.ofTokens (pre ++ [.opening] ++ bs ++ [.closing] ++ post) ∨
      Tree.ofTokens (pre ++ [.opening] ++ as ++ [.closing] ++ post) = .error (.tooDeep 128) ∨
      Tree.ofTokens (pre ++ [.opening] ++ bs ++ [.closing] ++ post) = .error (.tooDeep 128) := by
  have hg := (Exchanged.refl post).group ha hb (interchangeable_of_ofTokens h)
  have hx := (hg.append_left pre).ofTokens
  simp only [List.append_assoc, List.cons_append, List.nil_append] at hx ⊢
  rcases hx with hx | ⟨e, rfl, hx⟩
  · exact .inl hx
  · exact .inr hx

theorem ofTokens_group_doubled :
    Tree.ofTokens [.function .ln, .opening, .opening, .number .zero, .closing, .closing, .bang] =
      Tree.ofTokens [.function .ln, .opening, .number .zero, .closing, .bang] := by
  have hz : Token.Balanced [.number .zero] := Token.balanced_singleton (by simp) (by simp)
  rcases ofTokens_group hz.group hz (by decide +kernel) [.function .ln] [.bang] with h | h | h
  · exact h
  · exact absurd h (by decide +kernel)
  · exact absurd h (by decide +kernel)

/-- Whatever stands around it, a bare number after a function may as well stand in parentheses. -/
theorem ofTokens_bare {f : Function} (hf : f ∈ [Function.ln, .log, .sqrt]) (v : Binary64)
    (pre post : List Token) :
    Tree.ofTokens (pre ++ [.function f, .number v] ++ post) =
      Tree.ofTokens (pre ++ [.function f, .opening, .number v, .closing] ++ post) := by
  have ht := Function.takesBare_iff.mpr hf
  have hb : Exchanged (fun _ => False) (.function f :: .number v :: post)
      (.function f :: .opening :: .number v :: .closing :: post) := (Exchanged.refl post).bare ht v
  have hx := (hb.append_left pre).ofTokens
  simp only [List.append_assoc, List.cons_append, List.nil_append]
  rcases hx with hx | ⟨e, he, -⟩
  · exact hx
  · exact he.elim

theorem ofTokens_bare_misplaced :
    Tree.ofTokens [.opening, .function .sqrt, .function .log, .number .zero, .closing] =
      Tree.ofTokens [.opening, .function .sqrt, .function .log, .opening, .number .zero, .closing,
        .closing] :=
  ofTokens_bare (by decide) .zero [.opening, .function .sqrt] [.closing]

end Reckoner
