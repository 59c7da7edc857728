import Reckoner.Proofs.Stages

set_option autoImplicit false

namespace Reckoner

/-- A limit that a tree of this height exceeds, with this many levels around its innermost token. -/
def Exceeded (limit nesting height : Nat) : Prop :=
  limit = nestingLimit ∧ nestingLimit < nesting ∨ limit = heightLimit ∧ heightLimit < height

theorem Exceeded.mono {limit nesting h k : Nat} (hx : Exceeded limit nesting h) (hk : h ≤ k) :
    Exceeded limit nesting k := by
  rcases hx with hx | ⟨hl, hx⟩
  · exact .inl hx
  · exact .inr ⟨hl, Nat.lt_of_lt_of_le hx hk⟩

def Limited {α : Type} (x : Except ReadingError α) (nesting height : Nat) : Prop :=
  ∃ limit, x = .error (.tooDeep limit) ∧ Exceeded limit nesting height

theorem Limited.mono {α : Type} {x : Except ReadingError α} {nesting h k : Nat}
    (hx : Limited x nesting h) (hk : h ≤ k) : Limited x nesting k := by
  obtain ⟨limit, hr, hx⟩ := hx
  exact ⟨limit, hr, hx.mono hk⟩

theorem limited_enter {stack s : List Operand} {k : Token} {ts window rest : List Token}
    {frame : Frame} (hm : Move.first stack k ts = .ok (.enter window frame s rest))
    (depth : Nat) {nesting h height : Nat} (hn : nestingLimit < nesting) (hh : h ≤ height)
    (hw : depth + 1 ≤ nestingLimit → Limited (readWindow (depth + 1) [] window) nesting h) :
    Limited (readWindow depth stack (k :: ts)) nesting height := by
  by_cases hd : depth + 1 ≤ nestingLimit
  · obtain ⟨limit, hr, hx⟩ := hw hd
    exact ⟨limit, readWindow_enter_error hm hd hr, hx.mono hh⟩
  · exact ⟨nestingLimit, readWindow_enter_tooDeep hm (Nat.not_le.mp hd), .inl ⟨rfl, hn⟩⟩

/-- A phrase that is nested too deep for its level is refused for a limit that it exceeds. -/
theorem Phrase.limited {ts : List Token} {t : Tree} {d : Nat} (h : Phrase ts t d)
    {depth nesting : Nat} (hd : nestingLimit < depth + d) (hn : depth + d ≤ nesting)
    (hl : depth ≤ nestingLimit) (stack : List Operand) (rest : List Token) :
    Limited (readWindow depth stack (ts ++ rest)) nesting t.height := by
  have hx : nestingLimit < nesting := Nat.lt_of_lt_of_le hd hn
  induction h generalizing depth stack rest with
  | number v => omega
  | @group ts t d h ih =>
    have hm := Move.first_group h.balanced stack rest
    have hw := limited_enter hm depth hx (Nat.le_refl _) fun hl => by
      simpa using ih (by omega) (by omega) hl [] []
    simpa using hw
  | @call f ts t d h ih =>
    have hheight : t.height ≤ (Tree.unary f t).height := Nat.le_add_left _ _
    have hm := Move.first_call h.balanced stack rest f
    have hw := limited_enter hm depth hx hheight fun hl => by
      simpa using ih (by omega) (by omega) hl [] []
    simpa using hw
  | @bare f hf v =>
    have hm : Move.first stack (.function f) (.number v :: rest) =
        .ok (.enter [.number v] (.argument f) stack rest) := if_pos hf
    exact limited_enter hm depth hx (Nat.zero_le _) fun hl => by omega
  | @bang ts t d h ih =>
    have hheight : t.height ≤ (Tree.unary .factorial t).height := Nat.le_add_left _ _
    rw [List.append_assoc]
    exact (ih hd hn hl stack ([.bang] ++ rest)).mono hheight
  | @operate ts l d h o v ih =>
    have hheight : l.height ≤ (Tree.binary o l (.constant v)).height := by
      simp only [Tree.height]; omega
    rw [List.append_assoc]
    exact (ih hd hn hl stack ([.operator o, .number v] ++ rest)).mono hheight
  | @operateGroup ts us l r d e h o hr ih ihr =>
    have hleft : l.height ≤ (Tree.binary o l r).height := by simp only [Tree.height]; omega
    have hright : r.height ≤ (Tree.binary o l r).height := by simp only [Tree.height]; omega
    rw [List.append_assoc, List.append_assoc]
    by_cases hleftd : nestingLimit < depth + d
    · exact (ih hleftd (by omega) hl stack _).mono hleft
    rw [readWindow_phrase h depth (by omega)]
    by_cases ht : heightLimit < l.height
    · rw [Operand.push_of_lt (x := .ofTree l) ht]
      exact ⟨heightLimit, rfl, .inr ⟨rfl, Nat.lt_of_lt_of_le ht hleft⟩⟩
    rw [Operand.push_of_le (x := .ofTree l) (Nat.not_lt.mp ht)]
    have hm := Move.first_operateGroup hr.balanced stack rest o (.ofTree l)
    have hw := limited_enter hm depth hx hright fun hl => by
      simpa using ihr (by omega) (by omega) hl [] []
    simpa [bind, Except.bind] using hw

theorem Opens.two_le_length {ts window rest : List Token} (h : Opens ts window rest) :
    2 ≤ ts.length := by
  cases h with
  | group hb hw =>
    simp only [List.length_append, List.length_cons]
    omega
  | bare f hk => simp

theorem Opens.exists_prefix {ts window rest p : List Token} (h : Opens ts window rest)
    (hw : 2 ≤ window.length) (hp : p <+: window) :
    ∃ q, q <+: ts ∧ q.count .opening + p.count .closing =
      q.count .closing + p.count .opening + 1 := by
  cases h with
  | @group before _ hb _ =>
    refine ⟨before ++ .opening :: p, ?_, ?_⟩
    · have hq : p <+: window ++ .closing :: rest := hp.trans (List.prefix_append window _)
      exact (List.prefix_append_right_inj before).mpr (List.cons_prefix_cons.mpr ⟨rfl, hq⟩)
    · have he := hb.even
      have hc : (Token.opening :: p).count .closing = p.count .closing := by simp
      simp only [List.count_append, List.count_cons_self, hc]
      omega
  | bare f hk => simp at hw

namespace Stage

/-- As many groups as there are levels left are opened and not closed up to some place. A bare
operand is left out: it is a level that no parenthesis opens, and nothing goes on from it. -/
def Descends (a : Stage) : Prop :=
  2 ≤ a.tokens.length ∧ ∃ p, p <+: a.tokens ∧
    p.count .closing + (nestingLimit - a.depth) ≤ p.count .opening

theorem Leads.descends {a b : Stage} (h : Leads a b) (hb : Descends b) : Descends a := by
  obtain ⟨hlen, p, hp, hle⟩ := hb
  rcases h.tokens_cases with ⟨hd, used, hu, ht⟩ | ⟨hd, rest, ho⟩
  · have he := hu.even
    rw [Descends, ht]
    refine ⟨?_, used ++ p, (List.prefix_append_right_inj used).mpr hp, ?_⟩
    · rw [List.length_append]; omega
    · simp only [List.count_append]; omega
  · obtain ⟨q, hq, he⟩ := ho.exists_prefix hlen hp
    exact ⟨ho.two_le_length, q, hq, by omega⟩

theorem Refused.descends {a : Stage} (h : Refused a (.tooDeep nestingLimit)) : Descends a := by
  generalize he : ReadingError.tooDeep nestingLimit = e at h
  cases h with
  | incomplete hs => cases he
  | move hm =>
    subst he
    cases Move.fault_of_first hm
  | tall hy hx => exact absurd (ReadingError.tooDeep.inj he) (by decide)
  | deep hm hd =>
    refine ⟨(Move.opens_of_first hm).two_le_length, [], List.nil_prefix, ?_⟩
    simp only [List.count_nil]; omega

end Stage

theorem exists_prefix_of_ofTokens {ts : List Token}
    (h : Tree.ofTokens ts = .error (.tooDeep nestingLimit)) :
    ∃ p, p <+: ts ∧ p.count .closing + nestingLimit ≤ p.count .opening :=
  (Stage.of_error (fun _ => Stage.Refused.descends) (fun _ _ => Stage.Leads.descends)
    (Tree.readWindow_of_ofTokens h)).2

namespace Token

def isInner : Token → Bool
  | .operator _ | .function _ | .bang => true
  | _ => false

theorem countP_isInner_of_splitAtClosing {ts window rest : List Token}
    (h : splitAtClosing 0 ts = some (window, rest)) :
    ts.countP isInner = window.countP isInner + rest.countP isInner := by
  rw [eq_append_of_splitAtClosing h, List.countP_append]
  rfl

end Token

/-- Whatever is made of the tokens with these operands, it is no taller than this and one more. -/
structure Bounded (n : Nat) (stack : List Operand) (ts : List Token) : Prop where
  count_le : ts.countP Token.isInner ≤ n
  height_le : ∀ x ∈ stack, x.height + ts.countP Token.isInner ≤ n + 1

theorem bounded_nil (ts : List Token) : Bounded (ts.countP Token.isInner) [] ts :=
  ⟨Nat.le_refl _, by simp⟩

theorem Bounded.push {n : Nat} {stack s : List Operand} {ts rest : List Token} {x : Operand}
    (h : Bounded n stack ts) (hs : ∀ y ∈ s, y ∈ stack)
    (hc : rest.countP Token.isInner ≤ ts.countP Token.isInner)
    (hx : x.height + rest.countP Token.isInner ≤ n + 1) : Bounded n (x :: s) rest := by
  refine ⟨Nat.le_trans hc h.count_le, List.forall_mem_cons.mpr ⟨hx, fun y hy => ?_⟩⟩
  have hy := h.height_le y (hs y hy)
  omega

theorem Bounded.place {n : Nat} {stack s : List Operand} {t : Token} {ts rest : List Token}
    {x : Operand} (h : Bounded n stack (t :: ts))
    (hm : Move.first stack t ts = .ok (.place x s rest)) : Bounded n (x :: s) rest := by
  have hn := h.count_le
  cases Move.takes_of_first hm with
  | number v =>
    simp only [List.countP_cons, Token.isInner] at hn
    refine h.push (fun _ hy => hy) ?_ ?_
    · simp only [List.countP_cons]; omega
    · simp only [Operand.constant]; omega
  | bang l =>
    have hl := h.height_le l List.mem_cons_self
    simp only [List.countP_cons, Token.isInner, if_true] at hn hl
    refine h.push (fun _ hy => List.mem_cons_of_mem l hy) ?_ ?_
    · simp only [List.countP_cons]; omega
    · simp only [Operand.unary]; omega
  | operate o l v =>
    have hl := h.height_le l List.mem_cons_self
    simp only [List.countP_cons, Token.isInner, if_true] at hn hl
    refine h.push (fun _ hy => List.mem_cons_of_mem l hy) ?_ ?_
    · simp only [List.countP_cons]; omega
    · simp only [Operand.binary, Operand.constant]; omega

theorem Bounded.enter {n : Nat} {stack s : List Operand} {t : Token} {ts window rest : List Token}
    {frame : Frame} {z : Operand} (h : Bounded n stack (t :: ts))
    (hm : Move.first stack t ts = .ok (.enter window frame s rest))
    (hz : z.height ≤ window.countP Token.isInner + 1) : Bounded n (frame.fill z :: s) rest := by
  have hn := h.count_le
  cases Move.takes_of_first hm with
  | group _ hw =>
    have hc := Token.countP_isInner_of_splitAtClosing hw
    simp only [List.countP_cons, Token.isInner] at hn
    refine h.push (fun _ hy => hy) ?_ ?_
    · simp only [List.countP_cons]; omega
    · simp only [Frame.fill]; omega
  | call f _ hw =>
    have hc := Token.countP_isInner_of_splitAtClosing hw
    simp only [List.countP_cons, Token.isInner, if_true] at hn
    refine h.push (fun _ hy => hy) ?_ ?_
    · simp only [List.countP_cons]; omega
    · simp only [Frame.fill, Operand.unary]; omega
  | bare hf k =>
    simp only [List.countP_cons, List.countP_nil, Token.isInner, if_true] at hn hz
    refine h.push (fun _ hy => hy) ?_ ?_
    · simp only [List.countP_cons]; omega
    · simp only [Frame.fill, Operand.unary]; omega
  | operateGroup o l _ hw =>
    have hc := Token.countP_isInner_of_splitAtClosing hw
    have hl := h.height_le l List.mem_cons_self
    simp only [List.countP_cons, Token.isInner, if_true] at hn hl
    refine h.push (fun _ hy => List.mem_cons_of_mem l hy) ?_ ?_
    · simp only [List.countP_cons]; omega
    · simp only [Frame.fill, Operand.binary]; omega

theorem Bounded.height_le_of_readWindow {depth : Nat} {stack : List Operand} {ts : List Token}
    {x : Operand} (h : readWindow depth stack ts = .ok x) :
    ∀ n, Bounded n stack ts → x.height ≤ n + 1 := by
  refine readWindow_induction (motive := fun _ stack ts x =>
    ∀ n, Bounded n stack ts → x.height ≤ n + 1) ?_ ?_ ?_ h
  · intro _ x n hb
    exact hb.height_le x List.mem_cons_self
  · intro _ stack t ts y s rest x hm _ ih n hb
    exact ih n (hb.place hm)
  · intro _ stack t ts window frame s rest z x hm _ ihw _ ih n hb
    exact ih n (hb.enter hm (ihw _ (bounded_nil window)))

theorem Opens.sublist {ts window rest : List Token} (h : Opens ts window rest) :
    window.Sublist ts := by
  cases h with
  | @group before _ hb hw =>
    have hs : window.Sublist (.opening :: (window ++ .closing :: rest)) :=
      (List.sublist_append_left window _).trans (List.sublist_cons_self _ _)
    exact hs.trans (List.sublist_append_right before _)
  | bare f hk => exact (List.sublist_append_left _ rest).trans (List.sublist_cons_self _ _)

namespace Stage

theorem Yields.bounded {a : Stage} {x : Operand} {s : List Operand} {rest : List Token}
    (h : Yields a x s rest) {n : Nat} (ha : Bounded n a.stack a.tokens) :
    Bounded n (x :: s) rest := by
  cases h with
  | place hm => exact ha.place hm
  | frame hm hz => exact ha.enter hm (Bounded.height_le_of_readWindow hz _ (bounded_nil _))

theorem Leads.bounded {a b : Stage} (h : Leads a b) {n : Nat} (ha : Bounded n a.stack a.tokens) :
    Bounded n b.stack b.tokens := by
  cases h with
  | onward hy hx => exact hy.bounded ha
  | inward hm hd =>
    have hw := (Move.opens_of_first hm).sublist.countP_le (p := Token.isInner)
    exact ⟨Nat.le_trans hw ha.count_le, by simp⟩

theorem Refused.heightLimit_le {a : Stage} (h : Refused a (.tooDeep heightLimit)) {n : Nat}
    (ha : Bounded n a.stack a.tokens) : heightLimit ≤ n := by
  generalize he : ReadingError.tooDeep heightLimit = e at h
  cases h with
  | incomplete hs => cases he
  | move hm =>
    subst he
    cases Move.fault_of_first hm
  | tall hy hx =>
    have hle := (hy.bounded ha).height_le _ List.mem_cons_self
    omega
  | deep hm hd => exact absurd (ReadingError.tooDeep.inj he) (by decide)

end Stage

theorem heightLimit_le_of_ofTokens {ts : List Token}
    (h : Tree.ofTokens ts = .error (.tooDeep heightLimit)) :
    heightLimit ≤ ts.countP Token.isInner := by
  obtain ⟨b, hr, hb⟩ := Stage.exists_refused (Tree.readWindow_of_ofTokens h)
  have hbound := hr.carry (p := fun a => Bounded (ts.countP Token.isInner) a.stack a.tokens)
    (fun _ _ hl => hl.bounded) (bounded_nil ts)
  exact hb.heightLimit_le hbound

theorem Phrase.limited_ofTokens {ts : List Token} {t : Tree} {d : Nat} (h : Phrase ts t d)
    (hx : nestingLimit < d ∨ heightLimit < t.height) : Limited (Tree.ofTokens ts) d t.height := by
  by_cases hd : nestingLimit < d
  · obtain ⟨limit, hr, hl⟩ := h.limited (by omega) (Nat.le_of_eq (Nat.zero_add d)) (Nat.zero_le _)
      [] []
    rw [List.append_nil] at hr
    refine ⟨limit, ?_, hl⟩
    rw [Tree.ofTokens, hr]
    rfl
  · have ht : heightLimit < t.height := hx.resolve_left hd
    refine ⟨heightLimit, ?_, .inr ⟨rfl, ht⟩⟩
    rw [ofTokens_phrase h (Nat.not_lt.mp hd), if_pos ht]

/-- A phrase within the limits is built, and any other is refused for a limit that it exceeds.
Whatever the tokens are, they open as many groups as the nesting limit when this is named, and have
as many inner nodes as the height limit when that is. -/
theorem Tree.ofTokens_limits (ts : List Token) :
    (∀ t d, Phrase ts t d →
      (d ≤ 128 ∧ t.height ≤ 512 → ofTokens ts = .ok t) ∧
      (128 < d ∨ 512 < t.height → ∃ limit, ofTokens ts = .error (.tooDeep limit) ∧
        (limit = 128 ∧ 128 < d ∨ limit = 512 ∧ 512 < t.height))) ∧
      (ofTokens ts = .error (.tooDeep 128) →
        ∃ p, p <+: ts ∧ p.count .closing + 128 ≤ p.count .opening) ∧
      (ofTokens ts = .error (.tooDeep 512) → 512 ≤ ts.countP Token.isInner) := by
  refine ⟨fun t d h => ⟨fun hl => ?_, h.limited_ofTokens⟩, exists_prefix_of_ofTokens,
    heightLimit_le_of_ofTokens⟩
  exact (ofTokens_phrase h hl.1).trans (if_neg (Nat.not_lt.mpr hl.2))

def grouped (n : Nat) : List Token :=
  List.replicate n .opening ++ .number .zero :: List.replicate n .closing

theorem phrase_grouped (n : Nat) : Phrase (grouped n) (.constant .zero) n := by
  induction n with
  | zero => exact .number .zero
  | succ n ih =>
    have hg := ih.group
    rwa [grouped, List.cons_append, List.append_assoc, List.cons_append, ← List.replicate_succ',
      ← List.cons_append, ← List.replicate_succ] at hg

def banged (n : Nat) : List Token := .number .zero :: List.replicate n .bang

theorem exists_phrase_banged (n : Nat) : ∃ t, Phrase (banged n) t 0 ∧ t.height = n + 1 := by
  induction n with
  | zero => exact ⟨.constant .zero, .number .zero, rfl⟩
  | succ n ih =>
    obtain ⟨t, ht, hh⟩ := ih
    refine ⟨.unary .factorial t, ?_, ?_⟩
    · have hb := ht.bang
      rwa [banged, List.cons_append, ← List.replicate_succ'] at hb
    · rw [Tree.height, hh, Nat.add_comm]

theorem Tree.ofTokens_limits_grouped :
    Tree.ofTokens (grouped 128) = .ok (.constant .zero) ∧
      (Tree.ofTokens (grouped 129) = .error (.tooDeep 128) ∧
        ∃ p, p <+: grouped 129 ∧ p.count .closing + 128 ≤ p.count .opening) ∧
      Tree.ofTokens (banged 512) = .error (.tooDeep 512) ∧
        512 ≤ (banged 512).countP Token.isInner := by
  have hg := Tree.ofTokens_limits (grouped 129)
  have hb := Tree.ofTokens_limits (banged 512)
  refine ⟨?_, ?_, ?_⟩
  · exact ((Tree.ofTokens_limits (grouped 128)).1 _ _ (phrase_grouped 128)).1 (by decide)
  · obtain ⟨limit, hr, ⟨rfl, -⟩ | ⟨-, hh⟩⟩ := (hg.1 _ _ (phrase_grouped 129)).2 (.inl (by decide))
    · exact ⟨hr, hg.2.1 hr⟩
    · exact absurd hh (by decide)
  · obtain ⟨t, ht, hh⟩ := exists_phrase_banged 512
    obtain ⟨limit, hr, ⟨-, hd⟩ | ⟨rfl, -⟩⟩ := (hb.1 t 0 ht).2 (.inr (by omega))
    · omega
    · exact ⟨hr, hb.2.2 hr⟩

end Reckoner
