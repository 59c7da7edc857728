import Reckoner.Proofs.Grammar
import Reckoner.Proofs.Printing

set_option autoImplicit false

namespace Reckoner

namespace Tree

def rightFunctions : Tree → List Function
  | .constant _ => []
  | .binary _ l (.unary f x) => l.rightFunctions ++ f :: x.rightFunctions
  | .binary _ l r => l.rightFunctions ++ r.rightFunctions
  | .unary _ x => x.rightFunctions

/-- A factorial to the right of an operator is read as the factorial of the whole operation. -/
def regrouped : Tree → Tree
  | .constant v => .constant v
  | .binary o l (.unary .factorial x) => .unary .factorial (.binary o l.regrouped x.regrouped)
  | .binary o l r => .binary o l.regrouped r.regrouped
  | .unary f x => .unary f x.regrouped

def core : Tree → Tree
  | .unary _ x => x.regrouped
  | t => t.regrouped

theorem regrouped_binary_unary {f : Function} (hf : f ≠ .factorial) (o : Operator) (l x : Tree) :
    (binary o l (unary f x)).regrouped = .binary o l.regrouped (unary f x).regrouped := by
  simp [regrouped, hf]

theorem phrase_tokens {t : Tree} (h : Phrase t.inside t.core (t.nesting - 1)) :
    Phrase t.tokens t.regrouped t.nesting := by
  cases t with
  | constant v => exact h
  | binary o l r => exact h.group
  | unary f x =>
    by_cases hf : f = .factorial
    · subst hf
      have hb := h.group.bang
      simpa [tokens, inside, core, regrouped, nesting] using hb
    · have hc := h.call f
      rw [Nat.sub_add_cancel (nesting_unary_pos f x)] at hc
      rw [tokens_unary hf]
      exact hc

theorem phrase_inside {t : Tree} (h : ∀ f ∈ t.rightFunctions, f = .factorial) :
    Phrase t.inside t.core (t.nesting - 1) := by
  induction t with
  | constant v => exact .number v
  | binary o l r hl hr =>
    cases r with
    | constant v =>
      have hp := phrase_tokens (hl (by simpa [rightFunctions] using h))
      have ho := hp.operate o v
      simpa [inside, core, regrouped, nesting, tokens] using ho
    | binary o' l' r' =>
      simp only [rightFunctions, List.forall_mem_append] at h
      have hp := phrase_tokens (hl h.1)
      have ho := hp.operateGroup o (hr h.2)
      simpa [inside, core, regrouped, nesting, tokens_binary] using ho
    | unary f x =>
      simp only [rightFunctions, List.forall_mem_append, List.forall_mem_cons] at h
      obtain ⟨h, rfl, hx⟩ := h
      have hp := phrase_tokens (hl h)
      have ho := (hp.operateGroup o (hr hx)).bang
      simpa [inside, core, regrouped, nesting, tokens_factorial] using ho
  | unary f x hx =>
    by_cases hf : f = .factorial
    · subst hf
      exact phrase_tokens (hx h)
    · rcases unary_cases hf x with ⟨hi, hn, -⟩ | ⟨⟨o, l, r, rfl⟩, hi, hn, -⟩
      · rw [hi, hn]
        exact phrase_tokens (hx h)
      · rw [hi, hn]
        exact hx h

theorem height_regrouped_of_core {t : Tree} (h : t.core.height ≤ 3 * (t.nesting - 1) + 3) :
    t.regrouped.height ≤ 3 * t.nesting + 1 := by
  cases t with
  | constant v => simp [regrouped, height, nesting]
  | binary o l r => simp only [core, nesting] at *; omega
  | unary f x =>
    by_cases hf : f = .factorial
    · subst hf
      simp only [core, regrouped, height, nesting] at *; omega
    · have hp := nesting_unary_pos f x
      simp only [core, regrouped, height] at *; omega

theorem height_regrouped_binary (o : Operator) (l r : Tree) :
    (binary o l r).regrouped.height ≤ max l.regrouped.height r.regrouped.height + 2 := by
  cases r with
  | constant v => simp only [regrouped, height]; omega
  | binary o' l' r' => simp only [regrouped, height]; omega
  | unary f x =>
    by_cases hf : f = .factorial
    · subst hf
      simp only [regrouped, height]; omega
    · rw [regrouped_binary_unary hf, height]
      omega

theorem height_core_le (t : Tree) : t.core.height ≤ 3 * (t.nesting - 1) + 3 := by
  induction t with
  | constant v => simp [core, regrouped, height]
  | binary o l r hl hr =>
    have hl := height_regrouped_of_core hl
    have hr := height_regrouped_of_core hr
    have hb := height_regrouped_binary o l r
    rw [core, nesting]
    · omega
    · simp
  | unary f x hx =>
    have hx' := height_regrouped_of_core hx
    by_cases hf : f = .factorial
    · subst hf
      simp only [core, nesting] at *; omega
    · rcases unary_cases hf x with ⟨-, hn, -⟩ | ⟨⟨o, l, r, rfl⟩, -, hn, -⟩
      · simp only [core] at *; omega
      · simp only [core] at *; omega

theorem height_regrouped_le (t : Tree) : t.regrouped.height ≤ 3 * t.nesting + 1 :=
  height_regrouped_of_core t.height_core_le

/-- Within the nesting limit the height limit is out of reach. -/
theorem height_regrouped_le_heightLimit {t : Tree} (h : t.nesting ≤ nestingLimit) :
    t.regrouped.height ≤ heightLimit := by
  have hh := t.height_regrouped_le
  simp only [nestingLimit, heightLimit] at *; omega

theorem ofTokens_tokens {t : Tree} (h : ∀ f ∈ t.rightFunctions, f = .factorial)
    (hn : t.nesting ≤ nestingLimit) : ofTokens t.tokens = .ok t.regrouped := by
  have hp := phrase_tokens (phrase_inside h)
  have hh := height_regrouped_le_heightLimit hn
  rw [ofTokens_phrase hp hn, if_neg (Nat.not_lt.mpr hh)]

theorem readWindow_tokens_error {t : Tree} {depth : Nat} (hd : depth + 1 ≤ nestingLimit)
    {e : ReadingError} (h : readWindow (depth + 1) [] t.inside = .error e) (stack : List Operand)
    (rest : List Token) : readWindow depth stack (t.tokens ++ rest) = .error e := by
  have hb := t.balanced_inside
  cases t with
  | constant v =>
    have hp := readWindow_phrase (.number v) (depth + 1) hd [] []
    have hv : (Operand.ofTree (.constant v)).height ≤ heightLimit := by
      simp [Operand.ofTree, height, heightLimit]
    rw [List.append_nil, ← inside, h, Operand.push_of_le hv] at hp
    simp [bind, Except.bind, readWindow] at hp
  | binary o l r =>
    have he := readWindow_enter_error (Move.first_group hb stack rest) hd h
    simpa [tokens_binary] using he
  | unary f x =>
    by_cases hf : f = .factorial
    · subst hf
      have he := readWindow_enter_error (Move.first_group hb stack (.bang :: rest)) hd h
      simpa [tokens_factorial] using he
    · have he := readWindow_enter_error (Move.first_call hb stack rest f) hd h
      simpa [tokens_unary hf] using he

theorem mem_rightFunctions_left {f : Function} {l : Tree} (h : f ∈ l.rightFunctions) (o : Operator)
    (r : Tree) : f ∈ (binary o l r).rightFunctions := by
  cases r <;> simp [rightFunctions, h]

theorem mem_rightFunctions_right {f : Function} {r : Tree} (h : f ∈ r.rightFunctions) (o : Operator)
    (l : Tree) : f ∈ (binary o l r).rightFunctions := by
  cases r with
  | constant v => cases h
  | binary o' l' r' => simp [rightFunctions, h]
  | unary g x => exact List.mem_append_right _ (List.mem_cons_of_mem g h)

theorem nesting_pos {f : Function} {t : Tree} (h : f ∈ t.rightFunctions) : 0 < t.nesting := by
  cases t with
  | constant v => cases h
  | binary o l r => simp [nesting]
  | unary g x => exact nesting_unary_pos g x

theorem readWindow_operator_error {r : Tree} {tail : List Token}
    (hr : r.tokens = .opening :: r.inside ++ .closing :: tail) {depth : Nat}
    (hd : depth + 1 ≤ nestingLimit) {e : ReadingError}
    (h : readWindow (depth + 1) [] r.inside = .error e) (l : Operand) (o : Operator) :
    readWindow depth [l] (.operator o :: r.tokens) = .error e := by
  rw [hr]
  exact readWindow_enter_error (Move.first_operateGroup r.balanced_inside [] tail o l) hd h

theorem readWindow_left {l : Tree} (h : ∀ f ∈ l.rightFunctions, f = .factorial) {depth : Nat}
    (hd : depth + l.nesting ≤ nestingLimit) (rest : List Token) :
    readWindow depth [] (l.tokens ++ rest) = readWindow depth [.ofTree l.regrouped] rest := by
  have hh : (Operand.ofTree l.regrouped).height ≤ heightLimit :=
    height_regrouped_le_heightLimit (by omega)
  rw [readWindow_phrase (phrase_tokens (phrase_inside h)) depth hd, Operand.push_of_le hh]
  rfl

theorem readWindow_inside_error {l r : Tree} (h : ∀ f ∈ l.rightFunctions, f = .factorial)
    (o : Operator) {depth : Nat} (hd : depth + ((binary o l r).nesting - 1) ≤ nestingLimit)
    {e : ReadingError} (he : depth + r.nesting ≤ nestingLimit →
      readWindow depth [.ofTree l.regrouped] (.operator o :: r.tokens) = .error e) :
    readWindow depth [] (binary o l r).inside = .error e := by
  simp only [nesting] at hd
  rw [inside, readWindow_left h (by omega)]
  exact he (by omega)

theorem exists_readWindow_inside_error {t : Tree} (h : ∃ f ∈ t.rightFunctions, f ≠ .factorial) :
    ∃ f ∈ t.rightFunctions, f ≠ .factorial ∧ ∀ depth, depth + (t.nesting - 1) ≤ nestingLimit →
      readWindow depth [] t.inside = .error (.unexpected (.function f)) := by
  induction t with
  | constant v => simp [rightFunctions] at h
  | binary o l r hl hr =>
    by_cases hbad : ∃ f ∈ l.rightFunctions, f ≠ .factorial
    · obtain ⟨f, hf, hne, he⟩ := hl hbad
      refine ⟨f, mem_rightFunctions_left hf o r, hne, fun depth hd => ?_⟩
      have hp := nesting_pos hf
      simp only [nesting] at hd
      exact readWindow_tokens_error (by omega) (he (depth + 1) (by omega)) [] _
    have hclean : ∀ f ∈ l.rightFunctions, f = .factorial := by
      intro f hf
      by_cases hn : f = .factorial
      · exact hn
      · exact absurd ⟨f, hf, hn⟩ hbad
    cases r with
    | constant v =>
      obtain ⟨f, hf, hne⟩ := h
      exact absurd ⟨f, by simpa [rightFunctions] using hf, hne⟩ hbad
    | binary o' l' r' =>
      have hr' : ∃ f ∈ (binary o' l' r').rightFunctions, f ≠ .factorial := by
        obtain ⟨f, hf, hne⟩ := h
        rcases List.mem_append.mp hf with hf | hf
        · exact absurd ⟨f, hf, hne⟩ hbad
        · exact ⟨f, hf, hne⟩
      obtain ⟨f, hf, hne, he⟩ := hr hr'
      refine ⟨f, mem_rightFunctions_right hf o l, hne, fun depth hd =>
        readWindow_inside_error hclean o hd fun hd => ?_⟩
      have hp := nesting_pos hf
      exact readWindow_operator_error (tokens_binary o' l' r') (by omega)
        (he (depth + 1) (by omega)) _ o
    | unary g x =>
      by_cases hg : g = .factorial
      · subst hg
        have hr' : ∃ f ∈ (unary .factorial x).rightFunctions, f ≠ .factorial := by
          obtain ⟨f, hf, hne⟩ := h
          rcases List.mem_append.mp hf with hf | hf
          · exact absurd ⟨f, hf, hne⟩ hbad
          · exact ⟨f, List.mem_of_ne_of_mem hne hf, hne⟩
        obtain ⟨f, hf, hne, he⟩ := hr hr'
        refine ⟨f, mem_rightFunctions_right hf o l, hne, fun depth hd =>
          readWindow_inside_error hclean o hd fun hd => ?_⟩
        have hp := nesting_pos hf
        exact readWindow_operator_error (tokens_factorial x) (by omega)
          (he (depth + 1) (by omega)) _ o
      · refine ⟨g, List.mem_append_right _ List.mem_cons_self, hg, fun depth hd =>
          readWindow_inside_error hclean o hd fun _ => ?_⟩
        rw [tokens_unary hg]
        exact readWindow_error rfl depth
  | unary f x hx =>
    obtain ⟨g, hg, hne, he⟩ := hx h
    refine ⟨g, hg, hne, fun depth hd => ?_⟩
    have hp := nesting_pos hg
    have ht : depth + x.nesting ≤ nestingLimit → readWindow depth [] x.tokens =
        .error (.unexpected (.function g)) := by
      intro hd
      have hw := readWindow_tokens_error (by omega) (he (depth + 1) (by omega)) [] []
      rwa [List.append_nil] at hw
    by_cases hf : f = .factorial
    · subst hf
      exact ht hd
    · rcases unary_cases hf x with ⟨hi, hn, -⟩ | ⟨-, hi, hn, -⟩
      · rw [hi]
        exact ht (by omega)
      · rw [hi]
        exact he depth (by omega)

theorem ofTokens_tokens_error {t : Tree} (h : ∃ f ∈ t.rightFunctions, f ≠ .factorial)
    (hn : t.nesting ≤ nestingLimit) : ∃ f ∈ t.rightFunctions, f ≠ .factorial ∧
      ofTokens t.tokens = .error (.unexpected (.function f)) := by
  obtain ⟨f, hf, hne, he⟩ := exists_readWindow_inside_error h
  have hp := nesting_pos hf
  have hw := readWindow_tokens_error (by omega) (he 1 (by omega)) [] []
  rw [List.append_nil] at hw
  exact ⟨f, hf, hne, by rw [ofTokens, hw]; rfl⟩

theorem regrouped_eq_self {t : Tree} (h : t.rightFunctions = []) : t.regrouped = t := by
  induction t with
  | constant v => rfl
  | binary o l r hl hr =>
    cases r with
    | constant v => simp [regrouped, hl (by simpa [rightFunctions] using h)]
    | binary o' l' r' =>
      rw [rightFunctions, List.append_eq_nil_iff] at h
      · rw [regrouped, hl h.1, hr h.2]
        simp
      · simp
    | unary f x => simp [rightFunctions] at h
  | unary f x hx => rw [regrouped, hx h]

theorem factorial_notMem_rightFunctions {t : Tree} (h : t.regrouped = t) :
    .factorial ∉ t.rightFunctions := by
  induction t with
  | constant v => simp [rightFunctions]
  | binary o l r hl hr =>
    cases r with
    | constant v =>
      simp only [regrouped, binary.injEq] at h
      simpa [rightFunctions] using hl h.2.1
    | binary o' l' r' =>
      rw [regrouped, binary.injEq] at h
      · rw [rightFunctions, List.mem_append, not_or]
        · exact ⟨hl h.2.1, hr h.2.2⟩
        · simp
      · simp
    | unary f x =>
      by_cases hf : f = .factorial
      · subst hf
        cases h
      · rw [regrouped_binary_unary hf, binary.injEq] at h
        rw [rightFunctions, List.mem_append, List.mem_cons, not_or, not_or]
        exact ⟨hl h.2.1, Ne.symm hf, hr h.2.2⟩
  | unary f x hx =>
    simp only [regrouped, unary.injEq] at h
    exact hx h.2

/-- A written tree of finite constants, at most 128 levels deep, reads back as the regrouped tree
if only factorials stand to the right of operators, and as itself exactly if no function does. Any
other function there is refused as an unexpected token. -/
theorem ofText_text {t : Tree} (hf : t.isFinite = true) (hn : Text.NestsWithin 128 t.text) :
    ((∀ f ∈ t.rightFunctions, f = .factorial) → ofText t.text = .ok t.regrouped) ∧
      (ofText t.text = .ok t ↔ t.rightFunctions = []) ∧
      ((∃ f ∈ t.rightFunctions, f ≠ .factorial) → ∃ f ∈ t.rightFunctions, f ≠ .factorial ∧
        ofText t.text = .error (.unexpected (.function f))) := by
  have hs : Token.ofText t.text = .ok t.tokens :=
    (spells_text hf none (fun _ _ => rfl) breaks_nil).ofText_eq
  have ht : ofText t.text = ofTokens t.tokens := by rw [ofText, hs]
  have hn := nestsWithin_text.mp hn
  rw [ht]
  refine ⟨fun h => ofTokens_tokens h hn, ⟨fun h => ?_, fun h => ?_⟩,
    fun h => ofTokens_tokens_error h hn⟩
  · by_cases hbad : ∃ f ∈ t.rightFunctions, f ≠ .factorial
    · obtain ⟨f, -, -, he⟩ := ofTokens_tokens_error hbad hn
      rw [he] at h
      cases h
    · have hclean : ∀ f ∈ t.rightFunctions, f = .factorial := by simpa using hbad
      rw [ofTokens_tokens hclean hn, Except.ok.injEq] at h
      refine List.eq_nil_iff_forall_not_mem.mpr fun f hm => ?_
      exact factorial_notMem_rightFunctions h (hclean f hm ▸ hm)
  · rw [ofTokens_tokens (by simp [h]) hn, regrouped_eq_self h]

theorem ofText_text_factorial :
    ofText "(0 + (-0)!)".toList =
      .ok (.unary .factorial (.binary .plus (.constant .zero) (.constant (.neg .zero)))) := by
  have h := ofText_text (t := .binary .plus (.constant .zero)
    (.unary .factorial (.constant (.neg .zero)))) rfl (nestsWithin_text.mpr (by decide))
  have ht : text (.binary .plus (.constant .zero) (.unary .factorial (.constant (.neg .zero)))) =
      "(0 + (-0)!)".toList := by decide +kernel
  rw [← ht]
  exact h.1 (by decide)

end Tree
end Reckoner
