import Reckoner.Tree.Value
import Reckoner.Proofs.Grammar
import Reckoner.Proofs.Spelling

set_option autoImplicit false

namespace Reckoner

structure Chain where
  start : Binary64
  steps : List (Operator × Binary64)
  deriving DecidableEq

namespace Chain

def stepText (s : Operator × Binary64) : Text := ' ' :: s.1.symbol :: ' ' :: s.2.plain

def text (c : Chain) : Text := c.start.plain ++ c.steps.flatMap stepText

/-- The operations in their order, as far as the first that fails. -/
def value (m : Elementary) (c : Chain) : Except EvaluationError Binary64 :=
  c.steps.foldlM (fun x s => s.1.apply m x s.2) c.start

def stepTokens (s : Operator × Binary64) : List Token := [.operator s.1, .number s.2]

def tokens (c : Chain) : List Token := .number c.start :: c.steps.flatMap stepTokens

def extend (t : Tree) (s : Operator × Binary64) : Tree := .binary s.1 t (.constant s.2)

def tree (c : Chain) : Tree := c.steps.foldl extend (.constant c.start)

theorem breaks_steps (steps : List (Operator × Binary64)) : Breaks (steps.flatMap stepText) := by
  cases steps with
  | nil => exact breaks_nil
  | cons s steps => exact breaks_cons (by decide)

theorem spells_step (x : Binary64) (o : Operator) {v : Binary64} (hv : v.isFinite = true)
    {rest : Text} (hb : Breaks rest) :
    Token.Spells (some (.number x)) (stepText (o, v)) (stepTokens (o, v)) rest := by
  have hr := Token.spells_value hv (some (.operator o)) (fun _ _ => rfl) hb
  have ho := (hr.blank_cons (c := ' ') (by decide)).symbol_cons (some (.number x))
    (Token.ofSymbol?_operator o) (fun _ _ => breaks_cons (by decide))
  exact ho.blank_cons (by decide)

theorem spells_steps {steps : List (Operator × Binary64)}
    (h : ∀ s ∈ steps, s.2.isFinite = true) (x : Binary64) :
    Token.Spells (some (.number x)) (steps.flatMap stepText) (steps.flatMap stepTokens) [] := by
  induction steps generalizing x with
  | nil => exact Token.spells_nil _ _
  | cons s steps ih =>
    rw [List.forall_mem_cons] at h
    have hb := breaks_steps steps
    rw [← List.append_nil (steps.flatMap stepText)] at hb
    have hs := spells_step x s.1 h.1 hb
    exact hs.append (ih h.2 s.2)

theorem ofText_eq_tokens {c : Chain} (h₀ : c.start.isFinite = true)
    (h : ∀ s ∈ c.steps, s.2.isFinite = true) : Token.ofText c.text = .ok c.tokens := by
  have hb := breaks_steps c.steps
  rw [← List.append_nil (c.steps.flatMap stepText)] at hb
  have hs := Token.spells_value h₀ none (fun _ _ => rfl) hb
  exact (hs.append (spells_steps h c.start)).ofText_eq

theorem phrase_foldl (steps : List (Operator × Binary64)) {ts : List Token} {t : Tree} {d : Nat}
    (h : Phrase ts t d) : Phrase (ts ++ steps.flatMap stepTokens) (steps.foldl extend t) d := by
  induction steps generalizing ts t with
  | nil => rwa [List.flatMap_nil, List.append_nil]
  | cons s steps ih =>
    have hs := ih (h.operate s.1 s.2)
    rwa [List.append_assoc] at hs

theorem height_foldl (steps : List (Operator × Binary64)) (t : Tree) :
    (steps.foldl extend t).height = t.height + steps.length := by
  induction steps generalizing t with
  | nil => rfl
  | cons s steps ih =>
    have hp := t.height_pos
    simp only [List.foldl_cons, ih, extend, Tree.height, List.length_cons]
    omega

theorem value_foldl (m : Elementary) (steps : List (Operator × Binary64)) (t : Tree) :
    (steps.foldl extend t).value m =
      t.value m >>= fun x => steps.foldlM (fun x s => s.1.apply m x s.2) x := by
  induction steps generalizing t with
  | nil => simp
  | cons s steps ih =>
    rw [List.foldl_cons, ih, extend, Tree.value]
    simp only [bind_assoc, List.foldlM_cons]
    rfl

/-- A chain of at most 511 operators has the value of its operations from left to right, or the
error of the first that fails; a longer one is refused for its height. -/
theorem evaluate_text (m : Elementary) (c : Chain) (h₀ : c.start.isFinite = true)
    (h : ∀ s ∈ c.steps, s.2.isFinite = true) :
    evaluate m c.text =
      if c.steps.length ≤ 511 then (c.value m).mapError .evaluation
      else .error (.reading (.tooDeep 512)) := by
  have hp : Phrase c.tokens c.tree 0 := phrase_foldl c.steps (.number c.start)
  have ht := ofTokens_phrase hp (Nat.zero_le _)
  have hh : c.tree.height = 1 + c.steps.length := height_foldl c.steps _
  have hv : c.tree.value m = c.value m := value_foldl m c.steps _
  rw [evaluate, Tree.ofText, ofText_eq_tokens h₀ h]
  simp only [ht, hh, heightLimit]
  by_cases hl : c.steps.length ≤ 511
  · rw [if_pos hl, if_neg (by omega)]
    simp only [hv]
    cases c.value m <;> rfl
  · rw [if_neg hl, if_pos (by omega)]

theorem evaluate_text_over_zero :
    evaluate .machine "-0 - -1 / 0".toList = .error (.evaluation .divisionByZero) := by
  have h := evaluate_text .machine ⟨.neg .zero, [(.minus, .neg .one), (.over, .zero)]⟩ rfl
    (by decide +kernel)
  have ht : text ⟨.neg .zero, [(.minus, .neg .one), (.over, .zero)]⟩ = "-0 - -1 / 0".toList := by
    decide +kernel
  rw [ht] at h
  exact h.trans rfl

end Chain
end Reckoner
