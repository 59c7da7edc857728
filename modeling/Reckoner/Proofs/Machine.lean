import Reckoner.Tree.Value

set_option autoImplicit false

namespace Reckoner

namespace Item

theorem runAll_append (m : Elementary) (items after : List Item) (stack : List Binary64) :
    runAll m (items ++ after) stack =
      match runAll m items stack with
      | some (.ok stack) => runAll m after stack
      | r => r := by
  induction items generalizing stack with
  | nil => rfl
  | cons i items ih =>
    rw [List.cons_append, runAll, runAll]
    cases i.run m stack with
    | none => rfl
    | some r =>
      cases r with
      | error e => rfl
      | ok s => exact ih s

theorem exists_failing {m : Elementary} {items : List Item} {stack : List Binary64}
    {e : EvaluationError} (h : runAll m items stack = some (.error e)) :
    ∃ before i after s, items = before ++ i :: after ∧ runAll m before stack = some (.ok s) ∧
      i.run m s = some (.error e) := by
  induction items generalizing stack with
  | nil => cases h
  | cons i items ih =>
    rw [runAll] at h
    cases hi : i.run m stack with
    | none =>
      rw [hi] at h
      cases h
    | some r =>
      rw [hi] at h
      cases r with
      | error e' =>
        cases h
        exact ⟨[], i, items, stack, rfl, rfl, hi⟩
      | ok s =>
        obtain ⟨before, j, after, s', rfl, hb, hj⟩ := ih h
        refine ⟨i :: before, j, after, s', rfl, ?_, hj⟩
        rw [runAll, hi]
        exact hb

/-- The machine stops with an error at one item, behind items that do not fail. -/
theorem runAll_eq_error_iff {m : Elementary} {items : List Item} {stack : List Binary64}
    {e : EvaluationError} :
    runAll m items stack = some (.error e) ↔
      ∃ before i after s, items = before ++ i :: after ∧ runAll m before stack = some (.ok s) ∧
        i.run m s = some (.error e) := by
  constructor
  · exact exists_failing
  · rintro ⟨before, i, after, s, rfl, hb, hi⟩
    rw [runAll_append, hb]
    simp only [runAll, hi]

theorem isSome_runAll_take {m : Elementary} {items : List Item} {stack : List Binary64}
    (h : (runAll m items stack).isSome = true) (n : Nat) :
    (runAll m (items.take n) stack).isSome = true := by
  rw [← List.take_append_drop n items, runAll_append] at h
  cases hr : runAll m (items.take n) stack with
  | none =>
    rw [hr] at h
    cases h
  | some r => rfl

end Item

theorem Tree.runAll_postorder (m : Elementary) (t : Tree) (stack : List Binary64) :
    Item.runAll m t.postorder stack = some ((t.value m).map (· :: stack)) := by
  have h := Item.runAll_postorder_append m t [] stack
  rw [List.append_nil] at h
  rw [h]
  cases t.value m <;> rfl

/-- The machine leaves the value of a tree and nothing else, and no item of the tree ever lacks a
value; the error of a tree is that of its first item that fails. -/
theorem Tree.value_eq_runAll (m : Elementary) (t : Tree) :
    Item.runAll m t.postorder [] = some ((t.value m).map ([·])) ∧
      (∀ e, t.value m = .error e ↔ ∃ before i after stack, t.postorder = before ++ i :: after ∧
        Item.runAll m before [] = some (.ok stack) ∧ i.run m stack = some (.error e)) ∧
      ∀ n, (Item.runAll m (t.postorder.take n) []).isSome = true := by
  have h := t.runAll_postorder m []
  refine ⟨h, fun e => ?_, fun n => ?_⟩
  · rw [← Item.runAll_eq_error_iff, h]
    cases t.value m <;> simp [Except.map]
  · refine Item.isSome_runAll_take ?_ n
    rw [h]
    rfl

end Reckoner
