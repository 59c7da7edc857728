import Reckoner.Proofs.Balance
import Reckoner.Tree.Building

set_option autoImplicit false

namespace Reckoner.Token

/-- The parenthesis at `stop` closes the group whose contents begin behind `start`. -/
structure Closes (ts : List Token) (start stop : Nat) : Prop where
  after : start < stop
  inside : stop < ts.length
  closing : ts[stop]? = some .closing
  balanced : Balanced (ts.extract (start + 1) stop)

section

variable {ts : List Token} {start stop : Nat}

theorem Closes.drop_eq (h : Closes ts start stop) :
    ts.drop (start + 1) = ts.extract (start + 1) stop ++ .closing :: ts.drop (stop + 1) := by
  obtain ⟨hlt, hc⟩ := List.getElem?_eq_some_iff.mp h.closing
  have hstop : start + 1 + (stop - (start + 1)) = stop := Nat.add_sub_cancel' h.after
  have hd : (ts.drop (start + 1)).drop (stop - (start + 1)) = .closing :: ts.drop (stop + 1) := by
    rw [List.drop_drop, hstop, List.drop_eq_getElem_cons hlt, hc]
  rw [← hd]
  exact (List.take_append_drop _ _).symm

theorem Closes.splitAtClosing (h : Closes ts start stop) :
    splitAtClosing 0 (ts.drop (start + 1)) =
      some (ts.extract (start + 1) stop, ts.drop (stop + 1)) := by
  rw [h.drop_eq]
  exact h.balanced.splitAtClosing _

theorem Closes.length_extract (h : Closes ts start stop) :
    (ts.extract (start + 1) stop).length = stop - (start + 1) := by
  have hs := h.inside
  simp only [List.length_take, List.length_drop]
  omega

theorem closes_of_splitAtClosing {window rest : List Token}
    (h : Token.splitAtClosing 0 (ts.drop (start + 1)) = some (window, rest)) :
    Closes ts start (start + 1 + window.length) := by
  have he := eq_append_of_splitAtClosing h
  have hc : ts[start + 1 + window.length]? = some .closing := by
    rw [← List.getElem?_drop, he, List.getElem?_append_right (Nat.le_refl _), Nat.sub_self]
    rfl
  have hw : ts.extract (start + 1) (start + 1 + window.length) = window := by
    rw [List.extract_eq_take_drop, he, Nat.add_sub_cancel_left, List.take_left]
  refine ⟨by omega, (List.getElem?_eq_some_iff.mp hc).1, hc, ?_⟩
  rw [hw]
  exact balanced_of_splitAtClosing h

theorem Closes.closingFrom?_eq (h : Closes ts start stop) :
    closingFrom? ts (start + 1) = some stop := by
  have hstop := h.after
  rw [closingFrom?, h.splitAtClosing, Option.map_some, h.length_extract]
  exact congrArg some (Nat.add_sub_cancel' hstop)

theorem closes_of_closingFrom? (h : closingFrom? ts (start + 1) = some stop) :
    Closes ts start stop := by
  obtain ⟨⟨window, rest⟩, hs, rfl⟩ := Option.map_eq_some_iff.mp h
  exact closes_of_splitAtClosing hs

end

/-- The search with a count of the groups that are open: it goes up and down with the parentheses,
and where it comes back to zero the group is closed. `none` stands for a count below zero. -/
def countedSearch (count index : Nat) : List Token → Option (Except ReadingError Nat)
  | [] => some (.error .unbalanced)
  | .opening :: ts => countedSearch (count + 1) (index + 1) ts
  | .closing :: ts =>
    match count with
    | 0 => none
    | 1 => some (.ok index)
    | count + 2 => countedSearch (count + 1) (index + 1) ts
  | _ :: ts => countedSearch count (index + 1) ts

theorem elim_map_cons {ε : Type} (e : ε) (t : Token) (index : Nat)
    (split : Option (List Token × List Token)) :
    (split.map fun p => (t :: p.1, p.2)).elim (Except.error e)
        (fun p => Except.ok (index + p.1.length)) =
      split.elim (.error e) fun p => .ok (index + 1 + p.1.length) := by
  cases split with
  | none => rfl
  | some p => simp [Nat.add_assoc, Nat.add_comm 1]

/-- With one group open, and `inner` more, the count is one before any closing parenthesis that it
meets at least. -/
theorem countedSearch_succ (inner index : Nat) (ts : List Token) :
    countedSearch (inner + 1) index ts = some ((splitAtClosing inner ts).elim (.error .unbalanced)
      fun p => .ok (index + p.1.length)) := by
  induction ts generalizing inner index with
  | nil => rfl
  | cons t ts ih =>
    cases t with
    | closing =>
      cases inner with
      | zero => rfl
      | succ inner => rw [countedSearch, ih, splitAtClosing, elim_map_cons]
    | opening => rw [countedSearch, ih, splitAtClosing, elim_map_cons]
    | _ => simp only [countedSearch, ih, splitAtClosing, elim_map_cons]

theorem countedSearch_eq (ts : List Token) (first : Nat) :
    countedSearch 1 first (ts.drop first) =
      some ((closingFrom? ts first).elim (.error .unbalanced) .ok) := by
  rw [countedSearch_succ 0, closingFrom?]
  cases splitAtClosing 0 (ts.drop first) <;> rfl

theorem enterGroup_drop (ts : List Token) (start : Nat) (frame : Frame) (stack : List Operand) :
    Move.enterGroup frame stack (ts.drop (start + 1)) =
      (closingFrom? ts (start + 1)).elim (.error .unbalanced) fun stop =>
        .ok (.enter (ts.extract (start + 1) stop) frame stack (ts.drop (stop + 1))) := by
  cases h : closingFrom? ts (start + 1) with
  | none =>
    rw [Move.enterGroup, Option.map_eq_none_iff.mp h]
    rfl
  | some stop =>
    rw [Move.enterGroup, (closes_of_closingFrom? h).splitAtClosing]
    rfl

/-- Of a group that is not opened at the very last index, exactly the parenthesis that closes it is
found, and there is no second one. Counting the open groups comes to the same without falling below
zero, and the slice that is entered is inside the window. -/
theorem closes_iff_closingIndex (ts : List Token) (start : Nat) (h : start + 1 < 2 ^ 64) :
    (∀ stop, closingIndex? ts start = some stop ↔ Closes ts start stop) ∧
      (∀ stop stop', Closes ts start stop → Closes ts start stop' → stop = stop') ∧
      countedSearch 1 (start + 1) (ts.drop (start + 1)) =
        some ((closingIndex? ts start).elim (.error .unbalanced) .ok) ∧
      (∀ stop, closingIndex? ts start = some stop → start + 1 ≤ stop ∧ stop ≤ ts.length) ∧
      ∀ frame stack, Move.enterGroup frame stack (ts.drop (start + 1)) =
        (closingIndex? ts start).elim (.error .unbalanced) fun stop =>
          .ok (.enter (ts.extract (start + 1) stop) frame stack (ts.drop (stop + 1))) := by
  rw [closingIndex?_of_lt h]
  refine ⟨fun stop => ⟨closes_of_closingFrom?, Closes.closingFrom?_eq⟩, ?_,
    countedSearch_eq ts (start + 1), ?_, enterGroup_drop ts start⟩
  · intro stop stop' hc hc'
    have he := hc.closingFrom?_eq.symm.trans hc'.closingFrom?_eq
    exact Option.some.inj he
  · intro stop hs
    have hc := closes_of_closingFrom? hs
    exact ⟨hc.after, Nat.le_of_lt hc.inside⟩

theorem closes_iff_closingIndex_nested :
    let ts : List Token := [.opening, .opening, .number .zero, .closing, .bang, .closing, .closing]
    0 + 1 < 2 ^ 64 ∧ Closes ts 0 5 ∧ ¬Closes ts 0 6 := by
  intro ts
  have h := (closes_iff_closingIndex ts 0 (by decide)).1
  have hi : closingIndex? ts 0 = some 5 := by decide
  refine ⟨by decide, (h 5).mp hi, fun hc => ?_⟩
  have he := (h 6).mpr hc
  rw [hi] at he
  cases he

/-- Behind the last index the search starts over, so there it finds a parenthesis that closes no
group. -/
theorem closingIndex?_last : closingIndex? [.closing] (2 ^ 64 - 1) = some 0 ∧
    ∀ stop, ¬Closes [.closing] (2 ^ 64 - 1) stop := by
  refine ⟨by decide, fun stop h => ?_⟩
  have ha := h.after
  have hi := h.inside
  simp only [List.length_singleton] at hi
  omega

example : closingIndex? [.opening, .bang, .closing] 0 = some 2 ∧
    closingIndex? [.opening, .bang, .closing] 1 = some 2 ∧
    closingIndex? [.opening, .bang, .closing] 3 = none := by decide

end Reckoner.Token
