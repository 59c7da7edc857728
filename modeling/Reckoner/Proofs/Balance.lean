import Reckoner.Token

/-!
Balanced token lists: every prefix has at least as many opening as closing parentheses, and the
whole list equally many. Main statement: the search for the parenthesis that closes a group passes
over them.
-/
set_option autoImplicit false

namespace Reckoner.Token

/-- The closing parentheses of each prefix are answered by its opening ones and `inner` more. -/
def Covered (inner : Nat) (ts : List Token) : Prop :=
  ∀ p, p <+: ts → p.count .closing ≤ inner + p.count .opening

structure Balanced (ts : List Token) : Prop where
  covered : Covered 0 ts
  even : ts.count .closing = ts.count .opening

theorem Covered.count_le {inner : Nat} {ts : List Token} (h : Covered inner ts) :
    ts.count .closing ≤ inner + ts.count .opening := h ts (List.prefix_refl ts)

theorem covered_nil (inner : Nat) : Covered inner [] := by
  intro p hp
  rw [List.prefix_nil.mp hp]; simp

theorem covered_cons {inner : Nat} {t : Token} {ts : List Token} :
    Covered inner (t :: ts) ↔
      ∀ p, p <+: ts → (t :: p).count .closing ≤ inner + (t :: p).count .opening := by
  constructor
  · intro h p hp
    exact h (t :: p) (List.cons_prefix_cons.mpr ⟨rfl, hp⟩)
  · intro h p hp
    rcases List.prefix_cons_iff.mp hp with rfl | ⟨q, rfl, hq⟩
    · simp
    · exact h q hq

@[simp] theorem covered_opening {inner : Nat} {ts : List Token} :
    Covered inner (.opening :: ts) ↔ Covered (inner + 1) ts := by
  rw [covered_cons]
  refine forall_congr' fun p => imp_congr_right fun _ => ?_
  simp; omega

@[simp] theorem covered_closing_succ {inner : Nat} {ts : List Token} :
    Covered (inner + 1) (.closing :: ts) ↔ Covered inner ts := by
  rw [covered_cons]
  refine forall_congr' fun p => imp_congr_right fun _ => ?_
  simp; omega

theorem not_covered_closing {ts : List Token} : ¬ Covered 0 (.closing :: ts) := by
  intro h
  have hp := h [.closing] (List.prefix_append [.closing] ts)
  simp at hp

theorem covered_cons_of_ne {inner : Nat} {t : Token} {ts : List Token} (ho : t ≠ .opening)
    (hc : t ≠ .closing) : Covered inner (t :: ts) ↔ Covered inner ts := by
  rw [covered_cons]
  refine forall_congr' fun p => imp_congr_right fun _ => ?_
  simp [ho, hc]

/-- Where the answer to some parenthesis would be missing, the balance would first be just one
short of it. -/
theorem covered_iff_forall_ne {inner : Nat} {ts : List Token} :
    Covered inner ts ↔ ∀ p, p <+: ts → inner + 1 + p.count .opening ≠ p.count .closing := by
  constructor
  · intro h p hp he
    have hle := h p hp
    omega
  · intro h
    induction ts generalizing inner with
    | nil => exact covered_nil inner
    | cons t ts ih =>
      have hcons : ∀ p, p <+: ts →
          inner + 1 + (t :: p).count .opening ≠ (t :: p).count .closing :=
        fun p hp => h (t :: p) (List.cons_prefix_cons.mpr ⟨rfl, hp⟩)
      cases t with
      | opening =>
        refine covered_opening.mpr (ih fun p hp he => hcons p hp ?_)
        simp; omega
      | closing =>
        cases inner with
        | zero => exact absurd (hcons [] List.nil_prefix) (by simp)
        | succ inner =>
          refine covered_closing_succ.mpr (ih fun p hp he => hcons p hp ?_)
          simp; omega
      | _ =>
        refine (covered_cons_of_ne (by simp) (by simp)).mpr (ih fun p hp he => hcons p hp ?_)
        simpa using he

theorem Covered.append {inner : Nat} {ts us : List Token} (h : Covered inner ts)
    (hu : Covered (inner + ts.count .opening - ts.count .closing) us) :
    Covered inner (ts ++ us) := by
  intro p hp
  rcases List.prefix_or_prefix_of_prefix hp (List.prefix_append ts us) with hts | ⟨q, rfl⟩
  · exact h p hts
  · have hle := h.count_le
    have hq := hu q ((List.prefix_append_right_inj ts).mp hp)
    simp only [List.count_append]; omega

theorem splitAtClosing_append (ts us : List Token) {inner : Nat} (h : Covered inner ts) :
    splitAtClosing inner (ts ++ us) =
      (splitAtClosing (inner + ts.count .opening - ts.count .closing) us).map
        fun p => (ts ++ p.1, p.2) := by
  induction ts generalizing inner with
  | nil => simp
  | cons t ts ih =>
    cases t with
    | opening =>
      have hc := ih (covered_opening.mp h)
      simp only [List.cons_append, splitAtClosing, hc, Option.map_map]
      congr 2
      simp; omega
    | closing =>
      cases inner with
      | zero => exact absurd h not_covered_closing
      | succ inner =>
        have hc := ih (covered_closing_succ.mp h)
        simp only [List.cons_append, splitAtClosing, hc, Option.map_map]
        congr 2
        simp; omega
    | _ =>
      have hc := ih ((covered_cons_of_ne (by simp) (by simp)).mp h)
      simp only [List.cons_append, splitAtClosing, hc, Option.map_map]
      congr 2

theorem covered_of_splitAtClosing_eq_none {inner : Nat} {ts : List Token}
    (h : splitAtClosing inner ts = none) : Covered inner ts := by
  induction ts generalizing inner with
  | nil => exact covered_nil inner
  | cons t ts ih =>
    cases t with
    | opening =>
      rw [splitAtClosing, Option.map_eq_none_iff] at h
      exact covered_opening.mpr (ih h)
    | closing =>
      cases inner with
      | zero => cases h
      | succ inner =>
        rw [splitAtClosing, Option.map_eq_none_iff] at h
        exact covered_closing_succ.mpr (ih h)
    | _ =>
      simp only [splitAtClosing, Option.map_eq_none_iff] at h
      exact (covered_cons_of_ne (by simp) (by simp)).mpr (ih h)

theorem covered_of_splitAtClosing {inner : Nat} {ts window rest : List Token}
    (h : splitAtClosing inner ts = some (window, rest)) :
    Covered inner window ∧ window.count .closing = inner + window.count .opening := by
  induction ts generalizing inner window with
  | nil => cases h
  | cons t ts ih =>
    cases t with
    | opening =>
      rw [splitAtClosing, Option.map_eq_some_iff] at h
      obtain ⟨⟨w, r⟩, hw, h⟩ := h
      cases h
      have hi := ih hw
      refine ⟨covered_opening.mpr hi.1, ?_⟩
      simp; omega
    | closing =>
      cases inner with
      | zero =>
        cases h
        exact ⟨covered_nil 0, rfl⟩
      | succ inner =>
        rw [splitAtClosing, Option.map_eq_some_iff] at h
        obtain ⟨⟨w, r⟩, hw, h⟩ := h
        cases h
        have hi := ih hw
        refine ⟨covered_closing_succ.mpr hi.1, ?_⟩
        simp; omega
    | _ =>
      simp only [splitAtClosing, Option.map_eq_some_iff] at h
      obtain ⟨⟨w, r⟩, hw, h⟩ := h
      cases h
      have hi := ih hw
      refine ⟨(covered_cons_of_ne (by simp) (by simp)).mpr hi.1, ?_⟩
      simpa using hi.2

theorem balanced_of_splitAtClosing {ts window rest : List Token}
    (h : splitAtClosing 0 ts = some (window, rest)) : Balanced window := by
  obtain ⟨hc, he⟩ := covered_of_splitAtClosing h
  exact ⟨hc, by rw [he, Nat.zero_add]⟩

theorem balanced_nil : Balanced [] := ⟨covered_nil 0, rfl⟩

theorem balanced_singleton {t : Token} (ho : t ≠ .opening) (hc : t ≠ .closing) : Balanced [t] := by
  refine ⟨(covered_cons_of_ne ho hc).mpr (covered_nil 0), ?_⟩
  simp [ho, hc]

theorem Balanced.append {ts us : List Token} (h : Balanced ts) (hu : Balanced us) :
    Balanced (ts ++ us) := by
  constructor
  · refine h.covered.append ?_
    rw [h.even]
    simpa using hu.covered
  · simp [h.even, hu.even]

theorem Balanced.cons {t : Token} {ts : List Token} (h : Balanced ts) (ho : t ≠ .opening)
    (hc : t ≠ .closing) : Balanced (t :: ts) := (balanced_singleton ho hc).append h

theorem Balanced.covered_of {ts : List Token} (h : Balanced ts) (inner : Nat) :
    Covered inner ts := by
  intro p hp
  have hc := h.covered p hp
  omega

theorem Balanced.group {ts : List Token} (h : Balanced ts) :
    Balanced (.opening :: ts ++ [.closing]) := by
  constructor
  · rw [List.cons_append, covered_opening]
    refine (h.covered_of 1).append ?_
    rw [h.even, Nat.add_sub_cancel]
    exact covered_closing_succ.mpr (covered_nil 0)
  · simp [h.even]

theorem Balanced.splitAtClosing_append {ts : List Token} (h : Balanced ts) (inner : Nat)
    (us : List Token) :
    Token.splitAtClosing inner (ts ++ us) =
      (Token.splitAtClosing inner us).map fun p => (ts ++ p.1, p.2) := by
  rw [Token.splitAtClosing_append ts us (h.covered_of inner), h.even, Nat.add_sub_cancel]

/-- The group that a parenthesis opens ends after any balanced contents. -/
theorem Balanced.splitAtClosing {ts : List Token} (h : Balanced ts) (us : List Token) :
    splitAtClosing 0 (ts ++ .closing :: us) = some (ts, us) := by
  simp [h.splitAtClosing_append, Token.splitAtClosing]

end Reckoner.Token
