import Mathlib.Logic.Relation
import Reckoner.Proofs.Closing
import Reckoner.Proofs.Grammar

/-!
Reading a window with a cursor. A reader keeps the whole window and names what it enters by places
in it; reading with it comes to the same as reading the tokens that are left. Main statement: what
holds of a reader whenever it looks at its next token.
-/
set_option autoImplicit false

namespace Reckoner

/-- A window read up to the cursor, and the operands made of the tokens before it. -/
structure Reader where
  depth : Nat
  window : List Token
  cursor : Nat
  stack : List Operand
  deriving DecidableEq

/-- A move told by places in the window. It enters the slice from `start` to `stop`, and the cursor
goes to `after`. -/
inductive Advance where
  | place (x : Operand) (stack : List Operand) (after : Nat)
  | enter (start stop : Nat) (frame : Frame) (stack : List Operand) (after : Nat)
  deriving DecidableEq

namespace Advance

def move (window : List Token) : Advance → Move
  | .place x stack after => .place x stack (window.drop after)
  | .enter start stop frame stack after =>
    .enter (window.extract start stop) frame stack (window.drop after)

def Inside (cursor length : Nat) : Advance → Prop
  | .place _ _ after => cursor < after ∧ after ≤ length
  | .enter start stop _ _ after => cursor < start ∧ start ≤ stop ∧ stop ≤ after ∧ after ≤ length

end Advance

namespace Reader

def enter (depth : Nat) (window : List Token) : Except ReadingError Reader :=
  if nestingLimit < depth then .error (.tooDeep nestingLimit) else .ok ⟨depth, window, 0, []⟩

def outcome (r : Reader) : Except ReadingError Operand :=
  readWindow r.depth r.stack (r.window.drop r.cursor)

def group (r : Reader) (frame : Frame) (stack : List Operand) (start : Nat) :
    Except ReadingError Advance :=
  match Token.closingFrom? r.window (start + 1) with
  | none => .error .unbalanced
  | some stop => .ok (.enter (start + 1) stop frame stack (stop + 1))

def operator (r : Reader) (o : Operator) : Except ReadingError Advance :=
  if r.window.length ≤ r.cursor + 1 then .error .missingOperand
  else
    match r.stack with
    | [] => .error .missingOperand
    | l :: stack =>
      match r.window[r.cursor + 1]? with
      | none => .error .missingOperand
      | some (.number v) => .ok (.place (.binary o l (.constant v)) stack (r.cursor + 2))
      | some .opening => r.group (.right o l) stack (r.cursor + 1)
      | some t => .error (.unexpected t)

def function (r : Reader) (f : Function) : Except ReadingError Advance :=
  match r.window[r.cursor + 1]? with
  | none => .error (if f.takesBare then .missingOperand else .missingParenthesis f)
  | some .opening => r.group (.argument f) r.stack (r.cursor + 1)
  | some _ =>
    if f.takesBare then
      .ok (.enter (r.cursor + 1) (r.cursor + 2) (.argument f) r.stack (r.cursor + 2))
    else .error (.missingParenthesis f)

def advance (r : Reader) : Token → Except ReadingError Advance
  | .number v => .ok (.place (.constant v) r.stack (r.cursor + 1))
  | .operator o => r.operator o
  | .opening => r.group .group r.stack r.cursor
  | .closing => .error (.unexpected .closing)
  | .function f => r.function f
  | .bang =>
    match r.stack with
    | [] => .error .missingOperand
    | x :: stack => .ok (.place (.unary .factorial x) stack (r.cursor + 1))

def put (r : Reader) (x : Operand) (stack : List Operand) (after : Nat) :
    Except ReadingError Reader := do
  let stack ← x.push stack
  return { r with cursor := after, stack := stack }

def step (r : Reader) (t : Token) : Except ReadingError Reader := do
  match ← r.advance t with
  | .place x stack after => r.put x stack after
  | .enter start stop frame stack after =>
    let inner ← enter (r.depth + 1) (r.window.extract start stop)
    let x ← inner.outcome
    r.put (frame.fill x) stack after

end Reader

theorem getElem?_cases {α : Type} (as : List α) (i : Nat) :
    as.length ≤ i ∧ as[i]? = none ∧ as.drop i = [] ∨
      ∃ a, i < as.length ∧ as[i]? = some a ∧ as.drop i = a :: as.drop (i + 1) := by
  by_cases h : i < as.length
  · exact .inr ⟨as[i], h, List.getElem?_eq_getElem h, List.drop_eq_getElem_cons h⟩
  · have hl := Nat.not_lt.mp h
    exact .inl ⟨hl, List.getElem?_eq_none hl, List.drop_eq_nil_of_le hl⟩

namespace Reader

theorem enterGroup_drop (r : Reader) (frame : Frame) (stack : List Operand) (start : Nat) :
    Move.enterGroup frame stack (r.window.drop (start + 1)) =
      (r.group frame stack start).map (Advance.move r.window) := by
  rw [Token.enterGroup_drop, group]
  cases Token.closingFrom? r.window (start + 1) <;> rfl

theorem operator_drop (r : Reader) (o : Operator) :
    Move.operator o r.stack (r.window.drop (r.cursor + 1)) =
      (r.operator o).map (Advance.move r.window) := by
  obtain ⟨depth, window, cursor, stack⟩ := r
  rcases getElem?_cases window (cursor + 1) with ⟨hl, -, hd⟩ | ⟨k, hl, hk, hd⟩
  · simp only [operator, hd, if_pos hl]
    rfl
  · simp only [operator, hd, hk, if_neg (Nat.not_le.mpr hl)]
    cases stack with
    | nil => rfl
    | cons l stack =>
      cases k with
      | opening => exact enterGroup_drop ⟨depth, window, cursor, l :: stack⟩ _ stack (cursor + 1)
      | _ => rfl

theorem function_drop (r : Reader) (f : Function) :
    Move.function f r.stack (r.window.drop (r.cursor + 1)) =
      (r.function f).map (Advance.move r.window) := by
  obtain ⟨depth, window, cursor, stack⟩ := r
  rcases getElem?_cases window (cursor + 1) with ⟨hl, hn, hd⟩ | ⟨k, hl, hk, hd⟩
  · simp only [function, hn, hd]
    rfl
  · by_cases hko : k = .opening
    · subst hko
      simp only [function, hk, hd]
      exact enterGroup_drop ⟨depth, window, cursor, stack⟩ _ stack (cursor + 1)
    · have hb : window.extract (cursor + 1) (cursor + 2) = [k] := by
        rw [List.extract_eq_take_drop, hd]
        simp
      cases hf : f.takesBare with
      | true =>
        rw [hd, Move.function_of_takesBare hf hko]
        cases k with
        | opening => exact absurd rfl hko
        | _ => simp [function, hk, hf, Except.map, Advance.move, hb]
      | false =>
        rw [hd, Move.function_of_not_takesBare hf hko]
        cases k with
        | opening => exact absurd rfl hko
        | _ => simp [function, hk, hf, Except.map]

/-- The places name the tokens of the move that is made. -/
theorem first_drop (r : Reader) (t : Token) :
    Move.first r.stack t (r.window.drop (r.cursor + 1)) =
      (r.advance t).map (Advance.move r.window) := by
  cases t with
  | number v => rfl
  | closing => rfl
  | operator o => exact r.operator_drop o
  | opening => exact r.enterGroup_drop .group r.stack r.cursor
  | function f => exact r.function_drop f
  | bang =>
    obtain ⟨depth, window, cursor, stack⟩ := r
    cases stack <;> rfl

theorem first_of_advance {r : Reader} {t : Token} {m : Advance} (h : r.advance t = .ok m) :
    Move.first r.stack t (r.window.drop (r.cursor + 1)) = .ok (m.move r.window) := by
  rw [first_drop, h]
  rfl

theorem put_bind (r : Reader) (x : Operand) (stack : List Operand) (after : Nat) :
    r.put x stack after >>= outcome =
      x.push stack >>= fun s => readWindow r.depth s (r.window.drop after) := by
  rw [put, bind_assoc]
  rfl

theorem enter_of_le {depth : Nat} (h : depth ≤ nestingLimit) (window : List Token) :
    enter depth window = .ok ⟨depth, window, 0, []⟩ := if_neg (Nat.not_lt.mpr h)

theorem enter_of_lt {depth : Nat} (h : nestingLimit < depth) (window : List Token) :
    enter depth window = .error (.tooDeep nestingLimit) := if_pos h

section

variable {r : Reader} {t : Token}

theorem step_error {e : ReadingError} (h : r.advance t = .error e) : r.step t = .error e := by
  rw [step, h]
  rfl

theorem step_place {x : Operand} {stack : List Operand} {after : Nat}
    (h : r.advance t = .ok (.place x stack after)) : r.step t = r.put x stack after := by
  rw [step, h]
  rfl

section

variable {start stop after : Nat} {frame : Frame} {stack : List Operand}
variable (h : r.advance t = .ok (.enter start stop frame stack after))
include h

theorem step_enter (hd : r.depth + 1 ≤ nestingLimit) :
    r.step t = readWindow (r.depth + 1) [] (r.window.extract start stop) >>= fun x =>
      r.put (frame.fill x) stack after := by
  rw [step, h]
  show (enter _ _ >>= _) = _
  rw [enter_of_le hd]
  rfl

theorem step_enter_tooDeep (hd : nestingLimit < r.depth + 1) :
    r.step t = .error (.tooDeep nestingLimit) := by
  rw [step, h]
  show (enter _ _ >>= _) = _
  rw [enter_of_lt hd]
  rfl

end

/-- Reading is handling one token after the other up to the end of the window. -/
theorem outcome_eq (ht : r.window[r.cursor]? = some t) :
    r.outcome = r.step t >>= outcome := by
  obtain ⟨hl, rfl⟩ := List.getElem?_eq_some_iff.mp ht
  rw [outcome, List.drop_eq_getElem_cons hl]
  cases ha : r.advance r.window[r.cursor] with
  | error e =>
    have hf := r.first_drop r.window[r.cursor]
    rw [ha] at hf
    rw [readWindow_error hf, step_error ha]
    rfl
  | ok m =>
    have hf := first_of_advance ha
    cases m with
    | place x stack after => rw [readWindow_place hf, step_place ha, put_bind]
    | enter start stop frame stack after =>
      by_cases hd : r.depth + 1 ≤ nestingLimit
      · rw [readWindow_enter hf hd, step_enter ha hd, bind_assoc]
        simp only [put_bind]
      · have hd := Nat.not_le.mp hd
        rw [readWindow_enter_tooDeep hf hd, step_enter_tooDeep ha hd]
        rfl

theorem inside_group {m : Advance} {frame : Frame} {stack : List Operand} {start : Nat}
    (h : r.group frame stack start = .ok m) (hs : r.cursor ≤ start) :
    m.Inside r.cursor r.window.length := by
  unfold group at h
  split at h
  · cases h
  · next stop hc =>
    cases h
    have hc := Token.closes_of_closingFrom? hc
    have hstart := hc.after
    have hstop := hc.inside
    simp only [Advance.Inside]
    omega

theorem inside_operator {o : Operator} {m : Advance} (h : r.operator o = .ok m) :
    m.Inside r.cursor r.window.length := by
  unfold operator at h
  split at h
  · cases h
  · next hn =>
    split at h
    · cases h
    · split at h <;> try cases h
      · simp only [Advance.Inside]
        omega
      · exact inside_group h (Nat.le_succ _)

theorem inside_function {f : Function} {m : Advance} (h : r.function f = .ok m) :
    m.Inside r.cursor r.window.length := by
  unfold function at h
  split at h
  · cases h
  · exact inside_group h (Nat.le_succ _)
  · next hk =>
    obtain ⟨hn, -⟩ := List.getElem?_eq_some_iff.mp hk
    split at h
    · cases h
      simp only [Advance.Inside]
      omega
    · cases h

theorem inside_of_advance {m : Advance} (ht : r.window[r.cursor]? = some t)
    (h : r.advance t = .ok m) : m.Inside r.cursor r.window.length := by
  obtain ⟨hl, -⟩ := List.getElem?_eq_some_iff.mp ht
  cases t with
  | number v =>
    cases h
    exact ⟨Nat.lt_succ_self _, hl⟩
  | operator o => exact inside_operator h
  | opening => exact inside_group h (Nat.le_refl _)
  | closing => cases h
  | function f => exact inside_function h
  | bang =>
    simp only [advance] at h
    split at h
    · cases h
    · cases h
      exact ⟨Nat.lt_succ_self _, hl⟩

end

/-- A window that is read next: the contents of a group, or a bare operand. Whether there is room
for one more level plays no part. -/
def Opens (r : Reader) (window : List Token) : Prop :=
  ∃ t start stop frame stack after, r.window[r.cursor]? = some t ∧
    r.advance t = .ok (.enter start stop frame stack after) ∧ window = r.window.extract start stop

theorem Opens.length_lt {r : Reader} {window : List Token} (h : r.Opens window) :
    window.length < r.window.length := by
  obtain ⟨t, start, stop, frame, stack, after, ht, ha, rfl⟩ := h
  have hi := inside_of_advance ht ha
  simp only [Advance.Inside] at hi
  simp only [List.length_take, List.length_drop]
  omega

/-- Windows open windows only so long, even without a limit on the levels. -/
theorem wellFounded_opens :
    WellFounded fun inner outer : List Token => ∃ r : Reader, r.window = outer ∧ r.Opens inner := by
  refine Subrelation.wf ?_ (measure List.length).wf
  rintro inner outer ⟨r, rfl, h⟩
  exact h.length_lt

end Reader

namespace Operand

def Measured (x : Operand) : Prop := x.height = x.tree.height

theorem measured_constant (v : Binary64) : (constant v).Measured := rfl

theorem Measured.binary {l r : Operand} (hl : l.Measured) (hr : r.Measured) (o : Operator) :
    (Operand.binary o l r).Measured := by
  unfold Measured at *
  simp only [Operand.binary, Tree.height, hl, hr]

theorem Measured.unary {x : Operand} (hx : x.Measured) (f : Function) :
    (Operand.unary f x).Measured := by
  unfold Measured at *
  simp only [Operand.unary, Tree.height, hx]

theorem Measured.one_le {x : Operand} (hx : x.Measured) : 1 ≤ x.height := by
  rw [hx]
  exact x.tree.height_pos

theorem measured_of_readWindow {depth : Nat} {ts : List Token} {x : Operand}
    (hd : depth ≤ nestingLimit) (h : readWindow depth [] ts = .ok x) : x.Measured := by
  obtain ⟨t, d, -, rfl, -⟩ := completes_of_readWindow h hd
  rfl

end Operand

def Kept (stack s : List Operand) : Prop := s = stack ∨ ∃ l, stack = l :: s

theorem Kept.mem {stack s : List Operand} (h : Kept stack s) {x : Operand} (hx : x ∈ s) :
    x ∈ stack := by
  rcases h with rfl | ⟨l, rfl⟩
  · exact hx
  · exact List.mem_cons_of_mem l hx

theorem Kept.length_le {stack s : List Operand} (h : Kept stack s) :
    stack.length ≤ s.length + 1 := by
  rcases h with rfl | ⟨l, rfl⟩
  · exact Nat.le_succ _
  · exact Nat.le_refl _

namespace Move

variable {stack s : List Operand} {t : Token} {ts rest : List Token}

theorem Takes.measured_place {x : Operand} (h : Takes stack t ts (.place x s rest))
    (hs : ∀ y ∈ stack, y.Measured) : x.Measured ∧ Kept stack s := by
  cases h with
  | number v => exact ⟨Operand.measured_constant v, .inl rfl⟩
  | bang l => exact ⟨(hs l List.mem_cons_self).unary _, .inr ⟨l, rfl⟩⟩
  | operate o l v =>
    exact ⟨(hs l List.mem_cons_self).binary (Operand.measured_constant v) o, .inr ⟨l, rfl⟩⟩

theorem Takes.measured_enter {window : List Token} {frame : Frame} {z : Operand}
    (h : Takes stack t ts (.enter window frame s rest)) (hs : ∀ y ∈ stack, y.Measured)
    (hz : z.Measured) : (frame.fill z).Measured ∧ Kept stack s := by
  cases h with
  | group => exact ⟨hz, .inl rfl⟩
  | call f | bare => exact ⟨hz.unary _, .inl rfl⟩
  | operateGroup o l => exact ⟨(hs l List.mem_cons_self).binary hz o, .inr ⟨l, rfl⟩⟩

end Move

namespace Reader

def Leads (a b : Reader) : Prop := ∃ t, a.window[a.cursor]? = some t ∧ a.step t = .ok b

/-- What holds whenever the reader looks at its next token. -/
structure Sound (r : Reader) : Prop where
  depth_le : r.depth ≤ nestingLimit
  cursor_le : r.cursor ≤ r.window.length
  heights : ∀ x ∈ r.stack, x.height = x.tree.height ∧ 1 ≤ x.height ∧ x.height ≤ heightLimit
  occupied : 0 < r.cursor → 1 ≤ r.stack.length

theorem enter_eq_ok {depth : Nat} {window : List Token} {r : Reader}
    (h : enter depth window = .ok r) : r = ⟨depth, window, 0, []⟩ ∧ depth ≤ nestingLimit := by
  by_cases hd : nestingLimit < depth
  · rw [enter_of_lt hd] at h
    cases h
  · rw [enter_of_le (Nat.not_lt.mp hd)] at h
    cases h
    exact ⟨rfl, Nat.not_lt.mp hd⟩

theorem sound_of_enter {depth : Nat} {window : List Token} {r : Reader}
    (h : enter depth window = .ok r) : r.Sound := by
  obtain ⟨rfl, hd⟩ := enter_eq_ok h
  exact ⟨hd, Nat.zero_le _, by simp, by simp⟩

theorem put_eq_ok {r b : Reader} {x : Operand} {stack : List Operand} {after : Nat}
    (h : r.put x stack after = .ok b) :
    b = ⟨r.depth, r.window, after, x :: stack⟩ ∧ x.height ≤ heightLimit := by
  obtain ⟨s, hp, h⟩ := bind_eq_ok h
  obtain ⟨rfl, hx⟩ := Operand.push_eq_ok hp
  cases h
  exact ⟨rfl, hx⟩

theorem Leads.exists_eq {a b : Reader} (h : Leads a b) (ha : a.Sound) :
    ∃ x stack after, b = ⟨a.depth, a.window, after, x :: stack⟩ ∧ a.cursor < after ∧
      after ≤ a.window.length ∧ x.Measured ∧ x.height ≤ heightLimit ∧ Kept a.stack stack := by
  obtain ⟨t, ht, h⟩ := h
  have hs : ∀ y ∈ a.stack, y.Measured := fun y hy => (ha.heights y hy).1
  cases hm : a.advance t with
  | error e =>
    rw [step_error hm] at h
    cases h
  | ok m =>
    have hi := inside_of_advance ht hm
    have htakes := Move.takes_of_first (first_of_advance hm)
    cases m with
    | place x stack after =>
      rw [step_place hm] at h
      obtain ⟨rfl, hx⟩ := put_eq_ok h
      obtain ⟨hmx, hk⟩ := htakes.measured_place hs
      exact ⟨x, stack, after, rfl, hi.1, hi.2, hmx, hx, hk⟩
    | enter start stop frame stack after =>
      by_cases hd : a.depth + 1 ≤ nestingLimit
      · rw [step_enter hm hd] at h
        obtain ⟨z, hz, h⟩ := bind_eq_ok h
        obtain ⟨rfl, hx⟩ := put_eq_ok h
        obtain ⟨hmx, hk⟩ := htakes.measured_enter hs (Operand.measured_of_readWindow hd hz)
        simp only [Advance.Inside] at hi
        exact ⟨frame.fill z, stack, after, rfl, by omega, hi.2.2.2, hmx, hx, hk⟩
      · rw [step_enter_tooDeep hm (Nat.not_le.mp hd)] at h
        cases h

theorem Leads.sound {a b : Reader} (h : Leads a b) (ha : a.Sound) : b.Sound := by
  obtain ⟨x, stack, after, rfl, -, hle, hm, hx, hk⟩ := h.exists_eq ha
  refine ⟨ha.depth_le, hle, ?_, fun _ => Nat.le_add_left 1 _⟩
  intro y hy
  rcases List.mem_cons.mp hy with rfl | hy
  · exact ⟨hm, hm.one_le, hx⟩
  · exact ha.heights y (hk.mem hy)

theorem Leads.progress {a b : Reader} (h : Leads a b) (ha : a.Sound) :
    a.cursor < b.cursor ∧ a.stack.length ≤ b.stack.length ∧ 1 ≤ b.stack.length := by
  obtain ⟨x, stack, after, rfl, hlt, -, -, -, hk⟩ := h.exists_eq ha
  exact ⟨hlt, hk.length_le, Nat.le_add_left 1 _⟩

theorem Leads.same_window {a b : Reader} (h : Leads a b) (ha : a.Sound) :
    b.depth = a.depth ∧ b.window = a.window := by
  obtain ⟨x, stack, after, rfl, -⟩ := h.exists_eq ha
  exact ⟨rfl, rfl⟩

theorem Leads.outcome_eq {a b : Reader} (h : Leads a b) : a.outcome = b.outcome := by
  obtain ⟨t, ht, h⟩ := h
  rw [Reader.outcome_eq ht, h]
  rfl

/-- Two operands never become one again. -/
theorem outcome_ne_ok {r : Reader} (hd : r.depth ≤ nestingLimit) (h : 2 ≤ r.stack.length)
    (x : Operand) : r.outcome ≠ .ok x := by
  intro hx
  obtain ⟨depth, window, cursor, stack⟩ := r
  have hc := completes_of_readWindow hx hd
  cases stack with
  | nil => simp at h
  | cons y stack =>
    cases stack with
    | nil => simp at h
    | cons z stack => exact hc

structure Reaches (depth : Nat) (window : List Token) (r : Reader) : Prop where
  sound : r.Sound
  depth_eq : r.depth = depth
  window_eq : r.window = window
  outcome_eq : readWindow depth [] window = r.outcome

theorem reaches_of_leads {depth : Nat} {window : List Token} {a b : Reader}
    (ha : enter depth window = .ok a) (h : Relation.ReflTransGen Leads a b) :
    Reaches depth window b := by
  induction h with
  | refl =>
    have hs := sound_of_enter ha
    obtain ⟨rfl, -⟩ := enter_eq_ok ha
    exact ⟨hs, rfl, rfl, rfl⟩
  | tail _ hbc ih =>
    obtain ⟨hd, hw⟩ := hbc.same_window ih.sound
    exact ⟨hbc.sound ih.sound, hd.trans ih.depth_eq, hw.trans ih.window_eq,
      ih.outcome_eq.trans hbc.outcome_eq⟩

/-- Whenever a reader looks at its next token, the cursor is inside the window, the level within its
limit, and every operand as tall as its tree and no taller than allowed. A token that is handled
moves the cursor on and leaves no fewer operands, and with two of them the window cannot be read.
The windows that are entered are shorter, so that they come to an end on any level. -/
theorem invariant_of_leads {depth : Nat} {window : List Token} {a b : Reader}
    (ha : enter depth window = .ok a) (h : Relation.ReflTransGen Leads a b) :
    readWindow depth [] window = b.outcome ∧
      b.cursor ≤ window.length ∧ b.depth = depth ∧ depth ≤ 128 ∧
      (∀ x ∈ b.stack, x.height = x.tree.height ∧ 1 ≤ x.height ∧ x.height ≤ 512) ∧
      (0 < b.cursor → 1 ≤ b.stack.length) ∧
      (∀ c, Leads b c → b.cursor < c.cursor ∧ b.stack.length ≤ c.stack.length) ∧
      (2 ≤ b.stack.length → ∀ x, readWindow depth [] window ≠ .ok x) ∧
      (∀ inner, b.Opens inner → inner.length < window.length) ∧
      WellFounded fun inner outer : List Token =>
        ∃ r : Reader, r.window = outer ∧ r.Opens inner := by
  obtain ⟨hs, hd, rfl, ho⟩ := reaches_of_leads ha h
  refine ⟨ho, hs.cursor_le, hd, hd ▸ hs.depth_le, hs.heights, hs.occupied, ?_, ?_,
    fun inner => Opens.length_lt, wellFounded_opens⟩
  · intro c hc
    have hp := hc.progress hs
    exact ⟨hp.1, hp.2.1⟩
  · intro hl x
    rw [ho]
    exact outcome_ne_ok hs.depth_le hl x

theorem invariant_of_leads_beside : ∃ a b : Reader,
    enter 127 [.number .zero, .operator .plus, .opening, .number .zero, .closing, .number .zero] =
      .ok a ∧
    Relation.ReflTransGen Leads a b ∧ b.cursor = 6 ∧ 2 ≤ b.stack.length ∧
    ∀ x, readWindow 127 []
      [.number .zero, .operator .plus, .opening, .number .zero, .closing, .number .zero] ≠
        .ok x := by
  let window : List Token :=
    [.number .zero, .operator .plus, .opening, .number .zero, .closing, .number .zero]
  let zero := Operand.constant .zero
  let sum := Operand.binary .plus zero zero
  have ha : enter 127 window = .ok ⟨127, window, 0, []⟩ := rfl
  have h₁ : Leads ⟨127, window, 0, []⟩ ⟨127, window, 1, [zero]⟩ :=
    ⟨.number .zero, rfl, by decide +kernel⟩
  have h₂ : Leads ⟨127, window, 1, [zero]⟩ ⟨127, window, 5, [sum]⟩ :=
    ⟨.operator .plus, rfl, by decide +kernel⟩
  have h₃ : Leads ⟨127, window, 5, [sum]⟩ ⟨127, window, 6, [zero, sum]⟩ :=
    ⟨.number .zero, rfl, by decide +kernel⟩
  have h := ((Relation.ReflTransGen.single h₁).tail h₂).tail h₃
  obtain ⟨-, -, -, -, -, -, -, htwo, -⟩ := invariant_of_leads ha h
  exact ⟨_, _, ha, h, rfl, Nat.le_refl 2, htwo (Nat.le_refl 2)⟩

end Reader
end Reckoner
