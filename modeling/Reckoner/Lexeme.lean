import Reckoner.Error

/-!
Lexemes: tokens together with the bytes they were read from. A text is cut from the left, each
time taking as much as makes one lexeme. Then signs are settled.
-/
set_option autoImplicit false

namespace Reckoner

structure Lexeme where
  token : Token
  start : Nat
  stop : Nat
  deriving DecidableEq

namespace Lexeme

def literal (run : Text) (position : Nat) : Except LexicalError Binary64 :=
  match Decimal.ofNumeral? run with
  | none => .error (.malformedNumber run position)
  | some d =>
    match d.magnitude? with
    | none => .error (.literalTooLarge run position)
    | some m => .ok (.finite false m)

def scan (position : Nat) : Text → Except LexicalError (List Lexeme)
  | [] => .ok []
  | c :: cs =>
    if isBlank c then scan (position + c.utf8Size) cs
    else if Decimal.isNumeralChar c then do
      let run := c :: cs.takeWhile Decimal.isNumeralChar
      let value ← literal run position
      let stop := position + run.length
      let rest ← scan stop (cs.dropWhile Decimal.isNumeralChar)
      return ⟨.number value, position, stop⟩ :: rest
    else match Token.ofSymbol? c with
      | some t => do
        let rest ← scan (position + 1) cs
        return ⟨t, position, position + 1⟩ :: rest
      | none =>
        match Function.leading? (c :: cs) with
        | some f => do
          let stop := position + f.text.length
          let rest ← scan stop ((c :: cs).drop f.text.length)
          return ⟨.function f, position, stop⟩ :: rest
        | none => .error (.unknownCharacter c position)
termination_by t => t.length
decreasing_by
  · simp
  · have := (List.dropWhile_sublist (l := cs) Decimal.isNumeralChar).length_le
    simp; omega
  · simp
  · have := f.text_length_pos
    simp only [List.length_drop, List.length_cons]; omega

end Lexeme

namespace Token

/-- Whether an operand must follow this token, the start of a text counting as none. -/
def awaitsOperand : Option Token → Bool
  | none | some (.operator _) | some .opening => true
  | _ => false

/-- Settles signs, and refuses a function with a bare operand in the last bytes of the text.
`previous` is the last token settled so far. -/
def settle (size : Nat) (previous : Option Token) : List Lexeme → Except LexicalError (List Token)
  | [] => .ok []
  | ⟨.operator .minus, _, stop⟩ :: ⟨.number v, next, finish⟩ :: rest =>
    if awaitsOperand previous && next == stop then do
      let ts ← settle size (some (.number v.neg)) rest
      return .number v.neg :: ts
    else do
      let ts ← settle size (some (.operator .minus)) (⟨.number v, next, finish⟩ :: rest)
      return .operator .minus :: ts
  | ⟨.function f, start, stop⟩ :: rest =>
    if f.takesBare && stop == size then
      .error (.unknownCharacter (f.text.headD ' ') start)
    else do
      let ts ← settle size (some (.function f)) rest
      return .function f :: ts
  | l :: rest => do
    let ts ← settle size (some l.token) rest
    return l.token :: ts
termination_by ls => ls.length

def ofText (t : Text) : Except LexicalError (List Token) := do
  let ls ← Lexeme.scan 0 t
  settle t.bytes none ls

def listing (ts : List Token) : Text := Text.join [' '] (ts.map text)

end Token
end Reckoner
