/-!
Text is a list of characters. Positions in it are counted in the bytes of its UTF-8 form.
-/
set_option autoImplicit false

namespace Reckoner

abbrev Text := List Char

namespace Text

def bytes : Text → Nat
  | [] => 0
  | c :: t => c.utf8Size + bytes t

@[simp] theorem bytes_nil : bytes [] = 0 := rfl

@[simp] theorem bytes_cons (c : Char) (t : Text) : bytes (c :: t) = c.utf8Size + bytes t := rfl

@[simp] theorem bytes_append (s t : Text) : bytes (s ++ t) = bytes s + bytes t := by
  induction s with
  | nil => simp
  | cons c s ih => rw [List.cons_append, bytes_cons, ih, bytes_cons, Nat.add_assoc]

def ofNat (n : Nat) : Text := Nat.toDigits 10 n

def join (separator : Text) : List Text → Text
  | [] => []
  | [t] => t
  | t :: ts => t ++ separator ++ join separator ts

def split (separator : Char) : Text → List Text
  | [] => [[]]
  | c :: t =>
    if c = separator then [] :: split separator t
    else match split separator t with
      | [] => [[c]]
      | p :: ps => (c :: p) :: ps

theorem split_ne_nil (separator : Char) (t : Text) : split separator t ≠ [] := by
  cases t with
  | nil => simp [split]
  | cons c t => unfold split; split <;> (try split) <;> simp

theorem split_append_separator (separator : Char) (s t : Text) :
    split separator (s ++ separator :: t) = split separator s ++ split separator t := by
  induction s with
  | nil => simp [split]
  | cons c s ih =>
    rw [List.cons_append, split, split, ih]
    split
    · rfl
    · cases h : split separator s with
      | nil => exact absurd h (split_ne_nil separator s)
      | cons p ps => rfl

def lines (t : Text) : List Text := t.split '\n'

def dropEndWhile (p : Char → Bool) (t : Text) : Text := (t.reverse.dropWhile p).reverse

theorem dropEndWhile_append_takeWhile (p : Char → Bool) (t : Text) :
    dropEndWhile p t ++ (t.reverse.takeWhile p).reverse = t := by
  rw [dropEndWhile, ← List.reverse_append, List.takeWhile_append_dropWhile, List.reverse_reverse]

end Text

/-- The ranges of White_Space, ends included. -/
def blankRanges : List (Nat × Nat) :=
  [(0x09, 0x0D), (0x20, 0x20), (0x85, 0x85), (0xA0, 0xA0), (0x1680, 0x1680), (0x2000, 0x200A),
    (0x2028, 0x2029), (0x202F, 0x202F), (0x205F, 0x205F), (0x3000, 0x3000)]

def isBlank (c : Char) : Bool := blankRanges.any fun r => r.1 ≤ c.toNat && c.toNat ≤ r.2

namespace Text

def trimStart (t : Text) : Text := t.dropWhile isBlank

def trimEnd (t : Text) : Text := t.dropEndWhile isBlank

def trim (t : Text) : Text := t.trimStart.trimEnd

def escape (c : Char) : Text :=
  if c = '\t' then ['\\', 't']
  else if c = '\n' then ['\\', 'n']
  else if c = '\r' then ['\\', 'r']
  else if c = '"' || c = '\\' then ['\\', c]
  else if isBlank c && c != ' ' then
    ['\\', 'u', '\x7b'] ++ Nat.toDigits 16 c.toNat ++ ['\x7d']
  else [c]

def quote (t : Text) : Text := '"' :: t.flatMap escape ++ ['"']

end Text
end Reckoner
