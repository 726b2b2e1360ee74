/-!
# Text inside quotes

Quotes, backslashes and control characters of a text are escaped; all else is written as it is.
When a text is read, an escape by number may stand for half of a character outside the basic
plane; the two halves must then follow each other.
-/

namespace TensorNet.Escape

/-! ### Writing -/

/-- A hexadecimal digit in lower case. -/
def hexDigit (n : Nat) : Char := if n < 10 then Char.ofNat (48 + n) else Char.ofNat (87 + n)

/-- The characters that a character is written with. -/
def encodeChar (c : Char) : List Char :=
  if c = '"' then ['\\', '"']
  else if c = '\\' then ['\\', '\\']
  else if c.toNat = 8 then ['\\', 'b']
  else if c.toNat = 12 then ['\\', 'f']
  else if c = '\n' then ['\\', 'n']
  else if c = '\r' then ['\\', 'r']
  else if c = '\t' then ['\\', 't']
  else if c.toNat < 32 then
    ['\\', 'u', '0', '0', hexDigit (c.toNat / 16), hexDigit (c.toNat % 16)]
  else [c]

/-- The characters that a text is written with. -/
def encode (cs : List Char) : List Char := cs.flatMap encodeChar

/-! ### Reading -/

/-- The value of a hexadecimal digit. -/
def hexValue? (c : Char) : Option Nat :=
  if c.isDigit then some (c.toNat - 48)
  else if 'a' ≤ c ∧ c ≤ 'f' then some (c.toNat - 87)
  else if 'A' ≤ c ∧ c ≤ 'F' then some (c.toNat - 55)
  else none

/-- The value of four hexadecimal digits. -/
def unit? (a b c d : Char) : Option Nat := do
  return (((← hexValue? a) * 16 + (← hexValue? b)) * 16 + (← hexValue? c)) * 16 + (← hexValue? d)

/-- The character after a backslash stands for itself or for a control character. -/
def simpleEscape? (c : Char) : Option Char :=
  if c = '"' ∨ c = '\\' ∨ c = '/' then some c
  else if c = 'b' then some (Char.ofNat 8)
  else if c = 'f' then some (Char.ofNat 12)
  else if c = 'n' then some '\n'
  else if c = 'r' then some '\r'
  else if c = 't' then some '\t'
  else none

/-- The first half of a pair. -/
def isHigh (u : Nat) : Bool := decide (0xd800 ≤ u ∧ u < 0xdc00)

/-- The second half of a pair. -/
def isLow (u : Nat) : Bool := decide (0xdc00 ≤ u ∧ u < 0xe000)

/-- The character of a pair of halves. -/
def pairChar (u v : Nat) : Char := Char.ofNat (0x10000 + (u - 0xd800) * 0x400 + (v - 0xdc00))

/-- Reads one escape by number: `first` is the first half of a pair that waits for its second, and
`go` reads on with what waits then. -/
def decodeUnit (go : Option Nat → Option (List Char)) (first : Option Nat) (u : Nat) :
    Option (List Char) :=
  match first with
  | some h => if isLow u then (go none).map (pairChar h u :: ·) else none
  | none =>
    if isHigh u then go (some u)
    else if isLow u then none
    else (go none).map (Char.ofNat u :: ·)

/-- Reads written characters. While the first half of a pair waits, nothing but an escape by number
may follow. -/
def decodeFrom : Option Nat → List Char → Option (List Char)
  | none, [] => some []
  | some _, [] => none
  | first, '\\' :: 'u' :: a :: b :: c :: d :: rest =>
    match unit? a b c d with
    | some u => decodeUnit (fun first => decodeFrom first rest) first u
    | none => none
  | some _, _ :: _ => none
  | none, '\\' :: c :: rest =>
    match simpleEscape? c with
    | some x => (decodeFrom none rest).map (x :: ·)
    | none => none
  | none, c :: rest => (decodeFrom none rest).map (c :: ·)

/-- The text that written characters stand for. A half without its partner stands for nothing. -/
def decode (cs : List Char) : Option (List Char) := decodeFrom none cs

/-! ### Reading back -/

theorem hexValue_hexDigit {n : Nat} (h : n < 16) : hexValue? (hexDigit n) = some n := by
  have : ∀ m : Fin 16, hexValue? (hexDigit m) = some m.val := by decide
  exact this ⟨n, h⟩

theorem unit_hexDigit {n : Nat} (h : n < 32) :
    unit? '0' '0' (hexDigit (n / 16)) (hexDigit (n % 16)) = some n := by
  have : ∀ m : Fin 32,
      unit? '0' '0' (hexDigit (m / 16)) (hexDigit (m % 16)) = some m.val := by decide
  exact this ⟨n, h⟩

theorem decodeFrom_encodeChar (c : Char) (rest : List Char) :
    decodeFrom none (encodeChar c ++ rest) = (decodeFrom none rest).map (c :: ·) := by
  have eq_ofNat : ∀ n, c.toNat = n → c = Char.ofNat n := fun n h => by
    rw [← h, Char.ofNat_toNat]
  unfold encodeChar
  split
  · next h => subst h; rfl
  split
  · next h => subst h; rfl
  split
  · next h => rw [eq_ofNat 8 h]; rfl
  split
  · next h => rw [eq_ofNat 12 h]; rfl
  split
  · next h => subst h; rfl
  split
  · next h => subst h; rfl
  split
  · next h => subst h; rfl
  split
  · next h =>
    have hu : isHigh c.toNat = false := by simp [isHigh]; omega
    have hl : isLow c.toNat = false := by simp [isLow]; omega
    simp only [List.cons_append, List.nil_append, decodeFrom, unit_hexDigit h, decodeUnit, hu, hl,
      Char.ofNat_toNat]
    rfl
  · next h1 h2 _ _ _ _ _ h8 =>
    rw [List.singleton_append, decodeFrom.eq_def]
    split <;> simp_all

/-- A written text is read back as itself. -/
@[simp] theorem decode_encode (cs : List Char) : decode (encode cs) = some cs := by
  unfold decode encode
  induction cs with
  | nil => rfl
  | cons c cs ih => rw [List.flatMap_cons, decodeFrom_encodeChar, ih]; rfl

end TensorNet.Escape
