import TensorNet.Document.Escape
import TensorNet.Document.Json

/-!
# Reading documents

The grammar of JSON, with spaces, tabs and line ends between tokens. A reader takes the characters
of its part off the front and returns the rest. Every nested value is read with less fuel than the
one around it; twice the number of characters is always enough.
-/

namespace TensorNet.Json

/-! ### Tokens -/

/-- The characters that may stand between tokens. -/
def isBlank (c : Char) : Bool := c == ' ' || c == '\n' || c == '\t' || c == '\r'

/-- Drops blanks from the front. -/
def skipBlank (s : List Char) : List Char := s.dropWhile isBlank

/-- Takes a word off the front. -/
def takeWord : List Char → List Char → Option (List Char)
  | [], s => some s
  | _ :: _, [] => none
  | c :: cs, d :: s => if c = d then takeWord cs s else none

/-- Takes digits off the front, of which there must be one. -/
def takeDigits (s : List Char) : Option (List Char × List Char) :=
  match s.takeWhile Char.isDigit with
  | [] => none
  | ds => some (ds, s.dropWhile Char.isDigit)

/-- Takes the digits of a whole number: a zero, or digits that do not begin with one. -/
def takeWhole : List Char → Option (List Char × List Char)
  | '0' :: s => some (['0'], s)
  | s => takeDigits s

/-- Takes the part after a point, if there is one. -/
def takeFraction : List Char → Option (List Char × List Char)
  | '.' :: s => (takeDigits s).map fun r => ('.' :: r.1, r.2)
  | s => some ([], s)

/-- Takes the sign of an exponent, if there is one. -/
def takeSign : List Char → List Char × List Char
  | '+' :: s => (['+'], s)
  | '-' :: s => (['-'], s)
  | s => ([], s)

/-- Takes the digits of an exponent after its mark. -/
def takeExponentDigits (mark : Char) (s : List Char) : Option (List Char × List Char) :=
  (takeDigits (takeSign s).2).map fun r => (mark :: (takeSign s).1 ++ r.1, r.2)

/-- Takes an exponent, if there is one. -/
def takeExponent : List Char → Option (List Char × List Char)
  | 'e' :: s => takeExponentDigits 'e' s
  | 'E' :: s => takeExponentDigits 'E' s
  | s => some ([], s)

/-- Takes a minus sign, if there is one. -/
def takeMinus : List Char → List Char × List Char
  | '-' :: s => (['-'], s)
  | s => ([], s)

/-- Takes a number. -/
def takeNumber (s : List Char) : Option (List Char × List Char) := do
  let (sign, s) := takeMinus s
  let (whole, s) ← takeWhole s
  let (fraction, s) ← takeFraction s
  let (exponent, s) ← takeExponent s
  return (sign ++ whole ++ fraction ++ exponent, s)

/-- Takes the rest of a string, up to the closing quote. Control characters may not stand in it,
and every backslash must begin an escape. -/
def takeString : List Char → Option (List Char × List Char)
  | [] => none
  | '"' :: s => some ([], s)
  | '\\' :: 'u' :: a :: b :: c :: d :: s =>
    match Escape.unit? a b c d with
    | some _ => (takeString s).map fun r => ('\\' :: 'u' :: a :: b :: c :: d :: r.1, r.2)
    | none => none
  | '\\' :: c :: s =>
    match Escape.simpleEscape? c with
    | some _ => (takeString s).map fun r => ('\\' :: c :: r.1, r.2)
    | none => none
  | c :: s =>
    if c.toNat < 32 ∨ c = '\\' then none else (takeString s).map fun r => (c :: r.1, r.2)

/-! ### Values -/

mutual

/-- Reads a value. -/
def readValue : Nat → List Char → Option (Json × List Char)
  | 0, _ => none
  | fuel + 1, s =>
    match skipBlank s with
    | '[' :: s =>
      match skipBlank s with
      | ']' :: s => some (array [], s)
      | _ => (readItems fuel s).map fun r => (array r.1, r.2)
    | '\x7b' :: s =>
      match skipBlank s with
      | '\x7d' :: s => some (object [], s)
      | _ => (readMembers fuel s).map fun r => (object r.1, r.2)
    | '"' :: s => (takeString s).map fun r => (string r.1, r.2)
    | 'n' :: s => (takeWord ['u', 'l', 'l'] s).map (null, ·)
    | 't' :: s => (takeWord ['r', 'u', 'e'] s).map (bool true, ·)
    | 'f' :: s => (takeWord ['a', 'l', 's', 'e'] s).map (bool false, ·)
    | s => (takeNumber s).map fun r => (number r.1, r.2)

/-- Reads items up to the end of an array, at least one. -/
def readItems : Nat → List Char → Option (List Json × List Char)
  | 0, _ => none
  | fuel + 1, s =>
    match readValue fuel s with
    | none => none
    | some (x, s) =>
      match skipBlank s with
      | ',' :: s => (readItems fuel s).map fun r => (x :: r.1, r.2)
      | ']' :: s => some ([x], s)
      | _ => none

/-- Reads members up to the end of an object, at least one. -/
def readMembers : Nat → List Char → Option (List (List Char × Json) × List Char)
  | 0, _ => none
  | fuel + 1, s =>
    match skipBlank s with
    | '"' :: s =>
      match takeString s with
      | none => none
      | some (k, s) =>
        match skipBlank s with
        | ':' :: s =>
          match readValue fuel s with
          | none => none
          | some (x, s) =>
            match skipBlank s with
            | ',' :: s => (readMembers fuel s).map fun r => ((k, x) :: r.1, r.2)
            | '\x7d' :: s => some ([(k, x)], s)
            | _ => none
        | _ => none
    | _ => none

end

/-- Reads a whole text. Nothing but blanks may follow the value. -/
def parse? (s : List Char) : Option Json :=
  match readValue (2 * s.length + 2) s with
  | some (j, rest) => if (skipBlank rest).isEmpty then some j else none
  | none => none

end TensorNet.Json
