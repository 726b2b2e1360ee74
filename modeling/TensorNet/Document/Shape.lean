import TensorNet.Document.Reader

/-!
# Shapes of documents

How values of common kinds are laid out.

* A case of several is its name, or an object with that name as its only key and the content of the
  case as the member. A case without content may also be written as an object whose member is
  `null`.
* A record is an object of its fields, in any order, or an array of all of them in order. Unknown
  members are passed over; a field may not be given twice.
* Numbers must be whole, without sign or exponent, and in range.
-/

namespace TensorNet.Json

/-! ### Texts and numbers -/

/-- The document of a text. -/
def ofText (s : String) : Json := .string (Escape.encode s.toList)

/-- The text of written characters. -/
def decoded? (cs : List Char) : Option String := (Escape.decode cs).map String.ofList

/-- A text. -/
def text? : Json → Option String
  | .string cs => decoded? cs
  | _ => none

/-- The document of a natural number. -/
def ofNat (n : Nat) : Json := .number (Digits.ofNat n)

/-- A natural number of at most `max`. -/
def nat? (max : Nat) : Json → Option Nat
  | .number cs => Digits.read? max cs
  | _ => none

/-- The largest number of 64 bits. -/
def maxWord : Nat := 0xFFFFFFFFFFFFFFFF

/-- A position, an extent or a number of bytes. -/
def size? (j : Json) : Option Nat := j.nat? maxWord

/-- The document of an integer. -/
def ofInt (n : Int) : Json :=
  .number (if n < 0 then '-' :: Digits.ofNat n.natAbs else Digits.ofNat n.natAbs)

/-- The number of integers of 64 bits below zero; there is one less above. -/
def halfWord : Nat := 0x8000000000000000

/-- An integer of 64 bits. Zero has no sign. -/
def int64? : Json → Option Int64
  | .number ('-' :: cs) =>
    match Digits.read? halfWord cs with
    | some n => if n = 0 then none else some (.ofInt (-(n : Int)))
    | none => none
  | .number cs => (Digits.read? (halfWord - 1) cs).map fun n => .ofInt n
  | _ => none

/-- A truth value. -/
def bool? : Json → Option Bool
  | .bool b => some b
  | _ => none

/-! ### Lists and pairs -/

/-- The items of an array, each read in the same way. -/
def list? {α : Type} (read : Json → Option α) : Json → Option (List α)
  | .array xs => xs.mapM read
  | _ => none

/-- The document of a list. -/
def ofList {α : Type} (write : α → Json) (xs : List α) : Json := .array (xs.map write)

/-- An array of two sizes. -/
def sizePair? : Json → Option (Nat × Nat)
  | .array [x, y] => do
    return (← x.size?, ← y.size?)
  | _ => none

/-- The document of a pair of sizes. -/
def ofSizePair (p : Nat × Nat) : Json := .array [ofNat p.1, ofNat p.2]

/-- A value that may be absent. -/
def option? {α : Type} (read : Json → Option α) : Json → Option (Option α)
  | .null => some none
  | j => (read j).map some

/-- The document of a value that may be absent. -/
def ofOption {α : Type} (write : α → Json) : Option α → Json
  | none => .null
  | some x => write x

/-! ### Cases -/

/-- The document of a case without content. -/
def ofCase (name : String) : Json := ofText name

/-- The document of a case with content. -/
def ofCaseOf (name : String) (content : Json) : Json :=
  .object [(Escape.encode name.toList, content)]

/-- The name of a case and its content, if the document has the form of a case. -/
def case? : Json → Option (String × Option Json)
  | .string cs => (decoded? cs).map (·, none)
  | .object [(k, x)] => (decoded? k).map (·, some x)
  | _ => none

/-- A case must have no content, or `null`. -/
def noContent : Option Json → Option Unit
  | none => some ()
  | some .null => some ()
  | some _ => none

/-- One of several cases without content. -/
def plainCase? {α : Type} (cases : List (String × α)) (j : Json) : Option α := do
  let (name, content) ← j.case?
  let x ← cases.lookup name
  noContent content
  return x

/-! ### Records -/

/-- The document of a record. -/
def ofRecord (fields : List (String × Json)) : Json :=
  .object (fields.map fun f => (Escape.encode f.1.toList, f.2))

/-- The values given for a field. -/
def valuesOf (name : String) (members : List (String × Json)) : List Json :=
  (members.filter fun m => m.1 == name).map (·.2)

/-- The value of a field, absent if it is not given. -/
def single? : List Json → Option (Option Json)
  | [] => some none
  | [x] => some (some x)
  | _ => none

/-- The fields of a record in order; those of an object may be absent. -/
def record? (names : List String) : Json → Option (List (Option Json))
  | .object ms => do
    let members ← ms.mapM fun m => (decoded? m.1).map (·, m.2)
    names.mapM fun name => single? (valuesOf name members)
  | .array xs => if xs.length = names.length then some (xs.map some) else none
  | _ => none

/-- A field that must be given. -/
def field? {α : Type} (read : Json → Option α) (x : Option Json) : Option α := x.bind read

/-- A field that may be absent or `null`. -/
def optionField? {α : Type} (read : Json → Option α) : Option Json → Option (Option α)
  | none => some none
  | some j => j.option? read

end TensorNet.Json
