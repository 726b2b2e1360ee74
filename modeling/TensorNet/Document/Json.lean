import TensorNet.Document.Digits

/-!
# JSON documents

A document is kept as it is written: numbers and strings by their characters, objects as lists of
members. What a number or a string means is decided by whoever reads it. A document is printed
without any blanks.
-/

namespace TensorNet

/-- A JSON document. -/
inductive Json
  | null
  | bool (value : Bool)
  /-- A number, by its characters. -/
  | number (written : List Char)
  /-- A string, by the characters between the quotes. -/
  | string (written : List Char)
  | array (items : List Json)
  /-- An object, with its members in the order in which they are written. -/
  | object (members : List (List Char × Json))
deriving Inhabited

namespace Json

/-! ### Printing -/

mutual

/-- The characters of a document. -/
def print : Json → List Char
  | null => ['n', 'u', 'l', 'l']
  | bool true => ['t', 'r', 'u', 'e']
  | bool false => ['f', 'a', 'l', 's', 'e']
  | number cs => cs
  | string cs => '"' :: cs ++ ['"']
  | array xs => '[' :: printItems xs ++ [']']
  | object ms => '\x7b' :: printMembers ms ++ ['\x7d']

/-- Items with a comma between two of them. -/
def printItems : List Json → List Char
  | [] => []
  | [x] => x.print
  | x :: y :: rest => x.print ++ ',' :: printItems (y :: rest)

/-- Members with a comma between two of them. -/
def printMembers : List (List Char × Json) → List Char
  | [] => []
  | [(k, x)] => '"' :: k ++ '"' :: ':' :: x.print
  | (k, x) :: m :: rest => '"' :: k ++ '"' :: ':' :: x.print ++ ',' :: printMembers (m :: rest)

end

/-- A document as a text. -/
def text (j : Json) : String := String.ofList j.print

end Json

end TensorNet
