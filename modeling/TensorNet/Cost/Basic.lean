import TensorNet.Saturating
import TensorNet.Error

/-!
# Costs

What it costs to run over a label, or to carry out a contraction: a number of steps, or a
polynomial in one variable that stands for an unknown large extent. Numbers count as polynomials
of degree zero, so the two combine freely; polynomials in different variables do not combine.

Coefficients stop at `2 ^ 128 - 1` and exponents at `2 ^ 32 - 1`.
-/

namespace TensorNet

/-- The coefficient of a term. -/
abbrev Coefficient := Saturating 0xFFFFFFFFFFFFFFFFFFFFFFFFFFFFFFFF

/-- The exponent of a term. -/
abbrev Exponent := Saturating 0xFFFFFFFF

/-! ### Terms -/

/-- The terms of a polynomial, each exponent once, in ascending order. -/
@[ext] structure Terms where
  toList : List (Exponent × Coefficient)
  ascending : toList.Pairwise fun s t => s.1 < t.1
deriving DecidableEq

namespace Terms

/-- No terms. -/
def empty : Terms := ⟨[], .nil⟩

instance : EmptyCollection Terms := ⟨empty⟩
instance : Inhabited Terms := ⟨empty⟩

/-- Changes the coefficient at an exponent: `f none` where there is no term. -/
def alterList (e : Exponent) (f : Option Coefficient → Coefficient) :
    List (Exponent × Coefficient) → List (Exponent × Coefficient)
  | [] => [(e, f none)]
  | (d, c) :: rest =>
    if e < d then (e, f none) :: (d, c) :: rest
    else if e = d then (d, f (some c)) :: rest
    else (d, c) :: alterList e f rest

theorem fst_mem_alterList {e : Exponent} {f : Option Coefficient → Coefficient}
    {l : List (Exponent × Coefficient)} {t : Exponent × Coefficient} (h : t ∈ alterList e f l) :
    t.1 = e ∨ ∃ c, (t.1, c) ∈ l := by
  induction l with
  | nil => simp only [alterList, List.mem_singleton] at h; exact .inl (by rw [h])
  | cons a rest ih =>
    obtain ⟨d, c⟩ := a
    unfold alterList at h
    split at h
    · rcases List.mem_cons.1 h with rfl | h
      · exact .inl rfl
      · exact .inr ⟨t.2, h⟩
    · split at h
      · next he =>
        rcases List.mem_cons.1 h with rfl | h
        · exact .inl he.symm
        · exact .inr ⟨t.2, List.mem_cons_of_mem _ h⟩
      · rcases List.mem_cons.1 h with rfl | h
        · exact .inr ⟨c, List.mem_cons_self⟩
        · rcases ih h with h | ⟨b, h⟩
          · exact .inl h
          · exact .inr ⟨b, List.mem_cons_of_mem _ h⟩

theorem ascending_alterList (e : Exponent) (f : Option Coefficient → Coefficient)
    {l : List (Exponent × Coefficient)} (h : l.Pairwise fun s t => s.1 < t.1) :
    (alterList e f l).Pairwise fun s t => s.1 < t.1 := by
  induction l with
  | nil => exact List.pairwise_singleton _ _
  | cons a rest ih =>
    obtain ⟨d, c⟩ := a
    obtain ⟨hd, hr⟩ := List.pairwise_cons.1 h
    unfold alterList
    split
    · next hlt =>
      refine List.pairwise_cons.2 ⟨fun t ht => ?_, h⟩
      rcases List.mem_cons.1 ht with rfl | ht
      · exact hlt
      · exact Nat.lt_trans hlt (hd t ht)
    · next hnlt =>
      split
      · exact List.pairwise_cons.2 ⟨hd, hr⟩
      · next hne =>
        refine List.pairwise_cons.2 ⟨fun t ht => ?_, ih hr⟩
        rcases fst_mem_alterList ht with h' | ⟨b, hb⟩
        · rw [h']
          have : e.val ≠ d.val := fun h => hne (Saturating.ext h)
          simp only [Saturating.lt_iff] at hnlt ⊢
          omega
        · exact hd (t.1, b) hb

/-- Changes the coefficient at an exponent. -/
def alter (e : Exponent) (f : Option Coefficient → Coefficient) (t : Terms) : Terms :=
  ⟨alterList e f t.toList, ascending_alterList e f t.ascending⟩

/-- Adds to the coefficient at an exponent. -/
def addAt (t : Terms) (e : Exponent) (c : Coefficient) : Terms := t.alter e fun d => d.getD 0 + c

/-- Replaces the coefficient at an exponent. -/
def setAt (t : Terms) (e : Exponent) (c : Coefficient) : Terms := t.alter e fun _ => c

/-- The sum of the listed terms; exponents may repeat and come in any order. -/
def ofSum (ts : List (Exponent × Coefficient)) : Terms := ts.foldl (fun t x => t.addAt x.1 x.2) ∅

/-- The coefficient of an exponent, zero where there is no term. -/
def coefficient (t : Terms) (e : Exponent) : Coefficient := (t.toList.lookup e).getD 0

/-- The terms from the highest exponent down. -/
def descending (t : Terms) : List (Exponent × Coefficient) := t.toList.reverse

/-- The terms with a coefficient other than zero. -/
def nonzero (t : Terms) : Terms :=
  ⟨t.toList.filter fun x => x.2 != 0, t.ascending.filter _⟩

/-- The highest exponent, zero where there are no terms. -/
def degree (t : Terms) : Exponent :=
  match t.toList.getLast? with
  | some x => x.1
  | none => 0

end Terms

/-- A polynomial in a named variable. -/
structure Poly where
  symbol : String
  terms : Terms
deriving DecidableEq, Inhabited

/-- A cost. -/
inductive Cost
  | integer (value : Coefficient)
  | polynomial (poly : Poly)
deriving DecidableEq, Inhabited

namespace Cost

instance : Zero Cost := ⟨integer 0⟩
instance : One Cost := ⟨integer 1⟩

/-! ### Normal form

Zero terms are dropped, and a polynomial that is left without a term of positive degree is a
number. Documents may hold other polynomials; sums and products are always normal. -/

/-- The cost with the given terms, in normal form. -/
def normal (symbol : String) (terms : Terms) : Cost :=
  let t := terms.nonzero
  if t.toList.all fun x => x.1 == 0 then integer (t.coefficient 0) else polynomial ⟨symbol, t⟩

/-- The polynomial with the listed terms. -/
def ofTerms (symbol : String) (ts : List (Exponent × Coefficient)) : Cost :=
  normal symbol (Terms.ofSum ts)

/-- One term. -/
def power (symbol : String) (c : Coefficient) (e : Exponent) : Cost := ofTerms symbol [(e, c)]

/-- The variable itself. -/
def var (symbol : String) : Cost := power symbol 1 1

/-- A number of steps. -/
def ofNat (n : Nat) : Cost := integer (.ofNat _ n)

/-! ### Parts -/

/-- The variable of a polynomial. -/
def symbol? : Cost → Option String
  | integer _ => none
  | polynomial p => some p.symbol

/-- The degree; numbers have degree zero. -/
def degree : Cost → Exponent
  | integer _ => 0
  | polynomial p => p.terms.degree

/-- The number zero, which a polynomial never counts as. -/
def isZero : Cost → Bool
  | integer c => c == 0
  | polynomial _ => false

/-- The terms from the highest exponent down; zero has none. -/
def descending : Cost → List (Exponent × Coefficient)
  | integer c => if c = 0 then [] else [(0, c)]
  | polynomial p => p.terms.descending

/-! ### Text -/

/-- A term: a coefficient or exponent of one is left out where a variable stands. -/
def termText (symbol : String) (t : Exponent × Coefficient) : String :=
  if t.1 = 0 then toString t.2
  else
    (if t.2 = 1 then "" else toString t.2) ++ symbol ++
      (if t.1 = 1 then "" else "^" ++ toString t.1)

/-- The digits of a number, the terms of a polynomial from the highest down. -/
def text : Cost → String
  | integer c => toString c
  | polynomial p => " + ".intercalate (p.terms.descending.map (termText p.symbol))

instance : ToString Cost := ⟨text⟩

/-! ### Arithmetic -/

/-- The variable that two costs have in common, empty for two numbers. -/
def commonSymbol (a b : Cost) : Except Error String :=
  match a.symbol?, b.symbol? with
  | some s, some t => if s = t then .ok s else .error (.incomparableCost a.text b.text)
  | some s, none => .ok s
  | none, some t => .ok t
  | none, none => .ok ""

/-- The sum. -/
def add : Cost → Cost → Except Error Cost
  | integer m, integer n => .ok (integer (m + n))
  | a, b => do
    let s ← commonSymbol a b
    return normal s (b.descending.foldl (fun t x => t.addAt x.1 x.2) (Terms.ofSum a.descending))

/-- All products of a term of the first list with a term of the second. -/
def termProducts (xs ys : List (Exponent × Coefficient)) : List (Exponent × Coefficient) :=
  xs.flatMap fun x => ys.map fun y => (x.1 + y.1, x.2 * y.2)

/-- The product. -/
def mul : Cost → Cost → Except Error Cost
  | integer m, integer n => .ok (integer (m * n))
  | a, b => do
    let s ← commonSymbol a b
    return normal s (Terms.ofSum (termProducts a.descending b.descending))

/-! ### Order

Costs are ordered by growth: the higher degree is the larger cost, at equal degree the leading
coefficients decide, and then the other terms from the highest down. -/

/-- The lexicographic order of two lists of terms, by exponent and then coefficient. A proper
initial part comes before the whole. -/
def compareTerms : List (Exponent × Coefficient) → List (Exponent × Coefficient) → Ordering
  | [], [] => .eq
  | [], _ :: _ => .lt
  | _ :: _, [] => .gt
  | x :: xs, y :: ys => ((compare x.1 y.1).then (compare x.2 y.2)).then (compareTerms xs ys)

/-- Compares two costs. -/
def cmp : Cost → Cost → Except Error Ordering
  | integer m, integer n => .ok (compare m n)
  | a, b => do
    let _ ← commonSymbol a b
    return compareTerms a.descending b.descending

/-- The first cost is strictly the smaller one. -/
def lt (a b : Cost) : Except Error Bool := do
  return (← cmp a b) == .lt

end Cost

end TensorNet
