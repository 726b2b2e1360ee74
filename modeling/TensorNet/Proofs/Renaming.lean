import Mathlib.Data.List.Basic
import Mathlib.Data.List.GetD
import TensorNet.Proofs.Outcome

/-!
# Other names for the labels

A renaming is an injective function on labels; it may turn integers into names and names into
integers. Positions in a list of labels stay what they are under a renaming, and so does every test
that only asks whether two labels are equal.

Two computations agree under a renaming (`Agree`) if both succeed, with results that are related in
some given way, or both fail, by the same error with the labels in it renamed. Composed
computations agree as their parts do. Most errors do not name a label at all (`Unlabelled`), and a
computation that fails by no others agrees with itself.
-/

namespace TensorNet

/-! ### Lists of renamed labels -/

section

variable {α γ : Type} {f : α → γ}

theorem idxOf?_map [DecidableEq α] [DecidableEq γ] (hf : f.Injective) (a : α) (l : List α) :
    (l.map f).idxOf? (f a) = l.idxOf? a := by
  induction l with
  | nil => rfl
  | cons b l ih =>
    rw [List.map_cons, List.idxOf?_cons, List.idxOf?_cons, hf.beq_eq, ih]

theorem contains_map [DecidableEq α] [DecidableEq γ] (hf : f.Injective) (a : α) (l : List α) :
    (l.map f).contains (f a) = l.contains a := by
  rw [Bool.eq_iff_iff, List.contains_iff_mem, List.contains_iff_mem]
  exact List.mem_map_of_injective hf

theorem getD_map_of_lt {l : List α} {k : Nat} (h : k < l.length) (a : α) (c : γ) :
    (l.map f).getD k c = f (l.getD k a) := by
  simp only [List.getD_eq_getElem?_getD, List.getElem?_map, List.getElem?_eq_getElem h,
    Option.map_some, Option.getD_some]

end

/-! ### Errors -/

/-- The fault of an order, with the label in it renamed. -/
def OrderFault.rename (f : Label → Label) : OrderFault → OrderFault
  | unknown l => .unknown (f l)
  | free l => .free (f l)
  | repeated l => .repeated (f l)
  | missing l => .missing (f l)
  | unsigned => .unsigned
  | unsolved => .unsolved

namespace Error

/-- The error with the label in it renamed. -/
def rename (f : Label → Label) : Error → Error
  | malformed l n fault => .malformed (f l) n fault
  | dimensionMismatch l expected got => .dimensionMismatch (f l) expected got
  | invalidOrder fault => .invalidOrder (fault.rename f)
  | e => e

/-- The error does not name a label. -/
def Unlabelled (e : Error) : Prop := ∀ f, e.rename f = e

end Error

/-! ### Agreement -/

/-- **Two computations agree under a renaming**: both succeed, with related results, or both fail,
and the second reports what the first does, of the renamed label. -/
inductive Agree (f : Label → Label) {α γ : Type} (R : α → γ → Prop) :
    Except Error α → Except Error γ → Prop
  | ok {a : α} {c : γ} (h : R a c) : Agree f R (.ok a) (.ok c)
  | error (e : Error) : Agree f R (.error e) (.error (e.rename f))

namespace Agree

variable {f : Label → Label} {α γ ι κ : Type} {R : α → γ → Prop} {S : ι → κ → Prop}

/-- An error that does not name a label is reported as it is. -/
theorem unlabelled {e : Error} (h : e.Unlabelled) : Agree f R (.error e) (.error e) := by
  have he : Agree f R (.error e) (.error (e.rename f)) := .error e
  rwa [h f] at he

theorem same {x : Except Error α} (h : FailsWith Error.Unlabelled x) : Agree f Eq x x := by
  cases x with
  | ok a => exact .ok rfl
  | error e => exact unlabelled (h e rfl)

theorem bind {x : Except Error α} {y : Except Error γ} {g : α → Except Error ι}
    {h : γ → Except Error κ} (hxy : Agree f R x y) (hgh : ∀ a c, R a c → Agree f S (g a) (h c)) :
    Agree f S (x >>= g) (y >>= h) := by
  cases hxy with
  | ok hac => exact hgh _ _ hac
  | error e => exact .error e

/-- Folds agree if each of their steps does. -/
theorem foldlM {g : α → ι → Except Error α} {h : γ → ι → Except Error γ} {l : List ι}
    (step : ∀ a c, ∀ i ∈ l, R a c → Agree f R (g a i) (h c i)) {a : α} {c : γ} (hac : R a c) :
    Agree f R (l.foldlM g a) (l.foldlM h c) := by
  induction l generalizing a c with
  | nil => exact .ok hac
  | cons i l ih =>
    rw [List.foldlM_cons, List.foldlM_cons]
    exact (step a c i List.mem_cons_self hac).bind fun a' c' h' =>
      ih (fun a c j hj => step a c j (List.mem_cons_of_mem _ hj)) h'

/-- Where the first computation succeeds the second does. -/
theorem exists_ok {x : Except Error α} {y : Except Error γ} (h : Agree f R x y) {a : α}
    (hx : x = .ok a) : ∃ c, y = .ok c ∧ R a c := by
  cases h with
  | ok hac =>
    cases hx
    exact ⟨_, rfl, hac⟩
  | error e => cases hx

end Agree

end TensorNet
