/-!
# Sets of label ids

The distinct labels of a network are numbered, and a set of them is kept as 64-bit words: the
number `i` belongs to a set when bit `i % 64` of word `i / 64` is set. The operations on two sets
drop the zero words at the end, so a set has one representation.

Every operation is pinned down by what it does to membership.
-/

namespace TensorNet

/-- A finite set of natural numbers, 64 to a word. -/
structure LabelSet where
  words : List UInt64 := []
deriving DecidableEq, Repr, Inhabited

namespace LabelSet

instance : EmptyCollection LabelSet := ⟨{}⟩

/-! ### Members -/

/-- Bit `k` of a word. -/
def bit (w : UInt64) (k : Nat) : Bool := w.toNat.testBit k

/-- Bit `i` of a list of words, counted through all of them. -/
def bitAt (ws : List UInt64) (i : Nat) : Bool := bit (ws.getD (i / 64) 0) (i % 64)

/-- Membership as a test. -/
def contains (s : LabelSet) (i : Nat) : Bool := bitAt s.words i

instance : Membership Nat LabelSet := ⟨fun s i => s.contains i = true⟩

instance (s : LabelSet) (i : Nat) : Decidable (i ∈ s) :=
  inferInstanceAs (Decidable (s.contains i = true))

/-- The set bits of a word, ascending. -/
def bitsOf (w : UInt64) : List Nat := (List.range 64).filter (bit w)

/-- The members from word number `k` on, ascending. -/
def membersFrom : Nat → List UInt64 → List Nat
  | _, [] => []
  | k, w :: ws => (bitsOf w).map (64 * k + ·) ++ membersFrom (k + 1) ws

/-- The members in increasing order. -/
def toList (s : LabelSet) : List Nat := membersFrom 0 s.words

/-- The number of members: the set bits of all words. -/
def size (s : LabelSet) : Nat := s.words.foldr (fun w n => (bitsOf w).length + n) 0

/-- No word has a set bit. -/
def isEmpty (s : LabelSet) : Bool := s.words.all (· == 0)

/-! ### Insertion -/

/-- The word with one set bit. -/
def unitWord (k : Nat) : UInt64 := UInt64.ofNat (1 <<< k)

/-- Sets bit `k` of word `n`, with as many zero words put before it as it takes. -/
def insertAt (k : Nat) : Nat → List UInt64 → List UInt64
  | 0, [] => [unitWord k]
  | 0, w :: ws => (w ||| unitWord k) :: ws
  | n + 1, [] => 0 :: insertAt k n []
  | n + 1, w :: ws => w :: insertAt k n ws

/-- The set with one more member. -/
def insert (i : Nat) (s : LabelSet) : LabelSet := ⟨insertAt (i % 64) (i / 64) s.words⟩

/-- The set of the listed numbers, which may repeat and come in any order. -/
def ofList (ids : List Nat) : LabelSet := ids.foldl (fun s i => s.insert i) ∅

/-! ### Operations on two sets -/

/-- Applies a bitwise operation word by word; the shorter list counts as filled up with zeros. -/
def zipWords (f : UInt64 → UInt64 → UInt64) : List UInt64 → List UInt64 → List UInt64
  | [], [] => []
  | [], b :: bs => f 0 b :: zipWords f [] bs
  | a :: as, [] => f a 0 :: zipWords f as []
  | a :: as, b :: bs => f a b :: zipWords f as bs

/-- Drops the zero words at the end. -/
def trim : List UInt64 → List UInt64
  | [] => []
  | w :: ws =>
    match trim ws with
    | [] => if w = 0 then [] else [w]
    | v :: vs => w :: v :: vs

/-- A bitwise operation on sets, in canonical form. -/
def combine (f : UInt64 → UInt64 → UInt64) (s t : LabelSet) : LabelSet :=
  ⟨trim (zipWords f s.words t.words)⟩

/-- The members of either set. -/
def union (s t : LabelSet) : LabelSet := combine (· ||| ·) s t

/-- The members of both sets. -/
def inter (s t : LabelSet) : LabelSet := combine (· &&& ·) s t

/-- The members of exactly one of the two sets. -/
def symmDiff (s t : LabelSet) : LabelSet := combine (· ^^^ ·) s t

/-! ### What the operations do to membership -/

theorem mem_iff {s : LabelSet} {i : Nat} : i ∈ s ↔ s.contains i = true := Iff.rfl

@[simp] theorem bit_zero (k : Nat) : bit 0 k = false := Nat.zero_testBit k

theorem bit_unitWord {k : Nat} (hk : k < 64) (j : Nat) : bit (unitWord k) j = decide (k = j) := by
  have h : (unitWord k).toNat = 2 ^ k := by
    rw [unitWord, Nat.one_shiftLeft]
    exact Nat.mod_eq_of_lt (Nat.pow_lt_pow_right (by decide) hk)
  rw [bit, h, Nat.testBit_two_pow]

@[simp] theorem bit_or (v w : UInt64) (k : Nat) : bit (v ||| w) k = (bit v k || bit w k) := by
  rw [bit, UInt64.toNat_or, Nat.testBit_or, bit, bit]

@[simp] theorem bit_and (v w : UInt64) (k : Nat) : bit (v &&& w) k = (bit v k && bit w k) := by
  rw [bit, UInt64.toNat_and, Nat.testBit_and, bit, bit]

@[simp] theorem bit_xor (v w : UInt64) (k : Nat) : bit (v ^^^ w) k = (bit v k ^^ bit w k) := by
  rw [bit, UInt64.toNat_xor, Nat.testBit_xor, bit, bit]

theorem getD_zipWords {f : UInt64 → UInt64 → UInt64} (hf : f 0 0 = 0) (as bs : List UInt64)
    (n : Nat) : (zipWords f as bs).getD n 0 = f (as.getD n 0) (bs.getD n 0) := by
  induction n generalizing as bs with
  | zero => cases as <;> cases bs <;> simp [zipWords, hf]
  | succ n ih => cases as <;> cases bs <;> simp_all [zipWords]

theorem getD_trim (ws : List UInt64) (n : Nat) : (trim ws).getD n 0 = ws.getD n 0 := by
  induction ws generalizing n with
  | nil => rfl
  | cons w ws ih =>
    unfold trim
    split
    · next h =>
      have hz : ∀ m, ws.getD m 0 = 0 := fun m => by rw [← ih m, h]; rfl
      split
      · next hw =>
        cases n with
        | zero => exact hw.symm
        | succ n => exact (hz n).symm
      · cases n with
        | zero => rfl
        | succ n => exact (hz n).symm
    · next v vs h =>
      cases n with
      | zero => rfl
      | succ n =>
        have := ih n
        rw [h] at this
        exact this

theorem contains_combine {f : UInt64 → UInt64 → UInt64} {g : Bool → Bool → Bool}
    (hf : f 0 0 = 0) (hg : ∀ v w k, bit (f v w) k = g (bit v k) (bit w k)) (s t : LabelSet)
    (i : Nat) : (combine f s t).contains i = g (s.contains i) (t.contains i) := by
  simp only [contains, combine, bitAt, getD_trim, getD_zipWords hf, hg]

@[simp] theorem contains_union (s t : LabelSet) (i : Nat) :
    (s.union t).contains i = (s.contains i || t.contains i) :=
  contains_combine rfl bit_or s t i

@[simp] theorem contains_inter (s t : LabelSet) (i : Nat) :
    (s.inter t).contains i = (s.contains i && t.contains i) :=
  contains_combine rfl bit_and s t i

@[simp] theorem contains_symmDiff (s t : LabelSet) (i : Nat) :
    (s.symmDiff t).contains i = (s.contains i ^^ t.contains i) :=
  contains_combine rfl bit_xor s t i

theorem getD_insertAt (k n : Nat) (ws : List UInt64) (m : Nat) :
    (insertAt k n ws).getD m 0 = if m = n then ws.getD m 0 ||| unitWord k else ws.getD m 0 := by
  induction n generalizing ws m with
  | zero => cases ws <;> cases m <;> simp [insertAt]
  | succ n ih =>
    cases m with
    | zero => cases ws <;> simp [insertAt]
    | succ m =>
      simp only [Nat.add_right_cancel_iff]
      cases ws with
      | nil => exact ih [] m
      | cons w ws => exact ih ws m

@[simp] theorem contains_insert (i : Nat) (s : LabelSet) (j : Nat) :
    (s.insert i).contains j = (s.contains j || decide (i = j)) := by
  simp only [contains, insert, bitAt, getD_insertAt]
  split
  · next h =>
    rw [bit_or, bit_unitWord (Nat.mod_lt i (by decide))]
    congr 1
    exact decide_eq_decide.2 (by omega)
  · next h =>
    have : i ≠ j := fun e => h (by rw [e])
    simp [this]

end LabelSet

end TensorNet
