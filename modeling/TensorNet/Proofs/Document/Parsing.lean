import TensorNet.Document.Shape

/-!
# Printed documents are read back

A document is kept as it is written, so not every document that can be formed can be printed and
read: its numbers could be any characters. Those that are made here hold whole numbers and escaped
texts only (`Json.Written`). Main statement: reading the text of such a document gives the
document back.

A number has no end mark of its own. So what a reader leaves is known only where the characters
that follow a value cannot belong to it; after a value there is a comma, a bracket or nothing
(`Json.Ended`).
-/

namespace TensorNet

/-! ### Digits -/

namespace Digits

theorem digit_ne_zero {n : Nat} (h : n < 10) (hn : n ≠ 0) : digit n ≠ '0' := by
  have : ∀ m : Fin 10, m.val ≠ 0 → digit m ≠ '0' := by decide
  exact this ⟨n, h⟩ hn

theorem ofNat_zero : ofNat 0 = ['0'] := by
  rw [ofNat]
  rfl

theorem isDigit_of_mem_ofNat {n : Nat} {c : Char} (h : c ∈ ofNat n) : c.isDigit = true := by
  fun_induction ofNat n with
  | case1 n hn =>
    rw [List.mem_singleton] at h
    exact h ▸ isDigit_digit hn
  | case2 n hn ih =>
    rcases List.mem_append.1 h with h | h
    · exact ih h
    · rw [List.mem_singleton] at h
      exact h ▸ isDigit_digit (Nat.mod_lt n (by decide))

/-- Digits begin with a zero for zero only. -/
theorem ofNat_eq_cons (n : Nat) :
    ∃ c cs, ofNat n = c :: cs ∧ c.isDigit = true ∧ (n ≠ 0 → c ≠ '0') := by
  fun_induction ofNat n with
  | case1 n h => exact ⟨_, [], rfl, isDigit_digit h, digit_ne_zero h⟩
  | case2 n h ih =>
    obtain ⟨c, cs, he, hc, hzero⟩ := ih
    exact ⟨c, cs ++ [digit (n % 10)], by rw [he, List.cons_append], hc,
      fun _ => hzero (by omega)⟩

theorem isPlain_ofNat (n : Nat) : isPlain (ofNat n) = true := by
  by_cases hn : n = 0
  · rw [hn, ofNat_zero]
    rfl
  · obtain ⟨c, cs, he, hc, hzero⟩ := ofNat_eq_cons n
    have hdigits : ∀ d ∈ c :: cs, d.isDigit = true := fun d hd => isDigit_of_mem_ofNat (he ▸ hd)
    rw [he]
    cases cs with
    | nil => exact hc
    | cons d cs =>
      simp only [isPlain, hc, Bool.true_and, Bool.and_eq_true, bne_iff_ne]
      exact ⟨hzero hn, List.all_eq_true.2 fun d' hd => hdigits d' (List.mem_cons_of_mem c hd)⟩

/-- **The digits of a number in range are read as the number.** -/
theorem read?_ofNat {max n : Nat} (h : n ≤ max) : read? max (ofNat n) = some n := by
  rw [read?, isPlain_ofNat, value_ofNat, decide_eq_true h]
  rfl

end Digits

namespace Json

variable {rest : List Char}

/-! ### What follows a value -/

/-- What may follow a value: a comma, the end of an array or of an object, or nothing. -/
def Ended (s : List Char) : Prop := ∀ c ∈ s.head?, c = ',' ∨ c = ']' ∨ c = '\x7d'

theorem ended_nil : Ended [] := nofun

theorem ended_cons {c : Char} (h : c = ',' ∨ c = ']' ∨ c = '\x7d') (s : List Char) :
    Ended (c :: s) := by
  rintro _ ⟨⟩
  exact h

theorem skipBlank_of_not_blank {c : Char} (h : isBlank c = false) (s : List Char) :
    skipBlank (c :: s) = c :: s :=
  List.dropWhile_cons_of_neg (by rw [h]; decide)

/-! ### Numbers -/

theorem takeDigits_append {ds : List Char} (hne : ds ≠ []) (hds : ∀ d ∈ ds, d.isDigit = true)
    (h : Ended rest) : takeDigits (ds ++ rest) = some (ds, rest) := by
  have hrest : rest.takeWhile Char.isDigit = [] ∧ rest.dropWhile Char.isDigit = rest := by
    cases rest with
    | nil => exact ⟨rfl, rfl⟩
    | cons c s => rcases h c rfl with rfl | rfl | rfl <;> exact ⟨rfl, rfl⟩
  rw [takeDigits, List.takeWhile_append_of_pos hds, List.dropWhile_append_of_pos hds, hrest.1,
    hrest.2, List.append_nil]
  cases ds with
  | nil => exact absurd rfl hne
  | cons d ds => rfl

theorem takeWhole_ofNat (n : Nat) (h : Ended rest) :
    takeWhole (Digits.ofNat n ++ rest) = some (Digits.ofNat n, rest) := by
  by_cases hn : n = 0
  · rw [hn, Digits.ofNat_zero]
    rfl
  · obtain ⟨c, cs, he, -, hc⟩ := Digits.ofNat_eq_cons n
    have htake := takeDigits_append (by rw [he]; exact List.cons_ne_nil c cs)
      (fun d hd => Digits.isDigit_of_mem_ofNat hd) h
    rw [← htake, he, List.cons_append, takeWhole]
    rintro s ⟨⟩
    exact hc hn rfl

theorem takeFraction_of_ended (h : Ended rest) : takeFraction rest = some ([], rest) := by
  cases rest with
  | nil => rfl
  | cons c s => rcases h c rfl with rfl | rfl | rfl <;> rfl

theorem takeExponent_of_ended (h : Ended rest) : takeExponent rest = some ([], rest) := by
  cases rest with
  | nil => rfl
  | cons c s => rcases h c rfl with rfl | rfl | rfl <;> rfl

/-- The sign of a number, as it is written. -/
def signOf (n : Int) : List Char := if n < 0 then ['-'] else []

theorem print_ofInt (n : Int) : (ofInt n).print = signOf n ++ Digits.ofNat n.natAbs := by
  rw [ofInt, print, signOf]
  split <;> rfl

theorem takeMinus_sign (n : Int) (m : Nat) :
    takeMinus (signOf n ++ (Digits.ofNat m ++ rest)) = (signOf n, Digits.ofNat m ++ rest) := by
  rw [signOf]
  split
  · rfl
  · obtain ⟨c, cs, he, hc, -⟩ := Digits.ofNat_eq_cons m
    rw [he, List.cons_append, List.nil_append, takeMinus]
    rintro s ⟨⟩
    exact absurd hc (by decide)

theorem takeNumber_ofInt (n : Int) (h : Ended rest) :
    takeNumber ((ofInt n).print ++ rest) = some ((ofInt n).print, rest) := by
  simp [takeNumber, print_ofInt, takeMinus_sign, takeWhole_ofNat _ h, takeFraction_of_ended h,
    takeExponent_of_ended h]

/-- A number begins with a digit or a minus sign. -/
theorem print_ofInt_eq_cons (n : Int) :
    ∃ c cs, (ofInt n).print = c :: cs ∧ (c.isDigit = true ∨ c = '-') := by
  obtain ⟨c, cs, he, hc, -⟩ := Digits.ofNat_eq_cons n.natAbs
  rw [print_ofInt, signOf, he]
  split
  · exact ⟨'-', _, rfl, .inr rfl⟩
  · exact ⟨c, cs, rfl, .inl hc⟩

/-! ### Texts -/

theorem takeString_encodeChar (c : Char) (s : List Char) :
    takeString (Escape.encodeChar c ++ s) =
      (takeString s).map fun r => (Escape.encodeChar c ++ r.1, r.2) := by
  unfold Escape.encodeChar
  split
  · rfl
  split
  · rfl
  split
  · rfl
  split
  · rfl
  split
  · rfl
  split
  · rfl
  split
  · rfl
  split
  · next h =>
    simp only [List.cons_append, List.nil_append, takeString, Escape.unit_hexDigit h]
  · next h1 h2 _ _ _ _ _ h8 =>
    have hplain : ¬ (c.toNat < 32 ∨ c = '\\') := not_or.2 ⟨h8, h2⟩
    rw [List.singleton_append, takeString]
    · rw [if_neg hplain]
      rfl
    · exact h1
    · rintro _ _ _ _ _ rfl
      exact absurd rfl h2
    · rintro _ _ rfl
      exact absurd rfl h2

theorem takeString_encode (cs : List Char) :
    takeString (Escape.encode cs ++ '"' :: rest) = some (Escape.encode cs, rest) := by
  unfold Escape.encode
  induction cs with
  | nil => rfl
  | cons c cs ih => rw [List.flatMap_cons, List.append_assoc, takeString_encodeChar, ih]; rfl

/-! ### Values -/

/-- The documents of whole numbers, texts, truth values and what is made of them. -/
inductive Written : Json → Prop
  | null : Written .null
  | bool (b : Bool) : Written (.bool b)
  | number (n : Int) : Written (ofInt n)
  | string (cs : List Char) : Written (.string (Escape.encode cs))
  | array {xs : List Json} (h : ∀ x ∈ xs, Written x) : Written (.array xs)
  | object {ms : List (List Char × Json)} (hk : ∀ m ∈ ms, ∃ cs, m.1 = Escape.encode cs)
      (h : ∀ m ∈ ms, Written m.2) : Written (.object ms)

theorem not_blank_of_number {c : Char} (hc : c.isDigit = true ∨ c = '-') : isBlank c = false := by
  simp only [isBlank, Bool.or_eq_false_iff, beq_eq_false_iff_ne]
  refine ⟨⟨⟨?_, ?_⟩, ?_⟩, ?_⟩ <;>
  · rintro rfl
    exact absurd hc (by decide)

/-- The first character of a document says that a value begins. -/
theorem Written.print_eq_cons {j : Json} (h : j.Written) :
    ∃ c cs, j.print = c :: cs ∧ isBlank c = false ∧ c ≠ ']' := by
  cases h with
  | null => exact ⟨'n', _, rfl, rfl, by decide⟩
  | bool b => cases b <;> exact ⟨_, _, rfl, rfl, by decide⟩
  | number n =>
    obtain ⟨c, cs, he, hc⟩ := print_ofInt_eq_cons n
    refine ⟨c, cs, he, not_blank_of_number hc, ?_⟩
    rintro rfl
    exact absurd hc (by decide)
  | string cs => exact ⟨'"', _, rfl, rfl, by decide⟩
  | array h => exact ⟨'[', _, rfl, rfl, by decide⟩
  | object hk h => exact ⟨'\x7b', _, rfl, rfl, by decide⟩

/-- A document is read off the front of what is written, given fuel for its characters. -/
def ReadsBack (j : Json) : Prop :=
  ∀ fuel rest, 2 * j.print.length ≤ fuel + 2 → Ended rest →
    readValue (fuel + 1) (j.print ++ rest) = some (j, rest)

theorem readsBack_ofInt (n : Int) : (ofInt n).ReadsBack := by
  intro fuel rest _ h
  have hnumber : (takeNumber ((ofInt n).print ++ rest)).map (fun r => (number r.1, r.2)) =
      some (ofInt n, rest) := by
    rw [takeNumber_ofInt n h]
    rfl
  obtain ⟨c, cs, he, hc⟩ := print_ofInt_eq_cons n
  rw [he, List.cons_append] at hnumber ⊢
  rw [readValue, skipBlank_of_not_blank (not_blank_of_number hc)]
  split
  all_goals first
    | exact hnumber
    | next heq =>
      cases heq
      exact absurd hc (by decide)

theorem readItems_printItems {xs : List Json} (hne : xs ≠ []) (hw : ∀ x ∈ xs, x.Written)
    (hr : ∀ x ∈ xs, x.ReadsBack) {fuel : Nat} (hf : 2 * (printItems xs).length ≤ fuel) :
    readItems fuel (printItems xs ++ ']' :: rest) = some (xs, rest) := by
  induction xs generalizing fuel with
  | nil => exact absurd rfl hne
  | cons x xs ih =>
    obtain ⟨c, cs, hx, -, -⟩ := (hw x List.mem_cons_self).print_eq_cons
    have hpos : 0 < x.print.length := by
      rw [hx]
      exact Nat.succ_pos _
    have hread := hr x List.mem_cons_self
    cases xs with
    | nil =>
      rw [printItems] at hf ⊢
      obtain ⟨fuel, rfl⟩ := Nat.exists_eq_add_of_le' (show 2 ≤ fuel by omega)
      rw [readItems, hread fuel _ hf (ended_cons (by decide) rest)]
      rfl
    | cons y ys =>
      rw [printItems] at hf ⊢
      rw [List.length_append, List.length_cons] at hf
      obtain ⟨fuel, rfl⟩ := Nat.exists_eq_add_of_le' (show 2 ≤ fuel by omega)
      have hrest : readItems (fuel + 1) (printItems (y :: ys) ++ ']' :: rest) =
          some (y :: ys, rest) :=
        ih (List.cons_ne_nil y ys) (fun z hz => hw z (List.mem_cons_of_mem x hz))
          (fun z hz => hr z (List.mem_cons_of_mem x hz)) (by omega)
      rw [List.append_assoc, List.cons_append, readItems,
        hread fuel _ (by omega) (ended_cons (by decide) _)]
      simp only [skipBlank_of_not_blank (show isBlank ',' = false from rfl), hrest]
      rfl

theorem readMembers_printMembers {ms : List (List Char × Json)} (hne : ms ≠ [])
    (hk : ∀ m ∈ ms, ∃ cs, m.1 = Escape.encode cs) (hr : ∀ m ∈ ms, m.2.ReadsBack) {fuel : Nat}
    (hf : 2 * (printMembers ms).length ≤ fuel) :
    readMembers fuel (printMembers ms ++ '\x7d' :: rest) = some (ms, rest) := by
  induction ms generalizing fuel with
  | nil => exact absurd rfl hne
  | cons m ms ih =>
    obtain ⟨k, x⟩ := m
    obtain ⟨key, rfl⟩ : ∃ key, k = Escape.encode key := hk _ List.mem_cons_self
    have hread : x.ReadsBack := hr _ List.mem_cons_self
    cases ms with
    | nil =>
      simp only [printMembers, List.length_append, List.length_cons] at hf
      obtain ⟨fuel, rfl⟩ := Nat.exists_eq_add_of_le' (show 2 ≤ fuel by omega)
      simp only [printMembers, List.append_assoc, List.cons_append]
      rw [readMembers, skipBlank_of_not_blank (by decide)]
      simp only [takeString_encode, skipBlank_of_not_blank (show isBlank ':' = false from rfl)]
      rw [hread fuel _ (by omega) (ended_cons (by decide) rest)]
      rfl
    | cons m' ms =>
      simp only [printMembers, List.length_append, List.length_cons] at hf
      obtain ⟨fuel, rfl⟩ := Nat.exists_eq_add_of_le' (show 2 ≤ fuel by omega)
      have hrest : readMembers (fuel + 1) (printMembers (m' :: ms) ++ '\x7d' :: rest) =
          some (m' :: ms, rest) :=
        ih (List.cons_ne_nil m' ms) (fun z hz => hk z (List.mem_cons_of_mem _ hz))
          (fun z hz => hr z (List.mem_cons_of_mem _ hz)) (by omega)
      simp only [printMembers, List.append_assoc, List.cons_append]
      rw [readMembers, skipBlank_of_not_blank (by decide)]
      simp only [takeString_encode, skipBlank_of_not_blank (show isBlank ':' = false from rfl)]
      rw [hread fuel _ (by omega) (ended_cons (by decide) _)]
      simp only [skipBlank_of_not_blank (show isBlank ',' = false from rfl), hrest]
      rfl

theorem readValue_array {c : Char} (hb : isBlank c = false) (hc : c ≠ ']') (s : List Char)
    (fuel : Nat) : readValue (fuel + 1) ('[' :: c :: s) =
      (readItems fuel (c :: s)).map fun r => (array r.1, r.2) := by
  rw [readValue, skipBlank_of_not_blank (by decide)]
  simp only [skipBlank_of_not_blank hb]
  split
  · next heq =>
    cases heq
    exact absurd rfl hc
  · rfl

theorem readValue_object (s : List Char) (fuel : Nat) :
    readValue (fuel + 1) ('\x7b' :: '"' :: s) =
      (readMembers fuel ('"' :: s)).map fun r => (object r.1, r.2) := by
  rw [readValue, skipBlank_of_not_blank (by decide)]
  rfl

theorem printItems_cons (x : Json) (xs : List Json) :
    ∃ s, printItems (x :: xs) = x.print ++ s := by
  cases xs with
  | nil => exact ⟨[], by rw [printItems, List.append_nil]⟩
  | cons y ys => exact ⟨_, by rw [printItems]⟩

theorem printMembers_cons (m : List Char × Json) (ms : List (List Char × Json)) :
    ∃ s, printMembers (m :: ms) = '"' :: s := by
  obtain ⟨k, x⟩ := m
  cases ms with
  | nil => exact ⟨_, rfl⟩
  | cons m' ms => exact ⟨_, rfl⟩

/-- **A written document is read off the front.** By induction on the document. -/
theorem Written.readsBack {j : Json} (h : j.Written) : j.ReadsBack := by
  induction h with
  | null => exact fun fuel rest _ _ => rfl
  | bool b => cases b <;> exact fun fuel rest _ _ => rfl
  | number n => exact readsBack_ofInt n
  | string cs =>
    intro fuel rest _ _
    rw [print, List.append_assoc, List.cons_append, readValue, skipBlank_of_not_blank (by decide)]
    simp only [List.singleton_append, takeString_encode]
    rfl
  | @array xs h ih =>
    intro fuel rest hf _
    simp only [print, List.length_append, List.length_cons] at hf
    rw [print, List.append_assoc, List.cons_append, List.singleton_append]
    cases xs with
    | nil => rfl
    | cons x xs =>
      have hitems : readItems fuel (printItems (x :: xs) ++ ']' :: rest) = some (x :: xs, rest) :=
        readItems_printItems (List.cons_ne_nil x xs) h ih (by omega)
      obtain ⟨c, cs, hc, hb, hne⟩ := (h x List.mem_cons_self).print_eq_cons
      obtain ⟨s, hs⟩ := printItems_cons x xs
      rw [hs, hc] at hitems ⊢
      rw [List.cons_append, List.cons_append] at hitems ⊢
      rw [readValue_array hb hne, hitems]
      rfl
  | @object ms hk h ih =>
    intro fuel rest hf _
    simp only [print, List.length_append, List.length_cons] at hf
    rw [print, List.append_assoc, List.cons_append, List.singleton_append]
    cases ms with
    | nil => rfl
    | cons m ms =>
      have hmembers : readMembers fuel (printMembers (m :: ms) ++ '\x7d' :: rest) =
          some (m :: ms, rest) :=
        readMembers_printMembers (List.cons_ne_nil m ms) hk ih (by omega)
      obtain ⟨s, hs⟩ := printMembers_cons m ms
      rw [hs, List.cons_append] at hmembers ⊢
      rw [readValue_object, hmembers]
      rfl

/-- **A written document is read back from its text.** -/
theorem Written.parse?_print {j : Json} (h : j.Written) : parse? j.print = some j := by
  have hread := h.readsBack (2 * j.print.length + 1) [] (by omega) ended_nil
  rw [List.append_nil] at hread
  rw [parse?, hread]
  rfl

end Json

end TensorNet
