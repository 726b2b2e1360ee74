import Mathlib.Algebra.Ring.Nat
import TensorNet.Cost.Model
import TensorNet.Proofs.Outcome

/-!
# Coefficients of costs

Two costs that use no two different variables can be added, multiplied and compared, and what comes
out is in normal form. A sum is described by its coefficients: the coefficient of an exponent in
`a + b` is the saturated sum of those in `a` and `b`.

Products are only looked at as far as it takes to add them up. What a product is never matters
here, as costs of joins are compared only after they went into a sum.
-/

namespace TensorNet

/-! ### Lists of terms -/

namespace Terms

/-- The sum of the coefficients that are listed for an exponent. -/
def total (ts : List (Exponent × Coefficient)) (e : Exponent) : Nat :=
  (ts.map fun x => if x.1 = e then x.2.val else 0).sum

@[simp] theorem total_nil (e : Exponent) : total [] e = 0 := rfl

@[simp] theorem total_cons (x : Exponent × Coefficient) (ts : List (Exponent × Coefficient))
    (e : Exponent) : total (x :: ts) e = (if x.1 = e then x.2.val else 0) + total ts e := rfl

theorem total_reverse (ts : List (Exponent × Coefficient)) (e : Exponent) :
    total ts.reverse e = total ts e := by
  rw [total, List.map_reverse, List.sum_reverse, total]

theorem total_eq_zero {ts : List (Exponent × Coefficient)} {e : Exponent}
    (h : ∀ x ∈ ts, x.1 ≠ e) : total ts e = 0 := by
  induction ts with
  | nil => rfl
  | cons x ts ih =>
    rw [total_cons, if_neg (h x List.mem_cons_self), Nat.zero_add]
    exact ih fun y hy => h y (List.mem_cons_of_mem _ hy)

theorem ne_of_lt {a b : Exponent} (h : a < b) : a ≠ b := by
  rintro rfl
  exact Nat.lt_irrefl _ h

/-- Where exponents do not repeat, looking one up and summing its coefficients is the same. -/
theorem val_lookup {l : List (Exponent × Coefficient)} (h : l.Pairwise fun s t => s.1 < t.1)
    (e : Exponent) : ((l.lookup e).getD 0).val = total l e := by
  induction l with
  | nil => rfl
  | cons x l ih =>
    obtain ⟨hx, hl⟩ := List.pairwise_cons.1 h
    rw [List.lookup_cons, total_cons]
    by_cases he : x.1 = e
    · subst he
      simp only [BEq.rfl, Option.getD_some, if_true]
      rw [total_eq_zero fun y hy => (ne_of_lt (hx y hy)).symm, Nat.add_zero]
    · have hb : (e == x.1) = false := by simpa using Ne.symm he
      simp only [hb, he, if_false, Nat.zero_add]
      exact ih hl

theorem val_coefficient (t : Terms) (e : Exponent) : (t.coefficient e).val = total t.toList e :=
  val_lookup t.ascending e

theorem total_alterList {l : List (Exponent × Coefficient)}
    (h : l.Pairwise fun s t => s.1 < t.1) (e : Exponent) (c : Coefficient) (d : Exponent) :
    total (alterList e (fun x => x.getD 0 + c) l) d =
      if e = d then min (total l e + c.val) 0xFFFFFFFFFFFFFFFFFFFFFFFFFFFFFFFF
      else total l d := by
  induction l with
  | nil =>
    simp only [alterList, total_cons, total_nil, Option.getD_none, Saturating.val_add]
    rfl
  | cons x l ih =>
    obtain ⟨k, b⟩ := x
    obtain ⟨hx, hl⟩ := List.pairwise_cons.1 h
    unfold alterList
    split
    · next hlt =>
      -- the new term comes first
      have hz : total ((k, b) :: l) e = 0 := total_eq_zero fun y hy => by
        rcases List.mem_cons.1 hy with rfl | hy
        · exact (ne_of_lt hlt).symm
        · exact (ne_of_lt (Nat.lt_trans hlt (hx y hy))).symm
      rw [total_cons, hz]
      by_cases he : e = d
      · subst he
        rw [if_pos rfl, if_pos rfl, hz]
        simp only [Option.getD_none, Saturating.val_add]
        rfl
      · rw [if_neg he, if_neg he, Nat.zero_add]
    · split
      · next he =>
        -- the term is there already
        subst he
        have hz : total l e = 0 := total_eq_zero fun y hy => (ne_of_lt (hx y hy)).symm
        simp only [total_cons, Option.getD_some, Saturating.val_add, if_true, hz, Nat.add_zero]
        by_cases he : e = d
        · subst he
          simp [hz]
        · simp [he]
      · next hne =>
        rw [total_cons, ih hl, total_cons, total_cons, if_neg (Ne.symm hne)]
        by_cases he : e = d
        · subst he
          simp [Ne.symm hne]
        · simp [he]

theorem coefficient_addAt (t : Terms) (e : Exponent) (c : Coefficient) (d : Exponent) :
    (t.addAt e c).coefficient d =
      if e = d then t.coefficient d + c else t.coefficient d := by
  ext
  rw [val_coefficient]
  show total (alterList e _ t.toList) d = _
  rw [total_alterList t.ascending]
  split
  · next h =>
    subst h
    rw [Saturating.val_add, val_coefficient]
  · rw [val_coefficient]

/-- Adding terms one after the other adds what is listed for each exponent. -/
theorem coefficient_foldl (ts : List (Exponent × Coefficient)) (t : Terms) (e : Exponent) :
    (ts.foldl (fun t x => t.addAt x.1 x.2) t).coefficient e =
      t.coefficient e + .ofNat _ (total ts e) := by
  induction ts generalizing t with
  | nil =>
    ext
    simp [Nat.min_eq_left (t.coefficient e).val_le]
  | cons x ts ih =>
    rw [List.foldl_cons, ih, coefficient_addAt, total_cons, Saturating.ofNat_add]
    ext
    split
    · next h =>
      simp only [Saturating.val_add, Saturating.val_ofNat]
      omega
    · simp only [Saturating.val_add, Saturating.val_ofNat]
      omega

theorem coefficient_ofSum (ts : List (Exponent × Coefficient)) (e : Exponent) :
    (ofSum ts).coefficient e = .ofNat _ (total ts e) := by
  rw [ofSum, coefficient_foldl]
  ext
  show min (0 + min (total ts e) _) _ = _
  rw [Nat.zero_add, Saturating.val_ofNat]
  omega

theorem total_filter (ts : List (Exponent × Coefficient)) (e : Exponent) :
    total (ts.filter fun x => x.2 != 0) e = total ts e := by
  induction ts with
  | nil => rfl
  | cons x ts ih =>
    by_cases hx : x.2 = 0
    · simp only [List.filter_cons, hx, bne_self_eq_false, Bool.false_eq_true, if_false, ih,
        total_cons]
      split
      · exact (Nat.zero_add _).symm
      · exact (Nat.zero_add _).symm
    · have hb : (x.2 != 0) = true := by simpa using hx
      rw [List.filter_cons, if_pos hb, total_cons, ih, total_cons]

@[simp] theorem coefficient_nonzero (t : Terms) (e : Exponent) :
    t.nonzero.coefficient e = t.coefficient e := by
  ext
  rw [val_coefficient, val_coefficient]
  exact total_filter t.toList e

end Terms

/-! ### Costs -/

namespace Cost

/-- The coefficient of an exponent. -/
def coefficient : Cost → Exponent → Coefficient
  | integer n, e => if e = 0 then n else 0
  | polynomial p, e => p.terms.coefficient e

@[simp] theorem coefficient_integer (n : Coefficient) (e : Exponent) :
    (integer n).coefficient e = if e = 0 then n else 0 := rfl

@[simp] theorem coefficient_polynomial (p : Poly) (e : Exponent) :
    (polynomial p).coefficient e = p.terms.coefficient e := rfl

/-- No variable but the given one is used. -/
def Over (s : String) (c : Cost) : Prop := ∀ x ∈ c.symbol?, x = s

/-- The normal form: a polynomial has no zero terms and positive degree. -/
def Reduced : Cost → Prop
  | integer _ => True
  | polynomial p => (∀ x ∈ p.terms.toList, x.2 ≠ 0) ∧ ∃ x ∈ p.terms.toList, x.1 ≠ 0

theorem over_integer (s : String) (n : Coefficient) : (integer n).Over s := nofun

theorem over_zero (s : String) : (0 : Cost).Over s := over_integer s 0

@[simp] theorem coefficient_zero (e : Exponent) : (0 : Cost).coefficient e = 0 := by
  show (if e = 0 then (0 : Coefficient) else 0) = 0
  rw [ite_self]

theorem total_descending (c : Cost) (e : Exponent) :
    Terms.total c.descending e = (c.coefficient e).val := by
  cases c with
  | integer n =>
    rw [coefficient_integer, descending]
    by_cases hn : n = 0
    · subst hn
      rw [if_pos rfl, ite_self]
      rfl
    · by_cases he : e = 0
      · subst he
        simp [hn]
      · simp only [hn, he, if_false, Terms.total_cons, Ne.symm he, Terms.total_nil, Nat.add_zero]
        rfl
  | polynomial p =>
    rw [descending, Terms.descending, Terms.total_reverse, coefficient_polynomial,
      Terms.val_coefficient]

/-! ### Normal form -/

theorem reduced_normal (s : String) (t : Terms) : (normal s t).Reduced := by
  unfold normal
  dsimp only
  split
  · trivial
  · next h =>
    refine ⟨fun x hx => ?_, ?_⟩
    · simpa using (List.mem_filter.1 hx).2
    · rw [Bool.not_eq_true, List.all_eq_false] at h
      obtain ⟨x, hx, hne⟩ := h
      exact ⟨x, hx, by simpa using hne⟩

theorem over_normal (s : String) (t : Terms) : (normal s t).Over s := by
  unfold normal
  dsimp only
  split
  · exact over_integer s _
  · intro x hx
    exact (Option.mem_some.1 hx).symm

theorem over_power (s : String) (c : Coefficient) (e : Exponent) : (power s c e).Over s :=
  over_normal s _

@[simp] theorem coefficient_normal (s : String) (t : Terms) (e : Exponent) :
    (normal s t).coefficient e = t.coefficient e := by
  unfold normal
  dsimp only
  split
  · next h =>
    rw [coefficient_integer]
    split
    · next he => rw [he, Terms.coefficient_nonzero]
    · next he =>
      ext
      rw [← Terms.coefficient_nonzero, Terms.val_coefficient, Terms.total_eq_zero]
      · rfl
      · intro x hx h0
        have : x.1 = 0 := by simpa using List.all_eq_true.1 h x hx
        exact he (h0.symm.trans this)
  · exact Terms.coefficient_nonzero t e

/-! ### Arithmetic in one variable -/

variable {s : String} {a b : Cost}

/-- Two costs in one variable are two numbers, or they are combined term by term. -/
theorem integers_or_terms (ha : a.Over s) (hb : b.Over s) :
    (∃ m n, a = integer m ∧ b = integer n) ∨
      (a.add b = .ok (normal s
          (b.descending.foldl (fun t x => t.addAt x.1 x.2) (Terms.ofSum a.descending))) ∧
        a.mul b = .ok (normal s (Terms.ofSum (termProducts a.descending b.descending))) ∧
        a.cmp b = .ok (compareTerms a.descending b.descending)) := by
  cases a with
  | integer m =>
    cases b with
    | integer n => exact .inl ⟨m, n, rfl, rfl⟩
    | polynomial q =>
      obtain rfl : q.symbol = s := hb _ rfl
      exact .inr ⟨rfl, rfl, rfl⟩
  | polynomial p =>
    obtain rfl : p.symbol = s := ha _ rfl
    cases b with
    | integer n => exact .inr ⟨rfl, rfl, rfl⟩
    | polynomial q =>
      have hs : commonSymbol (polynomial p) (polynomial q) = .ok p.symbol := by
        have hq : q.symbol = p.symbol := hb _ rfl
        simp only [commonSymbol, symbol?, hq, if_true]
      refine .inr ⟨?_, ?_, ?_⟩
      · simp only [add, hs, ok_bind, pure_eq_ok]
      · simp only [mul, hs, ok_bind, pure_eq_ok]
      · simp only [cmp, hs, ok_bind, pure_eq_ok]

/-- **Costs in one variable can be added**: the coefficients are added. -/
theorem add_of_over (ha : a.Over s) (hb : b.Over s) :
    ∃ c, a.add b = .ok c ∧ c.Over s ∧ c.Reduced ∧
      ∀ e, c.coefficient e = a.coefficient e + b.coefficient e := by
  rcases integers_or_terms ha hb with ⟨m, n, rfl, rfl⟩ | ⟨h, -, -⟩
  · refine ⟨_, rfl, over_integer s _, trivial, fun e => ?_⟩
    simp only [coefficient_integer]
    split
    · rfl
    · rfl
  · refine ⟨_, h, over_normal s _, reduced_normal s _, fun e => ?_⟩
    rw [coefficient_normal, Terms.coefficient_foldl, Terms.coefficient_ofSum, total_descending,
      total_descending, Saturating.ofNat_val, Saturating.ofNat_val]

/-- Costs in one variable can be multiplied. -/
theorem mul_of_over (ha : a.Over s) (hb : b.Over s) :
    ∃ c, a.mul b = .ok c ∧ c.Over s ∧ c.Reduced := by
  rcases integers_or_terms ha hb with ⟨m, n, rfl, rfl⟩ | ⟨-, h, -⟩
  · exact ⟨_, rfl, over_integer s _, trivial⟩
  · exact ⟨_, h, over_normal s _, reduced_normal s _⟩

/-- The product of costs in one variable. -/
theorem product_of_over {cs : List Cost} (h : ∀ c ∈ cs, c.Over s) :
    ∃ c, Cost.product cs = .ok c ∧ c.Over s ∧ c.Reduced := by
  have fold : ∀ (cs : List Cost) (d : Cost), (∀ c ∈ cs, c.Over s) → d.Over s → d.Reduced →
      ∃ c, cs.foldlM Cost.mul d = .ok c ∧ c.Over s ∧ c.Reduced := by
    intro cs
    induction cs with
    | nil =>
      intro d _ hd hr
      exact ⟨d, rfl, hd, hr⟩
    | cons c cs ih =>
      intro d hcs hd hr
      obtain ⟨d', hd', ho, hr'⟩ := mul_of_over hd (hcs c List.mem_cons_self)
      obtain ⟨k, hk, hko, hkr⟩ := ih d' (fun c hc => hcs c (List.mem_cons_of_mem _ hc)) ho hr'
      refine ⟨k, ?_, hko, hkr⟩
      rw [List.foldlM_cons, hd', ok_bind, hk]
  exact fold cs 1 h (over_integer s 1) trivial

end Cost

end TensorNet
