import TensorNet.Error

/-!
# Computations that may fail

How a success of a composed computation comes about.
-/

namespace TensorNet

/-- A sequence succeeds when both parts do. -/
theorem bind_eq_ok {ε α γ : Type} {x : Except ε α} {f : α → Except ε γ} {c : γ} :
    (x >>= f) = .ok c ↔ ∃ a, x = .ok a ∧ f a = .ok c := by
  cases x with
  | error e => simp [bind, Except.bind]
  | ok a => simp [bind, Except.bind]

@[simp] theorem ok_bind {ε α γ : Type} (a : α) (f : α → Except ε γ) :
    ((Except.ok a : Except ε α) >>= f) = f a := rfl

@[simp] theorem error_bind {ε α γ : Type} (e : ε) (f : α → Except ε γ) :
    ((Except.error e : Except ε α) >>= f) = .error e := rfl

@[simp] theorem pure_eq_ok {ε α : Type} (a : α) : (pure a : Except ε α) = .ok a := rfl

/-- The failure of a computation that fails. -/
def failureOf {ε α : Type} : Except ε α → Option ε
  | .ok _ => none
  | .error e => some e

theorem forM_eq_ok {ε ι : Type} {f : ι → Except ε Unit} {l : List ι} (h : ∀ i ∈ l, f i = .ok ()) :
    l.forM f = .ok () := by
  induction l with
  | nil => rfl
  | cons i l ih =>
    show (f i >>= fun _ => l.forM f) = .ok ()
    rw [h i List.mem_cons_self, ok_bind]
    exact ih fun j hj => h j (List.mem_cons_of_mem _ hj)

theorem forM_cons {ε ι : Type} (f : ι → Except ε Unit) (i : ι) (l : List ι) :
    (i :: l).forM f = f i >>= fun _ => l.forM f := rfl

theorem forM_concat {ε ι : Type} (f : ι → Except ε Unit) (l : List ι) (i : ι) :
    (l ++ [i]).forM f = l.forM f >>= fun _ => f i := by
  induction l with
  | nil =>
    show (f i >>= fun _ => .ok ()) = f i
    cases f i with
    | error e => rfl
    | ok u => rfl
  | cons j l ih =>
    rw [List.cons_append, forM_cons, forM_cons, ih]
    cases f j with
    | error e => rfl
    | ok u => rfl

theorem forM_eq_ok_iff {ε ι : Type} {f : ι → Except ε Unit} {l : List ι} :
    l.forM f = .ok () ↔ ∀ i ∈ l, f i = .ok () := by
  refine ⟨fun h => ?_, forM_eq_ok⟩
  induction l with
  | nil => exact fun i hi => nomatch hi
  | cons i l ih =>
    rw [forM_cons] at h
    obtain ⟨⟨⟩, hi, hl⟩ := bind_eq_ok.1 h
    exact List.forall_mem_cons.2 ⟨hi, ih hl⟩

theorem mapM_eq_ok {ε α γ : Type} {f : α → Except ε γ} {g : α → γ} {l : List α}
    (h : ∀ a ∈ l, f a = .ok (g a)) : l.mapM f = .ok (l.map g) := by
  induction l with
  | nil => rfl
  | cons a l ih =>
    rw [List.mapM_cons, h a List.mem_cons_self, ok_bind,
      ih fun b hb => h b (List.mem_cons_of_mem _ hb)]
    rfl

/-! ### The failures that can occur -/

/-- Whatever fails fails in one of these ways. -/
def FailsWith {ε α : Type} (P : ε → Prop) (r : Except ε α) : Prop := ∀ e, r = .error e → P e

namespace FailsWith

variable {ε α γ ι : Type} {P : ε → Prop}

theorem ok (a : α) : FailsWith P (.ok a) := nofun

theorem error {e : ε} (h : P e) : FailsWith P (.error e : Except ε α) := by
  rintro _ ⟨⟩
  exact h

theorem bind {r : Except ε α} {f : α → Except ε γ} (hr : FailsWith P r)
    (hf : ∀ a, FailsWith P (f a)) : FailsWith P (r >>= f) := by
  intro e he
  cases r with
  | error e' =>
    rw [error_bind] at he
    cases he
    exact hr e rfl
  | ok a => exact hf a e he

theorem forM {f : ι → Except ε Unit} (hf : ∀ i, FailsWith P (f i)) (l : List ι) :
    FailsWith P (l.forM f) := by
  induction l with
  | nil => exact ok ()
  | cons i l ih =>
    rw [forM_cons]
    exact (hf i).bind fun _ => ih

theorem foldlM {f : γ → ι → Except ε γ} (hf : ∀ c i, FailsWith P (f c i)) (l : List ι) (c : γ) :
    FailsWith P (l.foldlM f c) := by
  induction l generalizing c with
  | nil => exact ok c
  | cons i l ih =>
    rw [List.foldlM_cons]
    exact (hf c i).bind ih

/-- What holds after each step of a fold with failure, and how a step can fail after what holds
before it. -/
theorem foldlM_along {f : γ → ι → Except ε γ} {l : List ι} (Q : List ι → γ → Prop)
    (step : ∀ pre a post c, l = pre ++ a :: post → Q pre c →
      FailsWith P (f c a) ∧ ∀ c', f c a = .ok c' → Q (pre ++ [a]) c')
    {c : γ} (hc : Q [] c) :
    FailsWith P (l.foldlM f c) ∧ ∀ c', l.foldlM f c = .ok c' → Q l c' := by
  have go : ∀ (post pre : List ι) (c : γ), l = pre ++ post → Q pre c →
      FailsWith P (post.foldlM f c) ∧ ∀ c', post.foldlM f c = .ok c' → Q l c' := by
    intro post
    induction post with
    | nil =>
      intro pre c hl hc
      rw [List.append_nil] at hl
      refine ⟨.ok c, fun c' h => ?_⟩
      cases h
      exact hl ▸ hc
    | cons a post ih =>
      intro pre c hl hc
      obtain ⟨hfail, hok⟩ := step pre a post c hl hc
      rw [List.foldlM_cons]
      cases hd : f c a with
      | error e =>
        rw [hd] at hfail
        exact ⟨hfail, nofun⟩
      | ok d => exact ih (pre ++ [a]) d (by simpa using hl) (hok d hd)
  exact go l [] c rfl hc

end FailsWith

/-! ### Folds -/

/-- What a fold with failure keeps from step to step holds of its result. -/
theorem foldlM_inv {ε α γ : Type} {f : γ → α → Except ε γ} (P : γ → Prop) {l : List α}
    (step : ∀ c a c', a ∈ l → P c → f c a = .ok c' → P c') {c c' : γ} (hc : P c)
    (h : l.foldlM f c = .ok c') : P c' := by
  have hstep : ∀ pre a post c, l = pre ++ a :: post → P c →
      FailsWith (fun _ => True) (f c a) ∧ ∀ c', f c a = .ok c' → P c' := by
    intro pre a post c hl hc
    have ha : a ∈ l := hl ▸ List.mem_append_right pre List.mem_cons_self
    exact ⟨fun _ _ => trivial, fun c' => step c a c' ha hc⟩
  exact (FailsWith.foldlM_along (fun _ => P) hstep hc).2 c' h

theorem foldlM_single {ε α γ : Type} {f : γ → α → Except ε γ} {c c' : γ} {a : α}
    (h : f c a = .ok c') : [a].foldlM f c = .ok c' := by
  rw [List.foldlM_cons, h]
  rfl

/-- A fold succeeds if each of its steps does, given what holds after the steps before it. -/
theorem exists_foldlM {ε α γ : Type} {f : γ → α → Except ε γ} {l : List α}
    (P : List α → γ → Prop)
    (step : ∀ pre a post c, l = pre ++ a :: post → P pre c →
      ∃ c', f c a = .ok c' ∧ P (pre ++ [a]) c')
    {c : γ} (hc : P [] c) : ∃ c', l.foldlM f c = .ok c' ∧ P l c' := by
  have hstep : ∀ pre a post c, l = pre ++ a :: post → P pre c →
      FailsWith (fun _ => False) (f c a) ∧ ∀ c', f c a = .ok c' → P (pre ++ [a]) c' := by
    intro pre a post c hl hc
    obtain ⟨c', hc', hp⟩ := step pre a post c hl hc
    rw [hc']
    refine ⟨.ok c', ?_⟩
    rintro _ ⟨⟩
    exact hp
  obtain ⟨hfail, hok⟩ := FailsWith.foldlM_along P hstep hc
  cases hr : l.foldlM f c with
  | error e => exact (hfail e hr).elim
  | ok c' => exact ⟨c', rfl, hok c' hr⟩

end TensorNet
