import Mathlib.Data.List.Forall2

/-!
# Steps that can fail

Steps in sequence succeed if each of them does, and fail with the first one that fails.

* `Except.bind_eq_ok`, `Except.bind_eq_error`: two steps.
* `Except.bind_pure_eq_ok`, `Except.bind_pure_eq_error`, `Except.bind_bind_pure_eq_ok`: steps whose
  results are put together.
* `Except.mapM_eq_ok`, `Except.exists_of_mapM_eq_error`: one step for each element of a list.
-/

namespace Except

variable {ε α β γ : Type} {x : Except ε α} {e : ε}

theorem bind_eq_ok {f : α → Except ε β} {b : β} :
    x >>= f = .ok b ↔ ∃ a, x = .ok a ∧ f a = .ok b := by
  cases x <;> simp [bind, Except.bind]

theorem bind_eq_error {f : α → Except ε β} :
    x >>= f = .error e ↔ x = .error e ∨ ∃ a, x = .ok a ∧ f a = .error e := by
  cases x <;> simp [bind, Except.bind]

theorem bind_pure_eq_ok {f : α → β} {b : β} :
    x >>= (fun a => pure (f a)) = .ok b ↔ ∃ a, x = .ok a ∧ b = f a := by
  simp [bind_eq_ok, pure, Except.pure, eq_comm (a := b)]

theorem bind_pure_eq_error {f : α → β} :
    x >>= (fun a => pure (f a)) = .error e ↔ x = .error e := by
  simp [bind_eq_error, pure, Except.pure]

theorem bind_bind_pure_eq_ok {y : Except ε β} {f : α → β → γ} {c : γ} :
    x >>= (fun a => y >>= fun b => pure (f a b)) = .ok c ↔
      ∃ a b, x = .ok a ∧ y = .ok b ∧ c = f a b := by
  simp only [bind_eq_ok (x := x), bind_pure_eq_ok, exists_and_left]

/-! ## Lists -/

variable {f : α → Except ε β} {xs : List α} {ys : List β}

theorem mapM_eq_ok : xs.mapM f = .ok ys ↔ List.Forall₂ (fun x y => f x = .ok y) xs ys := by
  induction xs generalizing ys with
  | nil => simp [pure, Except.pure, eq_comm]
  | cons x xs ih =>
    rw [List.mapM_cons, bind_bind_pure_eq_ok, List.forall₂_cons_left_iff]
    simp only [ih, exists_and_left]

/-- The first element that fails: those before it do not. -/
theorem exists_of_mapM_eq_error (h : xs.mapM f = .error e) : ∃ before x after,
    xs = before ++ x :: after ∧ (∀ b ∈ before, ∃ y, f b = .ok y) ∧ f x = .error e := by
  induction xs with
  | nil => cases h
  | cons x xs ih =>
    rw [List.mapM_cons, bind_eq_error] at h
    obtain hx | ⟨y, hy, h⟩ := h
    · exact ⟨[], x, xs, rfl, List.forall_mem_nil _, hx⟩
    · obtain ⟨before, faulty, after, rfl, hbefore, hfaulty⟩ := ih (bind_pure_eq_error.mp h)
      exact ⟨x :: before, faulty, after, rfl, List.forall_mem_cons.mpr ⟨⟨y, hy⟩, hbefore⟩, hfaulty⟩

end Except
