import DeviceAccess.Lib.Action

/-!
# A computation on a larger state

`Views view x y`: `x` runs on a state of which `view` is a part, answers what `y` answers on that
part and leaves the part as `y` does. What `x` does to the rest is free, so `x` can be `y` with a
record of what it did.
-/

namespace Sda

variable {σ τ ε ε' α β : Type}

/-- `x` is `y` on the part of its state that `view` shows. -/
def Views (view : σ → τ) (x : Action σ ε α) (y : Action τ ε α) : Prop :=
  ∀ s, y (view s) = ((x s).1, view (x s).2)

namespace Views

variable {view : σ → τ} {x : Action σ ε α} {y : Action τ ε α} {f : α → Action σ ε β}
  {g : α → Action τ ε β}

theorem pure (a : α) : Views view (Pure.pure a : Action σ ε α) (Pure.pure a) := fun _ => rfl

theorem fail (e : ε) : Views view (Action.fail e : Action σ ε α) (Action.fail e) := fun _ => rfl

theorem ofExcept (r : Except ε α) : Views view (Action.ofExcept r) (Action.ofExcept r) :=
  fun _ => rfl

theorem bind (h : Views view x y) (hf : ∀ a, Views view (f a) (g a)) :
    Views view (x >>= f) (y >>= g) := by
  intro s
  have hy := h s
  cases hx : x s with
  | mk r s' =>
    rw [hx] at hy
    cases r with
    | error e => rw [Action.bind_of_error hx, Action.bind_of_error hy]
    | ok a =>
      rw [Action.bind_of_ok hx, Action.bind_of_ok hy]
      exact hf a s'

theorem ite {c : Prop} [Decidable c] {x' : Action σ ε α} {y' : Action τ ε α} (h : Views view x y)
    (h' : Views view x' y') : Views view (if c then x else x') (if c then y else y') := by
  by_cases hc : c
  · rw [if_pos hc, if_pos hc]
    exact h
  · rw [if_neg hc, if_neg hc]
    exact h'

theorem attempt (h : Views view x y) :
    Views view (Action.attempt x : Action σ ε' (Except ε α)) (Action.attempt y) := by
  intro s
  simp only [Action.attempt, h s]

theorem mapErr (h : Views view x y) (map : ε → ε') :
    Views view (Action.mapErr map x) (Action.mapErr map y) := by
  intro s
  simp only [Action.mapErr, h s]

end Views
end Sda
