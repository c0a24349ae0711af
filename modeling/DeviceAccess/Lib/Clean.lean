import DeviceAccess.Lib.Action

/-!
# Runs that end well

A computation can go on after something went wrong and leave a mark in the state that no later step
takes away: a list of errors that only grows. A run that ends without the mark had none at any
point, so a proof can take a sequence apart into parts that all ended well (`Clean.bind_inv`), as
long as what follows never takes the mark away (`Keeps`).
-/

namespace Sda
namespace Action

variable {σ ε α β : Type} {Good : σ → Prop}

/-- The computation does not end well from a state that is not good. -/
def Keeps (Good : σ → Prop) (x : Action σ ε α) : Prop := ∀ s, Good (x s).2 → Good s

/-- From some state, the computation ends with a value in a good state. -/
def Clean (Good : σ → Prop) (x : Action σ ε α) (a : α) : Prop := ∃ s s', x s = (.ok a, s') ∧ Good s'

namespace Keeps

theorem pure (a : α) : Keeps Good (pure a : Action σ ε α) := fun _ h => h

theorem fail (e : ε) : Keeps Good (Action.fail e : Action σ ε α) := fun _ h => h

theorem ofExcept (r : Except ε α) : Keeps Good (Action.ofExcept r : Action σ ε α) := fun _ h => h

theorem get : Keeps Good (Action.get : Action σ ε σ) := fun _ h => h

theorem modify {f : σ → σ} (hf : ∀ s, Good (f s) → Good s) :
    Keeps Good (Action.modify f : Action σ ε Unit) := hf

theorem bind {x : Action σ ε α} {f : α → Action σ ε β} (hx : Keeps Good x)
    (hf : ∀ a, Keeps Good (f a)) : Keeps Good (x >>= f) := by
  intro s h
  obtain ⟨r, s₁, hrun⟩ := exists_run x s
  have hs₁ : Good s₁ := by
    cases r with
    | error e =>
      rw [bind_of_error hrun] at h
      exact h
    | ok a =>
      rw [bind_of_ok hrun] at h
      exact hf a s₁ h
  refine hx s ?_
  rw [hrun]
  exact hs₁

end Keeps

namespace Clean

theorem pure_inv {a b : α} (h : Clean Good (pure a : Action σ ε α) b) : b = a := by
  obtain ⟨s, s', hrun, -⟩ := h
  cases hrun
  rfl

theorem fail_inv {e : ε} {a : α} (h : Clean Good (Action.fail e : Action σ ε α) a) : False := by
  obtain ⟨s, s', hrun, -⟩ := h
  cases hrun

theorem ofExcept_inv {r : Except ε α} {a : α}
    (h : Clean Good (Action.ofExcept r : Action σ ε α) a) :
    r = .ok a := by
  obtain ⟨s, s', hrun, -⟩ := h
  exact congrArg Prod.fst hrun

theorem modify_inv {f : σ → σ} {u : Unit} (h : Clean Good (Action.modify f : Action σ ε Unit) u) :
    ∃ s, Good (f s) := by
  obtain ⟨s, s', hrun, hgood⟩ := h
  cases hrun
  exact ⟨s, hgood⟩

/-- Both parts of a sequence that ended well did. -/
theorem bind_inv {x : Action σ ε α} {f : α → Action σ ε β} {b : β} (h : Clean Good (x >>= f) b)
    (hf : ∀ a, Keeps Good (f a)) : ∃ a, Clean Good x a ∧ Clean Good (f a) b := by
  obtain ⟨s, s', hrun, hgood⟩ := h
  obtain ⟨a, s₁, hx, hfa⟩ := bind_ok_inv hrun
  refine ⟨a, ⟨s, s₁, hx, hf a s₁ ?_⟩, ⟨s₁, s', hfa, hgood⟩⟩
  rw [hfa]
  exact hgood

end Clean
end Action
end Sda
