/-!
# Computations that can fail and keep what they did

An `Action σ ε α` runs on a state `σ` and answers an error or a value. What it did to the state
stays when it fails, so that a failure in the middle of a sequence of changes can be looked at.

A run is an equation `x s = (r, s')`, and a proof takes a run apart with the inversion lemmas:
`bind_inv` for a sequence, `mapErr_inv` for an error that is given a context.
-/

namespace Sda

/-- A computation on a state that can fail. -/
def Action (σ ε α : Type) : Type := σ → Except ε α × σ

namespace Action

variable {σ τ ε ε' α β : Type}

instance : Monad (Action σ ε) where
  pure a := fun s => (.ok a, s)
  bind x f := fun s =>
    match x s with
    | (.ok a, s') => f a s'
    | (.error e, s') => (.error e, s')

def fail (e : ε) : Action σ ε α := fun s => (.error e, s)

def get : Action σ ε σ := fun s => (.ok s, s)

def modify (f : σ → σ) : Action σ ε Unit := fun s => (.ok (), f s)

/-- A computation that does not look at the state. -/
def ofExcept (r : Except ε α) : Action σ ε α := fun s => (r, s)

/-- The same computation with its error in a context. -/
def mapErr (f : ε → ε') (x : Action σ ε α) : Action σ ε' α := fun s =>
  ((x s).1.mapError f, (x s).2)

/-- The outcome as a value. -/
def attempt (x : Action σ ε α) : Action σ ε' (Except ε α) := fun s => (.ok (x s).1, (x s).2)

/-- A computation on a part of the state. -/
def zoom (part : σ → τ) (put : σ → τ → σ) (x : Action τ ε α) : Action σ ε α := fun s =>
  ((x (part s)).1, put s (x (part s)).2)

/-! ## Runs -/

variable {x : Action σ ε α} {f : α → Action σ ε β} {s s' : σ}

/-- Every computation ends. -/
theorem exists_run (x : Action σ ε α) (s : σ) : ∃ r s', x s = (r, s') := ⟨_, _, rfl⟩

theorem bind_of_ok {a : α} (h : x s = (.ok a, s')) : (x >>= f) s = f a s' := by
  show (match x s with | (.ok a, s') => f a s' | (.error e, s') => (.error e, s')) = f a s'
  rw [h]

theorem bind_of_error {e : ε} (h : x s = (.error e, s')) : (x >>= f) s = (.error e, s') := by
  show (match x s with | (.ok a, s') => f a s' | (.error e, s') => (.error e, s')) = (.error e, s')
  rw [h]

/-- A sequence stopped in its first part, or went on from the state that part left. -/
theorem bind_inv {r : Except ε β} (h : (x >>= f) s = (r, s')) :
    (∃ e, x s = (.error e, s') ∧ r = .error e) ∨ ∃ a s₁, x s = (.ok a, s₁) ∧ f a s₁ = (r, s') := by
  cases hx : x s with
  | mk r₁ s₁ =>
    cases r₁ with
    | error e =>
      rw [bind_of_error hx] at h
      cases h
      exact .inl ⟨e, rfl, rfl⟩
    | ok a =>
      rw [bind_of_ok hx] at h
      exact .inr ⟨a, s₁, rfl, h⟩

theorem bind_ok_inv {b : β} (h : (x >>= f) s = (.ok b, s')) :
    ∃ a s₁, x s = (.ok a, s₁) ∧ f a s₁ = (.ok b, s') := by
  rcases bind_inv h with ⟨e, -, he⟩ | h
  · cases he
  · exact h

theorem mapErr_inv {g : ε → ε'} {r : Except ε' α} (h : mapErr g x s = (r, s')) :
    (∃ e, x s = (.error e, s') ∧ r = .error (g e)) ∨ ∃ a, x s = (.ok a, s') ∧ r = .ok a := by
  cases hx : x s with
  | mk r₁ s₁ =>
    rw [mapErr, hx] at h
    cases r₁ with
    | error e => cases h; exact .inl ⟨e, rfl, rfl⟩
    | ok a => cases h; exact .inr ⟨a, rfl, rfl⟩

theorem mapErr_ok_inv {g : ε → ε'} {a : α} (h : mapErr g x s = (.ok a, s')) :
    x s = (.ok a, s') := by
  rcases mapErr_inv h with ⟨e, -, he⟩ | ⟨b, hx, hb⟩
  · cases he
  · cases hb; exact hx

theorem mapErr_error_inv {g : ε → ε'} {e : ε'} (h : mapErr g x s = (.error e, s')) :
    ∃ cause, x s = (.error cause, s') ∧ e = g cause := by
  rcases mapErr_inv h with ⟨cause, hx, he⟩ | ⟨b, -, hb⟩
  · cases he; exact ⟨cause, hx, rfl⟩
  · cases hb

theorem mapErr_of_ok {g : ε → ε'} {a : α} (h : x s = (.ok a, s')) :
    mapErr g x s = (.ok a, s') := by
  rw [mapErr, h]
  rfl

theorem mapErr_of_error {g : ε → ε'} {e : ε} (h : x s = (.error e, s')) :
    mapErr g x s = (.error (g e), s') := by
  rw [mapErr, h]
  rfl

theorem attempt_eq {r : Except ε α} (h : x s = (r, s')) :
    (attempt x : Action σ ε' (Except ε α)) s = (.ok r, s') := by
  rw [attempt, h]

/-! ## Computations that only look -/

/-- The computation never changes the state. -/
def Steady (x : Action σ ε α) : Prop := ∀ s, (x s).2 = s

namespace Steady

theorem bind (hx : Steady x) (hf : ∀ a, Steady (f a)) : Steady (x >>= f) := by
  intro s
  cases h : x s with
  | mk r s' =>
    obtain rfl : s = s' := by rw [← hx s, h]
    cases r with
    | error e => rw [bind_of_error h]
    | ok a => rw [bind_of_ok h, hf a]

theorem attempt (hx : Steady x) : Steady (attempt x : Action σ ε' (Except ε α)) := hx

theorem mapErr (hx : Steady x) (g : ε → ε') : Steady (mapErr g x) := hx

end Steady
end Action
end Sda
