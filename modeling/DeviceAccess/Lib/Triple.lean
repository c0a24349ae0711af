import DeviceAccess.Lib.Action

/-!
# Pre- and postconditions of computations that can fail

`Triple pre x ok err`: run where `pre` holds, `x` either answers a value and `ok` holds of it and
the state, or fails and `err` holds of the error and the state. A computation keeps what it did when
it fails, so the second postcondition is about the state as well.
-/

namespace Sda

variable {σ ε ε' α β : Type}

/-- `ok` holds after an answer of `x`, `err` after a failure. -/
def Triple (pre : σ → Prop) (x : Action σ ε α) (ok : α → σ → Prop) (err : ε → σ → Prop) : Prop :=
  ∀ s, pre s →
    match x s with
    | (.ok a, s') => ok a s'
    | (.error e, s') => err e s'

namespace Triple

variable {pre pre' : σ → Prop} {x : Action σ ε α} {f : α → Action σ ε β} {ok ok' : α → σ → Prop}
  {err err' : ε → σ → Prop} {post : β → σ → Prop} {s s' : σ}

theorem of_ok (h : Triple pre x ok err) (hs : pre s) {a : α} (hx : x s = (.ok a, s')) :
    ok a s' := by
  have := h s hs
  rwa [hx] at this

theorem of_error (h : Triple pre x ok err) (hs : pre s) {e : ε} (hx : x s = (.error e, s')) :
    err e s' := by
  have := h s hs
  rwa [hx] at this

/-- What holds after either outcome. -/
theorem after {K : σ → Prop} (h : Triple pre x (fun _ => K) fun _ => K) (hs : pre s) :
    K (x s).2 := by
  cases hx : x s with
  | mk r s' =>
    cases r with
    | error e => exact h.of_error hs hx
    | ok a => exact h.of_ok hs hx

theorem bind (hx : Triple pre x ok err) (hf : ∀ a, Triple (ok a) (f a) post err) :
    Triple pre (x >>= f) post err := by
  intro s hs
  cases h : x s with
  | mk r s' =>
    cases r with
    | error e =>
      rw [Action.bind_of_error h]
      exact hx.of_error hs h
    | ok a =>
      rw [Action.bind_of_ok h]
      exact hf a s' (hx.of_ok hs h)

theorem weaken (h : Triple pre x ok err) (hpre : ∀ s, pre' s → pre s)
    (hok : ∀ a s, ok a s → ok' a s) (herr : ∀ e s, err e s → err' e s) :
    Triple pre' x ok' err' := by
  intro s hs
  cases hx : x s with
  | mk r s' =>
    cases r with
    | error e => exact herr e s' (h.of_error (hpre s hs) hx)
    | ok a => exact hok a s' (h.of_ok (hpre s hs) hx)

theorem of_pre (pre : σ → Prop) (h : Triple pre x ok err) (hpre : ∀ s, pre' s → pre s) :
    Triple pre' x ok err :=
  h.weaken hpre (fun _ _ h => h) fun _ _ h => h

/-- A part of the precondition that is not about the state. -/
theorem lift {p : Prop} (h : p → Triple pre x ok err) : Triple (fun s => p ∧ pre s) x ok err :=
  fun s hs =>
  h hs.1 s hs.2

theorem or (h : Triple pre x ok err) (h' : Triple pre' x ok err) :
    Triple (fun s => pre s ∨ pre' s) x ok err :=
  fun s hs => hs.elim (h s) (h' s)

theorem pure (a : α) (h : ∀ s, pre s → ok a s) : Triple pre (Pure.pure a : Action σ ε α) ok err := h

theorem fail (e : ε) (h : ∀ s, pre s → err e s) : Triple pre (Action.fail e) ok err := h

theorem modify {g : σ → σ} {ok : Unit → σ → Prop} (h : ∀ s, pre s → ok () (g s)) :
    Triple pre (Action.modify g) ok err := h

theorem ite {c : Prop} [Decidable c] {y : Action σ ε α} (hx : c → Triple pre x ok err)
    (hy : ¬ c → Triple pre y ok err) : Triple pre (if c then x else y) ok err := by
  by_cases hc : c
  · rw [if_pos hc]
    exact hx hc
  · rw [if_neg hc]
    exact hy hc

/-- The state that was looked at. -/
theorem get : Triple pre (Action.get : Action σ ε σ) (fun seen s => s = seen ∧ pre s) err :=
  fun _ hs =>
  ⟨rfl, hs⟩

theorem ofExcept (r : Except ε α) (hok : ∀ a s, r = .ok a → pre s → ok a s)
    (herr : ∀ e s, r = .error e → pre s → err e s) : Triple pre (Action.ofExcept r) ok err := by
  intro s hs
  cases r with
  | error e => exact herr e s rfl hs
  | ok a => exact hok a s rfl hs

theorem mapErr {g : ε → ε'} {err : ε' → σ → Prop} (h : Triple pre x ok fun e => err (g e)) :
    Triple pre (Action.mapErr g x) ok err := by
  intro s hs
  cases hx : x s with
  | mk r s' =>
    cases r with
    | error e =>
      rw [Action.mapErr_of_error hx]
      exact h.of_error hs hx
    | ok a =>
      rw [Action.mapErr_of_ok hx]
      exact h.of_ok hs hx

/-- A failure that is looked at. -/
theorem attempt {err' : ε' → σ → Prop} (post : Except ε α → σ → Prop)
    (h : Triple pre x (fun a => post (.ok a)) fun e => post (.error e)) :
    Triple pre (Action.attempt x) post err' := by
  intro s hs
  cases hx : x s with
  | mk r s' =>
    rw [Action.attempt_eq hx]
    cases r with
    | error e => exact h.of_error hs hx
    | ok a => exact h.of_ok hs hx

/-- What is done about either outcome. -/
theorem attempt_bind {g : Except ε α → Action σ ε' β} {err' : ε' → σ → Prop}
    (hx : Triple pre x ok err) (hok : ∀ a, Triple (ok a) (g (.ok a)) post err')
    (herr : ∀ e, Triple (err e) (g (.error e)) post err') :
    Triple pre (Action.attempt x >>= g) post err' := by
  intro s hs
  cases h : x s with
  | mk r s' =>
    rw [Action.bind_of_ok (Action.attempt_eq h)]
    cases r with
    | error e => exact herr e s' (hx.of_error hs h)
    | ok a => exact hok a s' (hx.of_ok hs h)

end Triple
end Sda
