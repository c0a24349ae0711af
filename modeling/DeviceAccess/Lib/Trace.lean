import Mathlib.Data.List.Basic

/-!
# Runs of a state that changes by acts

`Run step P s past s'`: from `s`, acts that were each allowed (`P`) at the state they met led to
`s'`. `past` keeps every earlier state with the act that ended it, the last one first, so that a
property can be stated of every moment of a run.

* `Run.invariant`: what every allowed act preserves holds at every moment.
* `Run.refine`: under an invariant the acts of a run are known more precisely.
-/

namespace Sda

variable {S A : Type} {step : S → A → S} {P Q : S → A → Prop} {s s' s'' : S}
  {past later : List (S × A)}

/-- Acts, each allowed where it was made. -/
inductive Run (step : S → A → S) (P : S → A → Prop) : S → List (S × A) → S → Prop
  | nil (s : S) : Run step P s [] s
  | cons {s s' : S} {past : List (S × A)} {a : A} (run : Run step P s past s') (allowed : P s' a) :
    Run step P s ((s', a) :: past) (step s' a)

namespace Run

theorem single {a : A} (h : P s a) : Run step P s [(s, a)] (step s a) := .cons (.nil s) h

theorem append (h : Run step P s past s') (h' : Run step P s' later s'') :
    Run step P s (later ++ past) s'' := by
  induction h' with
  | nil => exact h
  | cons _ allowed ih => exact .cons ih allowed

/-- Under an invariant that `P` preserves, acts allowed by `P` are allowed by what `P` then implies.
-/
theorem refine (I : S → Prop) (hstep : ∀ s a, I s → P s a → Q s a ∧ I (step s a))
    (h : Run step P s past s') (hs : I s) : Run step Q s past s' ∧ I s' := by
  induction h with
  | nil => exact ⟨.nil _, hs⟩
  | cons _ allowed ih =>
    obtain ⟨hrun, hlast⟩ := ih
    obtain ⟨hq, hnext⟩ := hstep _ _ hlast allowed
    exact ⟨.cons hrun hq, hnext⟩

theorem mono (hpq : ∀ s a, P s a → Q s a) (h : Run step P s past s') : Run step Q s past s' :=
  (refine (fun _ => True) (fun s a _ ha => ⟨hpq s a ha, trivial⟩) h trivial).1

/-- What every allowed act preserves holds at the end and at every earlier moment. -/
theorem invariant (I : S → Prop) (hstep : ∀ s a, I s → P s a → I (step s a))
    (h : Run step P s past s') (hs : I s) : I s' ∧ ∀ moment ∈ past, I moment.1 := by
  induction h with
  | nil => exact ⟨hs, nofun⟩
  | cons _ allowed ih =>
    obtain ⟨hlast, hpast⟩ := ih
    exact ⟨hstep _ _ hlast allowed, List.forall_mem_cons.mpr ⟨hlast, hpast⟩⟩

/-- Every act of a run was allowed. -/
theorem allowed (h : Run step P s past s') : ∀ moment ∈ past, P moment.1 moment.2 := by
  induction h with
  | nil => exact nofun
  | cons _ ha ih => exact List.forall_mem_cons.mpr ⟨ha, ih⟩

/-- A run whose acts also meet `Q`. -/
theorem restrict (h : Run step P s past s') (hq : ∀ moment ∈ past, Q moment.1 moment.2) :
    Run step (fun s a => P s a ∧ Q s a) s past s' := by
  induction h with
  | nil => exact .nil _
  | cons _ ha ih =>
    obtain ⟨hlast, hrest⟩ := List.forall_mem_cons.mp hq
    exact .cons (ih hrest) ⟨ha, hlast⟩

/-- What led to a moment of a run. -/
theorem upTo {a : A} {earlier : List (S × A)} (h : Run step P s (later ++ (s', a) :: earlier) s'') :
    Run step P s earlier s' := by
  induction later generalizing s'' with
  | nil =>
    cases h with
    | cons run _ => exact run
  | cons _ _ ih =>
    cases h with
    | cons run _ => exact ih run

end Run
end Sda
