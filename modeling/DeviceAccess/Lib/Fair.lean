import Mathlib.Data.Nat.Init

/-!
# Endless executions and weak fairness

An `Execution` goes on for ever; at each time an enabled act is made, or nothing happens. It is fair
to an act if that act, once it stays enabled, is made.

`Execution.leadsTo` is the rule for what must happen: while it has not, some act is enabled that
brings it nearer, and stays the helpful one until it is made or the rank drops anyway.
-/

namespace Sda

variable {S A : Type}

/-- The state and the act at each time. -/
structure Execution (step : S → A → S) (enabled : S → A → Prop) (start : S) where
  state : Nat → S
  act : Nat → Option A
  first : state 0 = start
  next : ∀ n, (act n = none ∧ state (n + 1) = state n) ∨
    ∃ a, act n = some a ∧ enabled (state n) a ∧ state (n + 1) = step (state n) a

namespace Execution

variable {step : S → A → S} {enabled : S → A → Prop} {start : S}
  (exec : Execution step enabled start)

/-- An act that stays enabled is made. -/
def WeaklyFair (a : A) : Prop := ∀ n, (∀ m, n ≤ m → enabled (exec.state m) a) → ∃ m, n ≤ m ∧
    exec.act m = some a

/-- `goal` is met at time `m`. -/
def Meets (goal : S → A → Prop) (m : Nat) : Prop := ∃ a, exec.act m = some a ∧ goal (exec.state m) a

variable {exec}

/-- **Ranked progress.** While `waiting`, the act `helper` is enabled and meets the goal or lowers
the rank; every other act meets the goal, lowers the rank, or leaves rank and helper as they are. -/
theorem leadsTo (waiting : S → Prop) {goal : S → A → Prop} (rank : S → Nat) (helper : S → A)
    (hkeep : ∀ s a, waiting s → enabled s a → goal s a ∨ waiting (step s a) ∧
      (rank (step s a) < rank s ∨ a ≠ helper s ∧ rank (step s a) = rank s ∧
        helper (step s a) = helper s))
    (henabled : ∀ s, waiting s → enabled s (helper s))
    (hfair : ∀ s, waiting s → exec.WeaklyFair (helper s)) {n : Nat} (hn : waiting (exec.state n)) :
    ∃ m, n ≤ m ∧ exec.Meets goal m := by
  induction hrank : rank (exec.state n) using Nat.strongRecOn generalizing n with
  | ind r ih =>
    refine Classical.byContradiction fun hnever => ?_
    -- Without the goal and without a lower rank, the helper stays the same and enabled.
    have hstays : ∀ m, n ≤ m → waiting (exec.state m) ∧ rank (exec.state m) = r ∧
        helper (exec.state m) = helper (exec.state n) := by
      intro m hm
      induction m, hm using Nat.le_induction with
      | base => exact ⟨hn, hrank, rfl⟩
      | succ m hm ih' =>
        obtain ⟨hwaiting, hr, hhelper⟩ := ih'
        rcases exec.next m with ⟨-, hsame⟩ | ⟨a, hact, hallowed, hnext⟩
        · rw [hsame]
          exact ⟨hwaiting, hr, hhelper⟩
        · rw [hnext]
          rcases hkeep _ _ hwaiting hallowed with hgoal | ⟨hwaits, hlower | ⟨-, hequal, hhelps⟩⟩
          · exact absurd ⟨m, hm, a, hact, hgoal⟩ hnever
          · rw [← hnext] at hwaits hlower
            obtain ⟨m', hm', hmeets⟩ := ih _ (hr ▸ hlower) hwaits rfl
            exact absurd ⟨m', by omega, hmeets⟩ hnever
          · exact ⟨hwaits, hequal.trans hr, hhelps.trans hhelper⟩
    obtain ⟨m, hm, hact⟩ := hfair _ hn n fun m hm => by
      have hstay := hstays m hm
      rw [← hstay.2.2]
      exact henabled _ hstay.1
    obtain ⟨hwaiting, hr, hhelper⟩ := hstays m hm
    rcases exec.next m with ⟨hnone, -⟩ | ⟨a, hact', hallowed, hnext⟩
    · rw [hact] at hnone
      cases hnone
    · obtain rfl : helper (exec.state n) = a := Option.some.inj (hact.symm.trans hact')
      rcases hkeep _ _ hwaiting hallowed with hgoal | ⟨-, hlower | ⟨hother, -⟩⟩
      · exact hnever ⟨m, hm, _, hact, hgoal⟩
      · rw [← hnext, (hstays (m + 1) (by omega)).2.1, hr] at hlower
        exact Nat.lt_irrefl _ hlower
      · exact hother hhelper.symm

end Execution
end Sda
