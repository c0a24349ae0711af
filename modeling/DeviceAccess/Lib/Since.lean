import Mathlib.Data.List.Basic

/-!
# Logs

A log keeps what happened, the last entry first.

* `Since clear mark log`: something marked happened, and nothing that clears it since. The mark sees
  the entries before it, so that a chain of entries is a mark whose earlier log has a mark, and so
  on.
* `Orderly proper log`: each entry was proper after the entries before it.
-/

namespace Sda

variable {α : Type} {clear : α → Prop} {mark proper : α → List α → Prop} {entry : α} {log : List α}

/-- A marked entry happened, and since then none that clears it. -/
def Since (clear : α → Prop) (mark : α → List α → Prop) : List α → Prop
  | [] => False
  | entry :: log => mark entry log ∨ ¬ clear entry ∧ Since clear mark log

theorem since_iff : Since clear mark log ↔
    ∃ later entry earlier, log = later ++ entry :: earlier ∧ mark entry earlier ∧
    ∀ other ∈ later, ¬ clear other := by
  induction log with
  | nil =>
    exact iff_of_false (fun h => h)
      (by rintro ⟨later, entry, earlier, hsplit, -⟩; cases later <;> cases hsplit)
  | cons first log ih =>
    rw [Since, ih]
    constructor
    · rintro (hmark | ⟨hclear, later, entry, earlier, rfl, hmark, hlater⟩)
      · exact ⟨[], first, log, rfl, hmark, nofun⟩
      · exact ⟨first :: later, entry, earlier, rfl, hmark, List.forall_mem_cons.mpr
          ⟨hclear, hlater⟩⟩
    · rintro ⟨later, entry, earlier, hsplit, hmark, hlater⟩
      cases later with
      | nil =>
        cases hsplit
        exact .inl hmark
      | cons last later =>
        cases hsplit
        obtain ⟨hclear, hlater⟩ := List.forall_mem_cons.mp hlater
        exact .inr ⟨hclear, later, entry, earlier, rfl, hmark, hlater⟩

/-- It was so before an entry that is not the mark. -/
theorem Since.tail (h : Since clear mark (entry :: log)) (hmark : ¬ mark entry log) :
    Since clear mark log :=
  (h.resolve_left hmark).2

/-- Entries that do not clear it leave it so. -/
theorem Since.append (h : Since clear mark log) {entries : List α}
    (hclear : ∀ entry ∈ entries, ¬ clear entry) :
    Since clear mark (entries ++ log) := by
  induction entries with
  | nil => exact h
  | cons entry entries ih =>
    obtain ⟨hentry, hentries⟩ := List.forall_mem_cons.mp hclear
    exact .inr ⟨hentry, ih hentries⟩

theorem Since.mono {clear' : α → Prop} {mark' : α → List α → Prop} (h : Since clear mark log)
    (hclear : ∀ entry, clear' entry → clear entry)
    (hmark : ∀ entry earlier, mark entry earlier → mark' entry earlier) :
    Since clear' mark' log := by
  induction log with
  | nil => exact h
  | cons entry log ih =>
    rcases h with h | ⟨hkept, h⟩
    · exact .inl (hmark entry log h)
    · exact .inr ⟨fun hc => hkept (hclear entry hc), ih h⟩

/-- An entry that is about something else changes nothing. -/
theorem since_cons_of_other (hmark : ¬ mark entry log) (hclear : ¬ clear entry) :
    Since clear mark (entry :: log) ↔ Since clear mark log := by
  rw [Since, or_iff_right hmark, and_iff_right hclear]

/-- So do several. -/
theorem since_append_of_other {entries : List α}
    (h : ∀ entry ∈ entries, (∀ earlier, ¬ mark entry earlier) ∧ ¬ clear entry) :
    Since clear mark (entries ++ log) ↔ Since clear mark log := by
  induction entries with
  | nil => exact Iff.rfl
  | cons entry entries ih =>
    obtain ⟨hentry, hentries⟩ := List.forall_mem_cons.mp h
    rw [List.cons_append, since_cons_of_other (hentry.1 _) hentry.2, ih hentries]

theorem not_since_cons (hclear : clear entry) (hmark : ¬ mark entry log) :
    ¬ Since clear mark (entry :: log) := by
  rintro (h | ⟨h, -⟩)
  · exact hmark h
  · exact h hclear

/-- Every entry was proper after those before it. -/
def Orderly (proper : α → List α → Prop) : List α → Prop
  | [] => True
  | entry :: log => proper entry log ∧ Orderly proper log

theorem orderly_iff : Orderly proper log ↔
    ∀ later entry earlier, log = later ++ entry :: earlier → proper entry earlier := by
  induction log with
  | nil => exact iff_of_true trivial fun later _ _ h => by cases later <;> cases h
  | cons first log ih =>
    rw [Orderly, ih]
    constructor
    · rintro ⟨hfirst, hrest⟩ later entry earlier hsplit
      cases later with
      | nil =>
        cases hsplit
        exact hfirst
      | cons last later =>
        cases hsplit
        exact hrest later entry earlier rfl
    · intro h
      refine ⟨h [] first log rfl, fun later entry earlier hsplit => ?_⟩
      exact h (first :: later) entry earlier (by rw [hsplit, List.cons_append])

theorem Orderly.of_append {entries : List α} (h : Orderly proper (entries ++ log)) :
    Orderly proper log := by
  induction entries with
  | nil => exact h
  | cons entry entries ih => exact ih h.2

theorem Orderly.append {entries : List α} (h : Orderly proper log)
    (hentries : ∀ entry ∈ entries, ∀ earlier, proper entry earlier) :
    Orderly proper (entries ++ log) := by
  induction entries with
  | nil => exact h
  | cons entry entries ih =>
    obtain ⟨hentry, hrest⟩ := List.forall_mem_cons.mp hentries
    exact ⟨hentry _, ih hrest⟩

end Sda
