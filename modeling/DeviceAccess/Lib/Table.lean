import Mathlib.Data.List.Sort
import Mathlib.Data.String.Basic

/-!
# Finite maps

A `Table κ α` is a finite map with its keys in order. What it holds is given by its lookup function
`get`, and each operation by what it does to lookups.
-/

namespace Sda

/-- A finite map: the value of each key, and the keys that have one. -/
structure Table (κ α : Type) where
  keys : List κ
  get : κ → Option α
  mem_keys : ∀ key, key ∈ keys ↔ (get key).isSome = true

namespace Table

variable {κ α β : Type}

def empty : Table κ α := ⟨[], fun _ => none, fun _ => iff_of_false List.not_mem_nil nofun⟩

def isEmpty (table : Table κ α) : Bool := table.keys.isEmpty

def any (table : Table κ α) (fits : α → Bool) : Bool :=
  table.keys.any fun key => (table.get key).any fits

/-- Every value changed. -/
def map (table : Table κ α) (f : α → β) : Table κ β where
  keys := table.keys
  get key := (table.get key).map f
  mem_keys key := by rw [table.mem_keys, Option.isSome_map]

/-- Only the entries that fit. -/
def retain (table : Table κ α) (fits : κ → α → Bool) : Table κ α where
  keys := table.keys.filter fun key => (table.get key).any (fits key)
  get key := (table.get key).filter (fits key)
  mem_keys key := by
    rw [List.mem_filter, table.mem_keys]
    cases table.get key with
    | none => simp
    | some value => by_cases h : fits key value <;> simp [h]

section Ordered

variable [LinearOrder κ]

def insert (table : Table κ α) (key : κ) (value : α) : Table κ α where
  keys := if key ∈ table.keys then table.keys else table.keys.orderedInsert (· ≤ ·) key
  get := Function.update table.get key (some value)
  mem_keys other := by
    by_cases hother : other = key
    · subst hother
      rw [Function.update_self]
      refine iff_of_true ?_ rfl
      split
      next h => exact h
      next => exact (List.mem_orderedInsert _).mpr (.inl rfl)
    · rw [Function.update_of_ne hother, ← table.mem_keys other]
      split
      next => exact Iff.rfl
      next => rw [List.mem_orderedInsert, or_iff_right hother]

def erase (table : Table κ α) (key : κ) : Table κ α where
  keys := table.keys.filter (· ≠ key)
  get := Function.update table.get key none
  mem_keys other := by
    by_cases hother : other = key
    · subst hother
      simp
    · rw [Function.update_of_ne hother, ← table.mem_keys other]
      simp [hother]

variable {table : Table κ α} {key other : κ} {value : α}

@[simp] theorem get_insert_self : (table.insert key value).get key = some value :=
  Function.update_self ..

theorem get_insert_of_ne (h : other ≠ key) : (table.insert key value).get other = table.get other :=
  Function.update_of_ne h ..

@[simp] theorem get_erase_self : (table.erase key).get key = none := Function.update_self ..

theorem get_erase_of_ne (h : other ≠ key) : (table.erase key).get other = table.get other :=
  Function.update_of_ne h ..

end Ordered

variable {table : Table κ α} {key : κ} {value : α} {fits : α → Bool}

theorem isEmpty_iff : table.isEmpty = true ↔ ∀ key, table.get key = none := by
  rw [isEmpty, List.isEmpty_iff, List.eq_nil_iff_forall_not_mem]
  refine forall_congr' fun key => ?_
  rw [table.mem_keys, Bool.not_eq_true, Option.isSome_eq_false_iff, Option.isNone_iff_eq_none]

/-- No entry of the table fits. -/
theorem any_eq_false : table.any fits = false ↔ ∀ key value, table.get key = some value →
    fits value = false := by
  rw [any, List.any_eq_false]
  constructor
  · intro h key value hget
    have := h key ((table.mem_keys key).mpr (by rw [hget]; rfl))
    simpa [hget] using this
  · intro h key _
    cases hget : table.get key with
    | none => simp
    | some value => simp [h key value hget]

end Table
end Sda
