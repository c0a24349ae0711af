import Mathlib.Data.List.Forall2

/-!
# Lists that correspond element by element
-/

namespace Sda

theorem forall₂_exists_left {α β : Type} {R : α → β → Prop} {l : List α} {l' : List β}
    (h : List.Forall₂ R l l') {b : β} (hb : b ∈ l') : ∃ a ∈ l, R a b := by
  induction h with
  | nil => cases hb
  | cons hfirst _ ih =>
    rcases List.mem_cons.mp hb with rfl | hb
    · exact ⟨_, List.mem_cons_self, hfirst⟩
    · obtain ⟨a, ha, hr⟩ := ih hb
      exact ⟨a, List.mem_cons_of_mem _ ha, hr⟩

theorem forall₂_exists_right {α β : Type} {R : α → β → Prop} {l : List α} {l' : List β}
    (h : List.Forall₂ R l l') {a : α} (ha : a ∈ l) : ∃ b ∈ l', R a b :=
  forall₂_exists_left h.flip ha

/-- What two lists that correspond show of themselves. -/
theorem forall₂_map_eq {α β γ : Type} {l : List α} {l' : List β} {f : α → γ} {g : β → γ}
    (h : List.Forall₂ (fun a b => f a = g b) l l') : l.map f = l'.map g := by
  induction h with
  | nil => rfl
  | cons hfirst _ ih => rw [List.map_cons, List.map_cons, hfirst, ih]

/-- What holds between any two elements of a list holds, in its own terms, of a list that
corresponds. -/
theorem forall₂_pairwise {α β : Type} {R : α → β → Prop} {P : α → α → Prop} {Q : β → β → Prop}
    (hpq : ∀ a b a' b', R a b → R a' b' → P a a' → Q b b') {l : List α} {l' : List β}
    (h : List.Forall₂ R l l') (hl : l.Pairwise P) : l'.Pairwise Q := by
  induction h with
  | nil => exact .nil
  | cons hfirst hrest ih =>
    obtain ⟨hhead, htail⟩ := List.pairwise_cons.mp hl
    refine List.pairwise_cons.mpr ⟨fun b' hb' => ?_, ih htail⟩
    obtain ⟨a', ha', hr⟩ := forall₂_exists_left hrest hb'
    exact hpq _ _ _ _ hfirst hr (hhead a' ha')

end Sda
