import Mathlib.Data.List.Forall2

/-!
# What becomes of the elements of a list

`Descent gone becomes as bs`: from left to right, each element of `as` became the next element of
`bs` or is gone, and the rest of `bs` is new. Descents compose (`Descent.trans`), so what holds of
one change of a list holds of many.
-/

namespace Sda

variable {α : Type} {gone gone' gone'' : α → Prop} {becomes becomes' becomes'' : α → α → Prop}
  {as bs cs : List α}

/-- Each element became the next one or is gone, and what is left is new. -/
inductive Descent (gone : α → Prop) (becomes : α → α → Prop) : List α → List α → Prop
  | new (added : List α) : Descent gone becomes [] added
  | stays {a b : α} {as bs : List α} (became : becomes a b) (rest : Descent gone becomes as bs) :
    Descent gone becomes (a :: as) (b :: bs)
  | goes {a : α} {as bs : List α} (went : gone a) (rest : Descent gone becomes as bs) :
    Descent gone becomes (a :: as) bs

namespace Descent

theorem of_forall₂ (h : List.Forall₂ becomes as bs) : Descent gone becomes as bs := by
  induction h with
  | nil => exact .new []
  | cons became _ ih => exact .stays became ih

theorem refl (h : ∀ a, becomes a a) (as : List α) : Descent gone becomes as as :=
  of_forall₂ (List.forall₂_same.mpr fun a _ => h a)

theorem append (h : ∀ a, becomes a a) (as added : List α) :
    Descent gone becomes as (as ++ added) := by
  induction as with
  | nil => exact .new added
  | cons a as ih => exact .stays (h a) ih

theorem filter {p : α → Bool} (h : ∀ a, becomes a a) (as : List α)
    (hgone : ∀ a ∈ as, p a = false → gone a) :
    Descent gone becomes as (as.filter p) := by
  induction as with
  | nil => exact .new []
  | cons a as ih =>
    obtain ⟨hfirst, hrest⟩ := List.forall_mem_cons.mp hgone
    cases hp : p a with
    | true =>
      rw [List.filter_cons_of_pos hp]
      exact .stays (h a) (ih hrest)
    | false =>
      rw [List.filter_cons_of_neg (by rw [hp]; exact Bool.false_ne_true)]
      exact .goes (hfirst hp) (ih hrest)

theorem eraseP {p : α → Bool} (h : ∀ a, becomes a a) (as : List α)
    (hgone : ∀ a, p a = true → gone a) :
    Descent gone becomes as (as.eraseP p) := by
  induction as with
  | nil => exact .new []
  | cons a as ih =>
    cases hp : p a with
    | true =>
      rw [List.eraseP_cons_of_pos hp]
      exact .goes (hgone a hp) (.refl h as)
    | false =>
      rw [List.eraseP_cons_of_neg (by rw [hp]; exact Bool.false_ne_true)]
      exact .stays (h a) ih

theorem trans (h : Descent gone becomes as bs) (h' : Descent gone' becomes' bs cs)
    (hbecomes : ∀ a b c, becomes a b → becomes' b c → becomes'' a c)
    (hgone : ∀ a, gone a → gone'' a) (hlater : ∀ a b, becomes a b → gone' b → gone'' a) :
    Descent gone'' becomes'' as cs := by
  induction h generalizing cs with
  | new => exact .new cs
  | goes went _ ih => exact .goes (hgone _ went) (ih h')
  | stays became _ ih =>
    cases h' with
    | stays became' rest => exact .stays (hbecomes _ _ _ became became') (ih rest)
    | goes went rest => exact .goes (hlater _ _ became went) (ih rest)

end Descent
end Sda
