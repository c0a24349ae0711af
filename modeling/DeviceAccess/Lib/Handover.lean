import Mathlib.Data.List.Perm.Basic
import Mathlib.Data.List.Nodup

/-!
# Replacing the members of a list part by part

A list is changed by edits: something new is attached, something old detached, or something new
put in place of something old (`Edit`). When an edit may stop halfway, the list is at any moment
what a number of edits made of it, or that with the new element of the next pair (`Reached`).

The edits come in parts (`Part`). A part accounts for some members of the list and leaves one
stand-in for them: a member that is kept while the others are dropped, a new element put in place
of the first of them, or a new element that replaces nothing.

* `settled_parts`: when all edits are done, the list holds exactly the stand-ins.
* `Reached.cover`: at any moment each member, or the stand-in of its part, is in the list.
* `Reached.mem`: at any moment the list holds members and stand-ins only.
-/

namespace Sda
namespace Handover

variable {α β : Type}

/-! ## Edits -/

/-- One change to a list. -/
inductive Edit (α : Type) where
  | attach (new : α)
  | detach (old : α)
  | pair (old new : α)
  deriving DecidableEq, Repr

def Edit.olds : Edit α → List α
  | .attach _ => []
  | .detach old => [old]
  | .pair old _ => [old]

def Edit.news : Edit α → List α
  | .attach new => [new]
  | .detach _ => []
  | .pair _ new => [new]

/-- What the edits take away. -/
def olds (edits : List (Edit α)) : List α := edits.flatMap Edit.olds

/-- What the edits bring. -/
def news (edits : List (Edit α)) : List α := edits.flatMap Edit.news

@[simp] theorem olds_append (a b : List (Edit α)) : olds (a ++ b) = olds a ++ olds b :=
  List.flatMap_append

@[simp] theorem news_append (a b : List (Edit α)) : news (a ++ b) = news a ++ news b :=
  List.flatMap_append

@[simp] theorem olds_cons (e : Edit α) (es : List (Edit α)) : olds (e :: es) = e.olds ++ olds es :=
  List.flatMap_cons

@[simp] theorem news_cons (e : Edit α) (es : List (Edit α)) : news (e :: es) = e.news ++ news es :=
  List.flatMap_cons

@[simp] theorem olds_nil : olds ([] : List (Edit α)) = [] := rfl

@[simp] theorem news_nil : news ([] : List (Edit α)) = [] := rfl

@[simp] theorem olds_map_detach (l : List α) : olds (l.map Edit.detach) = l := by
  induction l with
  | nil => rfl
  | cons x l ih => rw [List.map_cons, olds_cons, ih]; rfl

@[simp] theorem news_map_detach (l : List α) : news (l.map Edit.detach) = [] := by
  induction l with
  | nil => rfl
  | cons x l ih => rw [List.map_cons, news_cons, ih]; rfl

/-- The edits can be made: what they take away is there, what they bring is not. -/
structure Fits (start : List α) (edits : List (Edit α)) : Prop where
  start_nodup : start.Nodup
  olds_mem : ∀ x ∈ olds edits, x ∈ start
  olds_nodup : (olds edits).Nodup
  news_nodup : (news edits).Nodup
  news_fresh : ∀ x ∈ news edits, x ∉ start

section Reached

variable [DecidableEq α]

/-- What the edits `done` make of the list, up to order. -/
def settled (start : List α) (done : List (Edit α)) : List α :=
  start.filter (· ∉ olds done) ++ news done

/-- A list met while the edits are made. -/
def Reached (start : List α) (edits : List (Edit α)) (now : List α) : Prop :=
  ∃ done rest, edits = done ++ rest ∧
    (now.Perm (settled start done) ∨
      ∃ old new tail, rest = .pair old new :: tail ∧ now.Perm (settled start done ++ [new]))

@[simp] theorem settled_nil (start : List α) : settled start [] = start := by simp [settled]

variable {start now : List α} {done rest edits : List (Edit α)} {e : Edit α} {old new : α}

theorem reached_start (edits : List (Edit α)) : Reached start edits start :=
  ⟨[], edits, rfl, .inl (by rw [settled_nil])⟩

theorem mem_settled {x : α} : x ∈ settled start done ↔ x ∈ start ∧ x ∉ olds done ∨
    x ∈ news done := by
  simp [settled]

/-! ### Where one edit finds the list -/

omit [DecidableEq α] in
theorem Fits.old_mem (hf : Fits start (done ++ e :: rest)) (ho : old ∈ e.olds) :
    old ∈ start ∧ old ∉ olds done := by
  refine ⟨hf.olds_mem old (by simp [ho]), fun hd => ?_⟩
  have h := hf.olds_nodup
  rw [olds_append, olds_cons] at h
  exact (List.nodup_append.mp h).2.2 old hd old (by simp [ho]) rfl

theorem Fits.new_notMem (hf : Fits start (done ++ e :: rest)) (hn : new ∈ e.news) :
    new ∉ settled start done := by
  have h := hf.news_nodup
  rw [news_append, news_cons] at h
  rw [mem_settled]
  rintro (⟨hs, -⟩ | hd)
  · exact hf.news_fresh new (by simp [hn]) hs
  · exact (List.nodup_append.mp h).2.2 new hd new (by simp [hn]) rfl

theorem Fits.erase (hf : Fits start (done ++ e :: rest)) (ho : old ∈ e.olds) :
    ((settled start done).erase old).Perm (start.filter (· ∉ olds done ++ [old]) ++ news done) := by
  obtain ⟨hs, hd⟩ := hf.old_mem ho
  have hmem : old ∈ start.filter (· ∉ olds done) := by simp [hs, hd]
  rw [settled, List.erase_append_left _ hmem, (hf.start_nodup.filter _).erase_eq_filter,
    List.filter_filter]
  refine .append_right _ (.of_eq (List.filter_congr fun x _ => ?_))
  by_cases hx : x = old <;> simp [hx]

theorem Fits.attach (hf : Fits start (done ++ .attach new :: rest))
    (hp : now.Perm (settled start done)) :
    new ∉ now ∧ (now ++ [new]).Perm (settled start (done ++ [.attach new])) := by
  refine ⟨fun h => hf.new_notMem List.mem_cons_self (hp.mem_iff.mp h), ?_⟩
  refine (hp.append_right [new]).trans (.of_eq ?_)
  simp [settled, Edit.olds, Edit.news]

theorem Fits.detach (hf : Fits start (done ++ .detach old :: rest))
    (hp : now.Perm (settled start done)) :
    old ∈ now ∧ (now.erase old).Perm (settled start (done ++ [.detach old])) := by
  have ho : old ∈ (Edit.detach old).olds := List.mem_cons_self
  refine ⟨hp.mem_iff.mpr (mem_settled.mpr (.inl (hf.old_mem ho))), ?_⟩
  refine ((hp.erase old).trans (hf.erase ho)).trans (.of_eq ?_)
  simp [settled, Edit.olds, Edit.news]

theorem Fits.pair (hf : Fits start (done ++ .pair old new :: rest))
    (hp : now.Perm (settled start done)) :
    old ∈ now ∧ new ∉ now ∧
    (new :: now.erase old).Perm (settled start (done ++ [.pair old new])) := by
  have ho : old ∈ (Edit.pair old new).olds := List.mem_cons_self
  refine ⟨hp.mem_iff.mpr (mem_settled.mpr (.inl (hf.old_mem ho))),
    fun h => hf.new_notMem List.mem_cons_self (hp.mem_iff.mp h), ?_⟩
  have h := (hp.erase old).trans (hf.erase ho)
  refine ((h.cons new).trans (List.perm_append_singleton new _).symm).trans (.of_eq ?_)
  simp [settled, Edit.olds, Edit.news]

/-- Replacing in place is, up to order, taking away and bringing. -/
theorem replace_perm {l : List α} (h : old ∈ l) :
    (l.replace old new).Perm (new :: l.erase old) := by
  induction l with
  | nil => cases h
  | cons x l ih =>
    by_cases hx : old = x
    · subst hx
      rw [List.replace_cons_self, List.erase_cons_head]
    · have hl : old ∈ l := (List.mem_cons.mp h).resolve_left hx
      rw [List.replace_cons, beq_false_of_ne hx, List.erase_cons_tail (by simpa using Ne.symm hx)]
      exact ((ih hl).cons x).trans (.swap ..)

end Reached

/-! ## Parts -/

/-- Some members of a list and what stands for them in the end. -/
inductive Part (α β : Type) where
  /-- One of them stays, the others go. -/
  | keep (keeper : α) (drops : List α)
  /-- Something new takes the place of `old`, then the others go. -/
  | swap (old : α) (new : β) (drops : List α)
  /-- Something new that stands for none of them. -/
  | attach (new : β)
  deriving DecidableEq, Repr

def Part.members : Part α β → List α
  | .keep keeper drops => keeper :: drops
  | .swap old _ drops => old :: drops
  | .attach _ => []

def Part.new : Part α β → Option β
  | .keep _ _ => none
  | .swap _ new _ => some new
  | .attach new => some new

def Part.edits : Part α α → List (Edit α)
  | .keep _ drops => drops.map .detach
  | .swap old new drops => .pair old new :: drops.map .detach
  | .attach new => [.attach new]

def Part.standin : Part α α → α
  | .keep keeper _ => keeper
  | .swap _ new _ => new
  | .attach new => new

theorem Part.standin_of_new {part : Part α α} {x : α} (h : part.new = some x) :
    part.standin = x := by
  cases part with
  | keep => cases h
  | swap => exact Option.some.inj h
  | attach => exact Option.some.inj h

/-- The edits of all parts, one part after the other. -/
def edits (parts : List (Part α α)) : List (Edit α) := parts.flatMap Part.edits

@[simp] theorem edits_cons (part : Part α α) (parts : List (Part α α)) :
    edits (part :: parts) = part.edits ++ edits parts := List.flatMap_cons

/-- The members that stay. -/
def keepers (parts : List (Part α α)) : List α :=
  parts.flatMap fun
    | .keep keeper _ => [keeper]
    | _ => []

theorem members_perm (parts : List (Part α α)) :
    (parts.flatMap Part.members).Perm (keepers parts ++ olds (edits parts)) := by
  induction parts with
  | nil => rfl
  | cons part parts ih =>
    rw [List.flatMap_cons, edits_cons, olds_append, keepers, List.flatMap_cons, ← keepers]
    cases part with
    | keep keeper drops =>
      simp only [Part.members, Part.edits, olds_map_detach, List.cons_append, List.nil_append]
      refine .cons keeper ((ih.append_left drops).trans ?_)
      simp only [← List.append_assoc]
      exact .append_right _ List.perm_append_comm
    | swap old new drops =>
      simp only [Part.members, Part.edits, olds_cons, olds_map_detach, List.nil_append, Edit.olds]
      refine (ih.append_left (old :: drops)).trans ?_
      rw [← List.append_assoc, ← List.append_assoc]
      exact .append_right _ List.perm_append_comm
    | attach new => simpa [Part.members, Part.edits, Edit.olds] using ih

theorem news_edits (parts : List (Part α α)) : news (edits parts) = parts.filterMap Part.new := by
  induction parts with
  | nil => rfl
  | cons part parts ih =>
    rw [edits_cons, news_append, ih]
    cases part with
    | keep keeper drops => rw [Part.edits, news_map_detach]; rfl
    | swap old new drops => rw [Part.edits, news_cons, news_map_detach]; rfl
    | attach new => rfl

theorem standin_perm (parts : List (Part α α)) :
    (parts.map Part.standin).Perm (keepers parts ++ parts.filterMap Part.new) := by
  induction parts with
  | nil => rfl
  | cons part parts ih =>
    rw [List.map_cons, keepers, List.flatMap_cons, ← keepers]
    cases part with
    | keep keeper drops => exact ih.cons keeper
    | swap old new drops => exact (ih.cons new).trans List.perm_middle.symm
    | attach new => exact (ih.cons new).trans List.perm_middle.symm

/-- The parts account for every member once, and bring only what is not there. -/
structure Covers (start : List α) (parts : List (Part α α)) : Prop where
  start_nodup : start.Nodup
  members : (parts.flatMap Part.members).Perm start
  new_nodup : (parts.filterMap Part.new).Nodup
  new_fresh : ∀ x ∈ parts.filterMap Part.new, x ∉ start

section Covers

variable {start now : List α} {parts : List (Part α α)}

theorem Covers.perm (hc : Covers start parts) : start.Perm (keepers parts ++ olds (edits parts)) :=
  hc.members.symm.trans (members_perm parts)

theorem Covers.fits (hc : Covers start parts) : Fits start (edits parts) where
  start_nodup := hc.start_nodup
  olds_mem x hx := hc.perm.mem_iff.mpr (List.mem_append_right _ hx)
  olds_nodup := (List.nodup_append.mp (hc.perm.nodup_iff.mp hc.start_nodup)).2.1
  news_nodup := by rw [news_edits]; exact hc.new_nodup
  news_fresh := by rw [news_edits]; exact hc.new_fresh

theorem Covers.keeper_notMem (hc : Covers start parts) {x : α} (hk : x ∈ keepers parts) :
    x ∉ olds (edits parts) := fun ho =>
  (List.nodup_append.mp (hc.perm.nodup_iff.mp hc.start_nodup)).2.2 x hk x ho rfl

/-- No two parts have the same stand-in. -/
theorem Covers.standin_nodup (hc : Covers start parts) : (parts.map Part.standin).Nodup := by
  have hstart := hc.perm.nodup_iff.mp hc.start_nodup
  refine (standin_perm parts).nodup_iff.mpr (List.nodup_append.mpr
    ⟨(List.nodup_append.mp hstart).1, hc.new_nodup, ?_⟩)
  rintro keeper hk new hnew rfl
  exact hc.new_fresh keeper hnew (hc.perm.mem_iff.mpr (List.mem_append_left _ hk))

/-- What has been taken away has a stand-in that stays or that is already there. -/
theorem cover_done (parts : List (Part α α)) {done rest : List (Edit α)}
    (h : edits parts = done ++ rest) {x : α} (hx : x ∈ olds done) :
    ∃ part ∈ parts, x ∈ part.members ∧
      (part.standin ∈ keepers parts ∨ part.standin ∈ news done) := by
  induction parts generalizing done with
  | nil =>
    obtain ⟨rfl, -⟩ := List.append_eq_nil_iff.mp h.symm
    cases hx
  | cons part parts ih =>
    rw [edits_cons] at h
    have hone : ∀ d, d <+: part.edits → x ∈ olds d → x ∈ part.members ∧
        (part.standin ∈ keepers (part :: parts) ∨ part.standin ∈ news d) := by
      rintro d ⟨t, ht⟩ hd
      have hmem : x ∈ olds part.edits := by rw [← ht, olds_append]; exact List.mem_append_left _ hd
      cases part with
      | keep keeper drops =>
        rw [Part.edits, olds_map_detach] at hmem
        exact ⟨List.mem_cons_of_mem _ hmem, .inl (by simp [keepers, Part.standin])⟩
      | swap old new drops =>
        rw [Part.edits, olds_cons, olds_map_detach] at hmem
        refine ⟨hmem, .inr ?_⟩
        -- The new element is attached by the first edit.
        cases d with
        | nil => cases hd
        | cons e d =>
          rw [(List.cons.inj ht).1]
          exact List.mem_cons_self
      | attach new => cases hmem
    rcases List.append_eq_append_iff.mp h with ⟨more, rfl, hrest⟩ | ⟨more, hpart, -⟩
    · rw [olds_append] at hx
      rcases List.mem_append.mp hx with hx | hx
      · obtain ⟨hm, hs⟩ := hone part.edits (List.prefix_refl _) hx
        refine ⟨part, List.mem_cons_self, hm, hs.imp_right fun h => ?_⟩
        rw [news_append]
        exact List.mem_append_left _ h
      · obtain ⟨part', hp, hm, hs⟩ := ih hrest hx
        refine ⟨part', List.mem_cons_of_mem _ hp, hm, hs.imp (fun h => ?_) fun h => ?_⟩
        · rw [keepers, List.flatMap_cons]; exact List.mem_append_right _ h
        · rw [news_append]; exact List.mem_append_right _ h
    · obtain ⟨hm, hs⟩ := hone done ⟨more, hpart.symm⟩ hx
      exact ⟨part, List.mem_cons_self, hm, hs⟩

variable [DecidableEq α]

/-- **When all edits are done, the list holds exactly the stand-ins.** -/
theorem settled_parts (hc : Covers start parts) :
    (settled start (edits parts)).Perm (parts.map Part.standin) := by
  refine List.Perm.trans ?_ (standin_perm parts).symm
  rw [settled, news_edits]
  refine .append_right _ ?_
  refine (hc.perm.filter _).trans (.of_eq ?_)
  rw [List.filter_append, List.filter_eq_self.mpr, List.filter_eq_nil_iff.mpr, List.append_nil]
  · intro x hx; simpa using hx
  · intro x hx; simpa using hc.keeper_notMem hx

theorem Reached.settled_sub {edits : List (Edit α)} (hr : Reached start edits now) :
    ∃ done rest, edits = done ++ rest ∧ (∀ x ∈ settled start done, x ∈ now) ∧
      ∀ x ∈ now, x ∈ settled start done ∨ x ∈ news edits := by
  obtain ⟨done, rest, h, hp | ⟨old, new, tail, rfl, hp⟩⟩ := hr
  · exact ⟨done, rest, h, fun x hx => hp.mem_iff.mpr hx, fun x hx => .inl (hp.mem_iff.mp hx)⟩
  · refine ⟨done, _, h, fun x hx => hp.mem_iff.mpr (List.mem_append_left _ hx), fun x hx => ?_⟩
    rcases List.mem_append.mp (hp.mem_iff.mp hx) with hx | hx
    · exact .inl hx
    · rw [h, news_append, news_cons]
      exact .inr (List.mem_append_right _ (List.mem_append_left _ hx))

/-- **No member goes before its stand-in is there.** -/
theorem Reached.cover (hc : Covers start parts) (hr : Reached start (edits parts) now) {x : α}
    (hx : x ∈ start) : x ∈ now ∨ ∃ part ∈ parts, x ∈ part.members ∧ part.standin ∈ now := by
  obtain ⟨done, rest, h, hsub, -⟩ := hr.settled_sub
  by_cases ho : x ∈ olds done
  · obtain ⟨part, hp, hm, hs⟩ := cover_done parts h ho
    refine .inr ⟨part, hp, hm, hsub _ (mem_settled.mpr ?_)⟩
    rcases hs with hk | hn
    · refine .inl ⟨hc.perm.mem_iff.mpr (List.mem_append_left _ hk), fun hd => ?_⟩
      exact hc.keeper_notMem hk (by rw [h, olds_append]; exact List.mem_append_left _ hd)
    · exact .inr hn
  · exact .inl (hsub x (mem_settled.mpr (.inl ⟨hx, ho⟩)))

/-- At any moment the list holds members and stand-ins only. -/
theorem Reached.mem (hr : Reached start (edits parts) now) {x : α} (hx : x ∈ now) :
    x ∈ start ∨ ∃ part ∈ parts, part.new = some x := by
  obtain ⟨done, rest, h, -, hsub⟩ := hr.settled_sub
  have hnew : x ∈ news (edits parts) → ∃ part ∈ parts, part.new = some x := by
    rw [news_edits, List.mem_filterMap]
    exact id
  rcases hsub x hx with hx | hx
  · rcases mem_settled.mp hx with ⟨hx, -⟩ | hx
    · exact .inl hx
    · exact .inr (hnew (by rw [h, news_append]; exact List.mem_append_left _ hx))
  · exact .inr (hnew hx)

end Covers
end Handover
end Sda
