import Mathlib.Logic.Relation
import DeviceAccess.V1.Controller

/-!
# What a pass does to the list and the ledger

A pass is a sequence of changes, each a write for one bit together with its record in the ledger, or
the record alone (`Change`). What the changes are is read off the list and the ledger at the start
of the pass. A pass can stop after any of them (`setDeviceRules_inv`); one that returns Ok has made
all of them.
-/

namespace Sda
namespace V1

open Sda.Filter
open V2 (Identity)
open Relation (ReflTransGen)

/-- The exceptions and the bits of them that are owned. -/
structure Split where
  list : DevicesList
  owned : Finset DevBit

def World.split (w : World) (id : Identity) : Split := ⟨w.list, w.ledger.owned id⟩

namespace Split

/-- What is not the daemon's. -/
def baseline (s : Split) : List ListEntry := withoutOwned s.list.entries s.owned

/-- The bits a pass for `desired` makes the daemon own. -/
def ownedNew (s : Split) (desired : Finset DevBit) : Finset DevBit :=
  desired.filter fun bit => !covered s.baseline bit

theorem mem_ownedNew {s : Split} {desired : Finset DevBit} {bit : DevBit} :
    bit ∈ s.ownedNew desired ↔ bit ∈ desired ∧ covered s.baseline bit = false := by
  rw [ownedNew, Finset.mem_filter, Bool.not_eq_true']

end Split

/-- One change of a pass for `desired` that started from `start`. -/
inductive Change (start : Split) (desired : Finset DevBit) : Split → Split → Prop where
  | forget {s : Split} {bit : DevBit} (old : bit ∈ start.owned)
      (covered : covered start.baseline bit = true) :
      Change start desired s ⟨s.list, s.owned.erase bit⟩
  | revoke {s : Split} {bit : DevBit} (old : bit ∈ start.owned)
      (unwanted : bit ∉ start.ownedNew desired) (uncovered : covered start.baseline bit = false) :
      Change start desired s ⟨s.list.deny bit.entry, s.owned.erase bit⟩
  | keep {s : Split} {bit : DevBit} (new : bit ∈ start.ownedNew desired)
      (effective : start.list.Effective bit) : Change start desired s ⟨s.list, insert bit s.owned⟩
  | grant {s : Split} {bit : DevBit} (new : bit ∈ start.ownedNew desired)
      (ineffective : ¬start.list.Effective bit) :
      Change start desired s ⟨s.list.allow bit.entry, insert bit s.owned⟩

/-- Changes of one pass. -/
abbrev Changes (start : Split) (desired : Finset DevBit) : Split → Split → Prop :=
  ReflTransGen (Change start desired)

/-! ## File calls -/

section Calls

variable {env : Env} {id : Identity} {w w' : World}

theorem readList_inv {r : Except Error (List ListEntry)} (h : readList env w = (r, w')) :
    w'.list = w.list ∧ w'.ledger = w.ledger ∧ ∀ entries, r = .ok entries →
    entries = w.list.entries := by
  rw [readList] at h
  split at h
  next => cases h; exact ⟨rfl, rfl, nofun⟩
  next => cases h; exact ⟨rfl, rfl, fun _ h => (Except.ok.inj h).symm⟩

theorem readList_split {r : Except Error (List ListEntry)} (h : readList env w = (r, w')) :
    w'.split id = w.split id := by
  obtain ⟨hlist, hledger, -⟩ := readList_inv h
  rw [World.split, World.split, hlist, hledger]

/-- A write that fails changes nothing. -/
theorem writeBit_inv {allow : Bool} {bit : DevBit} {r : Except FileError Unit}
    (h : writeBit env allow bit w = (r, w')) : w'.ledger = w.ledger ∧
      ((∃ e, r = .error e) ∧ w'.list = w.list ∨ r = .ok () ∧ w'.list = w.list.apply allow
        bit.entry) := by
  rw [writeBit] at h
  split at h
  next e _ => cases h; exact ⟨rfl, .inl ⟨⟨e, rfl⟩, rfl⟩⟩
  next => cases h; exact ⟨rfl, .inr ⟨rfl, rfl⟩⟩

theorem editLedger_bind {α : Type} {edit : Ledger → Ledger} {next : Unit → Action World Error α} :
    (editLedger edit >>= next) w = next () { w with ledger := edit w.ledger } := rfl

/-! ## The loops -/

variable (start : Split) (desired : Finset DevBit)

/-- The revocations. When they are all done, the owned bits are those that stay owned. -/
theorem revokeOwned_inv {bits : List DevBit} {forgotten : Finset DevBit}
    {r : Except Error (Finset DevBit)} (hold : ∀ bit ∈ bits, bit ∈ start.owned)
    (h : revokeOwned env id start.baseline (start.ownedNew desired) bits forgotten w = (r, w')) :
    Changes start desired (w.split id) (w'.split id) ∧ (r.isOk = true → ∀ bit,
      bit ∈ w'.ledger.owned id ↔ bit ∈ w.ledger.owned id ∧
      (bit ∈ bits → bit ∈ start.ownedNew desired)) := by
  induction bits generalizing w forgotten with
  | nil =>
    cases h
    exact ⟨.refl, fun _ bit => by simp⟩
  | cons bit bits ih =>
    have hbit := hold bit List.mem_cons_self
    have hold := fun b hb => hold b (List.mem_cons_of_mem _ hb)
    have hrest : ∀ {owned : Finset DevBit} {P : DevBit → Prop}, bit ∉ start.ownedNew desired →
        (∀ b, b ∈ owned ↔ b ∈ (w.ledger.owned id).erase bit ∧ P b) → ∀ b, b ∈ owned ↔
          b ∈ w.ledger.owned id ∧ (b = bit → b ∈ start.ownedNew desired) ∧ P b := by
      intro owned P hnew hall b
      rw [hall, Finset.mem_erase]
      constructor
      · rintro ⟨⟨hne, hb⟩, hp⟩
        exact ⟨hb, fun h => absurd h hne, hp⟩
      · rintro ⟨hb, hif, hp⟩
        exact ⟨⟨fun h => hnew (h ▸ hif h), hb⟩, hp⟩
    rw [revokeOwned] at h
    split at h
    next hnew =>
      obtain ⟨hchanges, hdone⟩ := ih hold h
      refine ⟨hchanges, fun hok b => ?_⟩
      rw [hdone hok b, List.mem_cons, or_imp]
      exact and_congr_right fun _ => ⟨fun h => ⟨fun hb => hb ▸ hnew, h⟩, fun h => h.2⟩
    next hnew =>
      split at h
      next hcovered =>
        rw [editLedger_bind] at h
        obtain ⟨hchanges, hdone⟩ := ih hold h
        rw [World.split, Ledger.owned_remove] at hchanges
        refine ⟨.head (.forget hbit hcovered) hchanges, fun hok => ?_⟩
        have hdone := hdone hok
        simp only [Ledger.owned_remove] at hdone
        simpa only [List.mem_cons, or_imp] using hrest hnew hdone
      next hcovered =>
        have hcovered := Bool.eq_false_iff.mpr hcovered
        obtain ⟨e, hwrite, rfl⟩ | ⟨⟨⟩, w₁, hwrite, h⟩ := Action.bind_inv h
        · obtain ⟨cause, hwrite, -⟩ := Action.mapErr_error_inv hwrite
          obtain ⟨hledger, ⟨-, hlist⟩ | ⟨hr, -⟩⟩ := writeBit_inv hwrite
          · rw [World.split, World.split, hledger, hlist]
            exact ⟨.refl, nofun⟩
          · cases hr
        · obtain ⟨hledger, ⟨⟨e, hr⟩, -⟩ | ⟨-, hlist⟩⟩ := writeBit_inv (Action.mapErr_ok_inv hwrite)
          · cases hr
          rw [editLedger_bind] at h
          obtain ⟨hchanges, hdone⟩ := ih hold h
          rw [World.split, Ledger.owned_remove, hledger, hlist] at hchanges
          refine ⟨.head (.revoke hbit hnew hcovered) hchanges, fun hok => ?_⟩
          have hdone := hdone hok
          simp only [Ledger.owned_remove, hledger] at hdone
          simpa only [List.mem_cons, or_imp] using hrest hnew hdone

/-- The grants. Without an error, all of the bits are owned. -/
theorem grantNew_inv {bits : List DevBit} {errors : List Error} {r : Except Error (List Error)}
    (hnew : ∀ bit ∈ bits, bit ∈ start.ownedNew desired)
    (h : grantNew env id start.list.entries bits errors w = (r, w')) :
    Changes start desired (w.split id) (w'.split id) ∧
      ∃ more, r = .ok (errors ++ more) ∧ (more = [] → ∀ bit,
        bit ∈ w'.ledger.owned id ↔ bit ∈ w.ledger.owned id ∨ bit ∈ bits) := by
  induction bits generalizing w errors with
  | nil =>
    cases h
    exact ⟨.refl, [], by rw [List.append_nil], fun _ bit => by simp⟩
  | cons bit bits ih =>
    have hbit := hnew bit List.mem_cons_self
    have hnew := fun b hb => hnew b (List.mem_cons_of_mem _ hb)
    have hnext : ∀ {w₁ : World}, Change start desired (w.split id)
      ⟨w₁.list, insert bit (w₁.ledger.owned id)⟩ →
        w₁.ledger = w.ledger → (editLedger (·.add id bit) >>= fun _ =>
          grantNew env id start.list.entries bits errors) w₁ = (r, w') →
        Changes start desired (w.split id) (w'.split id) ∧
          ∃ more, r = .ok (errors ++ more) ∧ (more = [] → ∀ b,
            b ∈ w'.ledger.owned id ↔ b ∈ w.ledger.owned id ∨ b ∈ bit :: bits) := by
      intro w₁ hchange hledger h
      rw [editLedger_bind] at h
      obtain ⟨hchanges, more, hr, hdone⟩ := ih hnew h
      rw [World.split, Ledger.owned_add] at hchanges
      refine ⟨.head hchange hchanges, more, hr, fun hmore b => ?_⟩
      rw [hdone hmore b, Ledger.owned_add, hledger, Finset.mem_insert, List.mem_cons, or_assoc,
        or_left_comm]
    rw [grantNew] at h
    by_cases heffective : covered start.list.entries bit = true
    · rw [if_pos heffective] at h
      exact hnext (.keep hbit heffective) rfl h
    · rw [if_neg heffective] at h
      obtain ⟨written, w₁, hwritten⟩ := (writeBit env true bit).exists_run w
      obtain ⟨hledger, ⟨⟨e, rfl⟩, hlist⟩ | ⟨rfl, hlist⟩⟩ := writeBit_inv hwritten
      · rw [Action.bind_of_ok (Action.attempt_eq (Action.mapErr_of_error hwritten))] at h
        obtain ⟨hchanges, more, hr, -⟩ := ih hnew h
        rw [World.split, hledger, hlist] at hchanges
        refine ⟨hchanges, .grant bit.line e :: more, by rw [hr, List.append_assoc]; rfl, nofun⟩
      · rw [Action.bind_of_ok (Action.attempt_eq (Action.mapErr_of_ok hwritten))] at h
        refine hnext ?_ hledger h
        rw [hledger, hlist]
        exact .grant hbit heffective

/-! ## The pass -/

theorem verify_inv {ownedOld ownedNew forgotten : Finset DevBit} {r : Except Error Unit}
    (h : verify env ownedOld ownedNew forgotten w = (r, w')) : w'.split id = w.split id := by
  have hread : ∀ {r : Except Error (List ListEntry)} {w' : World},
      Action.mapErr .verify (readList env) w = (r, w') → w'.split id = w.split id := by
    intro r w' h
    obtain ⟨e, h, -⟩ | ⟨a, h, -⟩ := Action.mapErr_inv h
    all_goals exact readList_split h
  obtain ⟨e, h, -⟩ | ⟨after, w₁, h, hchecked⟩ := Action.bind_inv h
  · exact hread h
  · have hsame : w' = w₁ := by
      dsimp only at hchecked
      split at hchecked
      all_goals cases hchecked; rfl
    rw [hsame]
    exact hread h

/-- How far a pass came: the rules or the list could not be read, a revocation failed, or
everything was tried and the list read back. -/
inductive Phases (env : Env) (id : Identity) (rules : List DeviceRule) (w : World) :
    Except Error Unit → World → Prop where
  | refused {e : Error} (expand : expandRules rules = .error e) : Phases env id rules w (.error e) w
  | unread {desired : Finset DevBit} {e : Error} {w₁ : World}
      (expand : expandRules rules = .ok desired) (read : readList env w = (.error e, w₁)) :
      Phases env id rules w (.error e) w₁
  | stopped {desired : Finset DevBit} {e : Error} {w₁ w₂ : World}
      (expand : expandRules rules = .ok desired) (read : readList env w = (.ok w.list.entries, w₁))
      (revoke : revokeOwned env id (w.split id).baseline ((w.split id).ownedNew desired)
        (inOrder (w.ledger.owned id)) ∅ w₁ = (.error e, w₂)) : Phases env id rules w (.error e) w₂
  | finished {desired forgotten : Finset DevBit} {errors : List Error}
    {r verified : Except Error Unit}
    {w₁ w₂ w₃ w₄ : World} (expand : expandRules rules = .ok desired)
    (read : readList env w = (.ok w.list.entries, w₁))
    (revoke : revokeOwned env id (w.split id).baseline ((w.split id).ownedNew desired)
      (inOrder (w.ledger.owned id)) ∅ w₁ = (.ok forgotten, w₂))
    (grant : grantNew env id w.list.entries (inOrder ((w.split id).ownedNew desired)) [] w₂ =
      (.ok errors, w₃))
    (verify : verify env (w.ledger.owned id) ((w.split id).ownedNew desired) forgotten w₃ =
      (verified, w₄))
    (errorless : r = .ok () → errors = []) : Phases env id rules w r w₄

theorem setDeviceRules_phases {rules : List DeviceRule} {r : Except Error Unit}
    (h : setDeviceRules env id rules w = (r, w')) : Phases env id rules w r w' := by
  obtain ⟨e, hexpand, rfl⟩ | ⟨desired, w₁, hexpand, h⟩ := Action.bind_inv h
  · obtain rfl : w = w' := congrArg Prod.snd hexpand
    exact .refused (congrArg Prod.fst hexpand)
  have hrules : expandRules rules = .ok desired := congrArg Prod.fst hexpand
  obtain rfl : w = w₁ := congrArg Prod.snd hexpand
  obtain ⟨e, hread, rfl⟩ | ⟨entries, w₁, hread, h⟩ := Action.bind_inv h
  · exact .unread hrules hread
  obtain ⟨hlist, hledger, hentries⟩ := readList_inv hread
  obtain rfl := hentries entries rfl
  rw [Action.bind_of_ok (show Action.get w₁ = (.ok w₁, w₁) from rfl), hledger] at h
  obtain ⟨e, hrevoke, rfl⟩ | ⟨forgotten, w₂, hrevoke, h⟩ := Action.bind_inv h
  · exact .stopped hrules hread hrevoke
  obtain ⟨e, hgrant, rfl⟩ | ⟨errors, w₃, hgrant, h⟩ := Action.bind_inv h
  · obtain ⟨-, more, hr, -⟩ :=
      grantNew_inv (w.split id) desired (fun bit hb => mem_inOrder.mp hb) hgrant
    cases hr
  obtain ⟨verified, w₄, hverify⟩ := (verify env (w.ledger.owned id)
    (desired.filter fun bit => !covered (withoutOwned w.list.entries (w.ledger.owned id)) bit)
    forgotten).exists_run w₃
  rw [Action.bind_of_ok (Action.attempt_eq hverify)] at h
  have hsame : w' = w₄ ∧ (r = .ok () → errors = []) := by
    cases verified with
    | ok =>
      dsimp only at h
      split at h
      next hnil => cases h; exact ⟨rfl, fun _ => List.isEmpty_iff.mp hnil⟩
      next => cases h; exact ⟨rfl, nofun⟩
    | error e =>
      dsimp only at h
      split at h
      next hnil => simp at hnil
      next => cases h; exact ⟨rfl, nofun⟩
  obtain ⟨rfl, hnoerror⟩ := hsame
  exact .finished hrules hread hrevoke hgrant hverify hnoerror

/-- A pass that gets as far as the rules and the list makes changes. One that returns Ok makes all
of them. -/
theorem setDeviceRules_inv {rules : List DeviceRule} {r : Except Error Unit}
    (h : setDeviceRules env id rules w = (r, w')) :
    (w'.split id = w.split id ∧ ∃ e, r = .error e) ∨ ∃ desired, expandRules rules = .ok desired ∧
      Changes (w.split id) desired (w.split id) (w'.split id) ∧
      (r = .ok () → w'.ledger.owned id = (w.split id).ownedNew desired) := by
  have hold : ∀ bit ∈ inOrder (w.ledger.owned id), bit ∈ (w.split id).owned :=
    fun bit hb => mem_inOrder.mp hb
  cases setDeviceRules_phases h with
  | refused => exact .inl ⟨rfl, _, rfl⟩
  | unread _ read => exact .inl ⟨readList_split read, _, rfl⟩
  | @stopped desired e w₁ _ expand read revoke =>
    obtain ⟨hchanges, -⟩ := revokeOwned_inv (w.split id) desired hold revoke
    rw [readList_split read] at hchanges
    exact .inr ⟨desired, expand, hchanges, nofun⟩
  | @finished desired forgotten errors _ verified w₁ w₂ w₃ _ expand read revoke grant
    verify errorless =>
    obtain ⟨hrevoked, hleft⟩ := revokeOwned_inv (w.split id) desired hold revoke
    rw [readList_split read] at hrevoked
    obtain ⟨hgranted, more, hr, hall⟩ :=
      grantNew_inv (w.split id) desired (fun bit hb => mem_inOrder.mp hb) grant
    obtain rfl : errors = more := Except.ok.inj hr
    refine .inr ⟨desired, expand, ?_, fun hok => ?_⟩
    · rw [verify_inv verify]
      exact hrevoked.trans hgranted
    · have howned : w'.ledger.owned id = w₃.ledger.owned id :=
        congrArg Split.owned (verify_inv verify)
      ext bit
      rw [howned, hall (errorless hok), hleft rfl, mem_inOrder, mem_inOrder,
        (readList_inv read).2.1]
      constructor
      · rintro (⟨hb, hin⟩ | hb)
        · exact hin hb
        · exact hb
      · exact .inr

end Calls

end V1
end Sda
