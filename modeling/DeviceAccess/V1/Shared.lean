import DeviceAccess.V1.Exact

/-!
# A list that the runtime writes too

Between the passes the runtime adds and removes entries of its own, exact ones and wildcards. Next
to the real list stands the one the runtime alone would have made (`Shared.runtime`). Whatever an
exact entry holds beyond it must be owned (`Split.Within`), or a later pass does not find it.

A pass can break that in one way. An owned bit that a wildcard has come to cover is forgotten: it is
not denied, and its exact entry stays when the wildcard goes again.
-/

namespace Sda
namespace V1

open Sda.Filter
open V2 (Identity)

/-! ## The invariant -/

/-- The wildcards are the runtime's, and so is what the exact entries hold besides the owned bits.
-/
structure Split.Within (runtime : DevicesList) (s : Split) : Prop where
  wildcards : wildcards s.list.entries = V1.wildcards runtime.entries
  holds : ∀ bit, Holds s.list.entries bit → bit ∉ s.owned → Holds runtime.entries bit

/-- No owned bit that a wildcard covers is held by an exact entry, unless the runtime made it. -/
def Split.Uncovered (runtime : DevicesList) (s : Split) : Prop :=
  ∀ bit ∈ s.owned, Holds s.list.entries bit → covered (wildcards s.list.entries) bit = true →
    Holds runtime.entries bit

namespace Split.Within

variable {runtime : DevicesList} {s s' start : Split} {desired : Finset DevBit}

theorem effective (h : s.Within runtime) (hempty : s.owned = ∅) {bit : DevBit}
    (hb : s.list.Effective bit) : runtime.Effective bit := by
  rw [DevicesList.effective_iff] at hb ⊢
  rw [← h.wildcards]
  exact hb.imp_left fun hh => h.holds bit hh (by rw [hempty]; exact Finset.notMem_empty bit)

/-- One change of a pass. What the exact entries hold is asked for or was there at the start. -/
theorem change (huncovered : start.Uncovered runtime) (h : s.Within runtime)
    (hold : ∀ bit, Holds s.list.entries bit →
      bit ∈ start.ownedNew desired ∨ Holds start.list.entries bit)
    (hchange : Change start desired s s') : s'.Within runtime ∧ ∀ bit, Holds s'.list.entries bit →
      bit ∈ start.ownedNew desired ∨ Holds start.list.entries bit := by
  cases hchange with
  | @forget bit old hcovered =>
    refine ⟨⟨h.wildcards, fun other hh hno => ?_⟩, hold⟩
    by_cases hsame : other = bit
    · subst hsame
      have hwild : covered (V1.wildcards start.list.entries) other = true :=
        (covered_withoutOwned.mp hcovered).resolve_left fun hb => hb.2 old
      have hnew : other ∉ start.ownedNew desired := fun hn => by
        rw [(Split.mem_ownedNew.mp hn).2] at hcovered
        cases hcovered
      exact huncovered other old ((hold other hh).resolve_left hnew) hwild
    · exact h.holds other hh fun ho => hno (Finset.mem_erase.mpr ⟨hsame, ho⟩)
  | @revoke bit =>
    refine ⟨⟨DevicesList.wildcards_deny.trans h.wildcards, fun other hh hno => ?_⟩,
      fun other hh => ?_⟩
    · obtain ⟨hh, hne⟩ := DevicesList.holds_deny.mp hh
      exact h.holds other hh fun ho => hno (Finset.mem_erase.mpr ⟨hne.symm, ho⟩)
    · exact hold other (DevicesList.holds_deny.mp hh).1
  | keep =>
    exact ⟨⟨h.wildcards, fun other hh hno => h.holds other hh fun ho =>
      hno (Finset.mem_insert_of_mem ho)⟩, hold⟩
  | @grant bit new =>
    refine ⟨⟨DevicesList.wildcards_allow.trans h.wildcards, fun other hh hno => ?_⟩,
      fun other hh => ?_⟩
    · rcases DevicesList.holds_allow.mp hh with hh | rfl
      · exact h.holds other hh fun ho => hno (Finset.mem_insert_of_mem ho)
      · exact absurd (Finset.mem_insert_self _ _) hno
    · rcases DevicesList.holds_allow.mp hh with hh | rfl
      · exact hold other hh
      · exact .inl new

theorem changes (huncovered : start.Uncovered runtime) (hstart : start.Within runtime)
    (h : Changes start desired start s) : s.Within runtime := by
  have hall : s.Within runtime ∧ ∀ bit, Holds s.list.entries bit →
      bit ∈ start.ownedNew desired ∨ Holds start.list.entries bit := by
    induction h with
    | refl => exact ⟨hstart, fun _ => .inr⟩
    | tail _ hchange ih => exact change huncovered ih.1 ih.2 hchange
  exact hall.1

/-- A write of the runtime, which both lists get. -/
theorem apply (h : s.Within runtime) (allow : Bool) (rule : ListEntry) :
    Split.Within (runtime.apply allow rule) ⟨s.list.apply allow rule, s.owned⟩ := by
  cases allow with
  | true =>
    refine ⟨?_, fun bit hh hno => ?_⟩
    · show V1.wildcards (allowEntry rule s.list.entries) = V1.wildcards
        (allowEntry rule runtime.entries)
      rw [wildcards_allowEntry, wildcards_allowEntry, h.wildcards]
    · exact holds_allowEntry.mpr ((holds_allowEntry.mp hh).imp_left fun hh => h.holds bit hh hno)
  | false =>
    refine ⟨?_, fun bit hh hno => ?_⟩
    · show V1.wildcards (denyEntry rule s.list.entries) = V1.wildcards
        (denyEntry rule runtime.entries)
      rw [wildcards_denyEntry, wildcards_denyEntry, h.wildcards]
    · obtain ⟨hh, hno'⟩ := (holds_denyEntry s.list.distinct).mp hh
      exact (holds_denyEntry runtime.distinct).mpr ⟨h.holds bit hh hno, hno'⟩

end Split.Within

/-- A pass for no rules makes nothing owned. -/
theorem Changes.owned_empty {start s s' : Split} (h : Changes start ∅ s s') (hs : s.owned = ∅) :
    s'.owned = ∅ := by
  induction h with
  | refl => exact hs
  | tail _ hchange ih =>
    cases hchange with
    | forget => rw [ih]; rfl
    | revoke => rw [ih]; rfl
    | keep new => exact absurd (Split.mem_ownedNew.mp new).1 (Finset.notMem_empty _)
    | grant new => exact absurd (Split.mem_ownedNew.mp new).1 (Finset.notMem_empty _)

/-! ## Runs -/

/-- The world, and the list that the runtime alone would have made. -/
structure Shared where
  world : World
  runtime : DevicesList

/-- A pass of the daemon, or a write of the runtime. -/
inductive Op where
  | pass (rules : List DeviceRule)
  | write (allow : Bool) (rule : ListEntry)

/-- The operation gives nothing new to the daemon. -/
def Op.grantless : Op → Bool
  | .pass rules => rules.isEmpty
  | .write _ _ => true

section Runs

variable (env : Env) (id : Identity)

namespace Shared

def step (s : Shared) : Op → Shared
  | .pass rules => { s with world := (setDeviceRules env id rules s.world).2 }
  | .write allow rule =>
    ⟨{ s.world with list := s.world.list.apply allow rule }, s.runtime.apply allow rule⟩

def run (s : Shared) (ops : List Op) : Shared := ops.foldl (step env id) s

/-- Before every pass of the run, no owned bit that is held has come to be covered by a wildcard. -/
def NeverCovered (s : Shared) (ops : List Op) : Prop :=
  ∀ before rules after, ops = before ++ .pass rules :: after →
    ((s.run env id before).world.split id).Uncovered (s.run env id before).runtime

/-- The run so far. -/
def Within (s : Shared) : Prop := (s.world.split id).Within s.runtime

variable {env id} {s : Shared}

theorem run_append (before after : List Op) :
    s.run env id (before ++ after) = (s.run env id before).run env id after := List.foldl_append

theorem NeverCovered.tail {op : Op} {ops : List Op} (h : s.NeverCovered env id (op :: ops)) :
    (s.step env id op).NeverCovered env id ops := fun before rules after heq =>
  h (op :: before) rules after (by rw [heq]; rfl)

theorem Within.step {op : Op} {ops : List Op} (h : s.Within id)
    (hcovered : s.NeverCovered env id (op :: ops)) : (s.step env id op).Within id := by
  cases op with
  | write allow rule => exact Split.Within.apply h allow rule
  | pass rules =>
    obtain ⟨r, w', hrun⟩ := (setDeviceRules env id rules).exists_run s.world
    rw [Shared.step, hrun]
    obtain ⟨hsame, -⟩ | ⟨desired, -, hchanges, -⟩ := setDeviceRules_inv hrun
    · show (w'.split id).Within s.runtime
      rw [hsame]
      exact h
    · exact Split.Within.changes (hcovered [] rules ops rfl) h hchanges

theorem Within.run {ops : List Op} (h : s.Within id) (hcovered : s.NeverCovered env id ops) :
    (s.run env id ops).Within id := by
  induction ops generalizing s with
  | nil => exact h
  | cons op ops ih => exact ih (h.step hcovered) hcovered.tail

/-- While nothing is owned and nothing is granted, nothing becomes owned. -/
theorem step_grantless {op : Op} (hempty : s.world.ledger.owned id = ∅) (hop : op.grantless = true)
    (h : s.Within id) :
    (s.step env id op).world.ledger.owned id = ∅ ∧ (s.step env id op).Within id := by
  have huncovered : (s.world.split id).Uncovered s.runtime := by
    intro bit hb
    rw [World.split, hempty] at hb
    exact absurd hb (Finset.notMem_empty bit)
  cases op with
  | write allow rule => exact ⟨hempty, Split.Within.apply h allow rule⟩
  | pass rules =>
    obtain rfl := List.isEmpty_iff.mp hop
    obtain ⟨r, w', hrun⟩ := (setDeviceRules env id []).exists_run s.world
    rw [Shared.step, hrun]
    obtain ⟨hsame, -⟩ | ⟨desired, hdesired, hchanges, -⟩ := setDeviceRules_inv hrun
    · show w'.ledger.owned id = ∅ ∧ (w'.split id).Within s.runtime
      have howned : w'.ledger.owned id = s.world.ledger.owned id := congrArg Split.owned hsame
      rw [hsame, howned]
      exact ⟨hempty, h⟩
    · obtain rfl : ∅ = desired := Except.ok.inj hdesired
      exact ⟨hchanges.owned_empty hempty, Split.Within.changes huncovered h hchanges⟩

theorem run_grantless {ops : List Op} (hempty : s.world.ledger.owned id = ∅)
    (hops : ∀ op ∈ ops, op.grantless = true) (h : s.Within id) :
    (s.run env id ops).world.ledger.owned id = ∅ ∧ (s.run env id ops).Within id := by
  induction ops generalizing s with
  | nil => exact ⟨hempty, h⟩
  | cons op ops ih =>
    obtain ⟨hempty, h⟩ := step_grantless hempty (hops op List.mem_cons_self) h
    exact ih hempty (fun op ho => hops op (List.mem_cons_of_mem _ ho)) h

end Shared
end Runs

/-- **Nothing outlives its revocation, if no owned bit is ever covered.** The run starts with the
same list for both. A pass for no rules that returned Ok leaves nothing that the runtime
alone would not have, and so it stays until rules are set again. -/
theorem Shared.nothing_outlives (env : Env) (id : Identity) (s : Shared) (before after : List Op)
    (hsame : s.runtime = s.world.list) (hcovered : s.NeverCovered env id (before ++ [.pass []]))
    (hok : (setDeviceRules env id [] (s.run env id before).world).1 = .ok ())
    (hafter : ∀ op ∈ after, op.grantless = true) (bit : DevBit)
    (hbit : (s.run env id (before ++ .pass [] :: after)).world.list.Effective bit) :
    (s.run env id (before ++ .pass [] :: after)).runtime.Effective bit := by
  have hstart : s.Within id := ⟨by rw [hsame]; rfl, fun bit hh _ => by rw [hsame]; exact hh⟩
  have hrevoked := hstart.run hcovered
  rw [show before ++ Op.pass [] :: after = (before ++ [.pass []]) ++ after by simp,
    run_append] at hbit ⊢
  have hnone : (s.run env id (before ++ [.pass []])).world.ledger.owned id = ∅ := by
    rw [run_append]
    obtain ⟨r, w', hrun⟩ := (setDeviceRules env id []).exists_run (s.run env id before).world
    rw [hrun] at hok
    show (setDeviceRules env id [] (s.run env id before).world).2.ledger.owned id = ∅
    rw [hrun]
    obtain ⟨-, e, he⟩ | ⟨desired, hdesired, -, howned⟩ := setDeviceRules_inv hrun
    · rw [show r = .ok () from hok] at he
      cases he
    · obtain rfl : ∅ = desired := Except.ok.inj hdesired
      rw [howned hok]
      rfl
  obtain ⟨hnone, hwithin⟩ := run_grantless hnone hafter hrevoked
  exact Split.Within.effective hwithin hnone hbit

/-! ## Two runs -/

/-- The sample cgroup, with nothing done yet. -/
def sampleShared : Shared := ⟨sampleWorld, sampleList⟩

theorem sampleShared_neverCovered :
    sampleShared.NeverCovered quietEnv sampleId ([.pass [tunRule]] ++ [.pass []]) := by
  have hgranted : ∀ bit ∈ (sampleShared.run quietEnv sampleId [.pass [tunRule]]).world.ledger.owned
    sampleId,
      covered (wildcards (sampleShared.run quietEnv sampleId
        [.pass [tunRule]]).world.list.entries) bit = false := by
    decide +kernel
  intro before rules after heq bit hb _ hwild
  cases before with
  | nil => exact absurd hb (Finset.notMem_empty bit)
  | cons first rest =>
    cases rest with
    | nil =>
      obtain ⟨rfl, -⟩ := List.cons.inj heq
      have hno := hgranted bit hb
      exact absurd (hno.symm.trans hwild) Bool.false_ne_true
    | cons second rest =>
      have hlen := congrArg List.length heq
      simp at hlen

/-- A grant taken back, and a device that the runtime adds afterwards. -/
theorem Shared.nothing_outlives_sample :
    (sampleShared.run quietEnv sampleId ([.pass [tunRule]] ++ .pass [] ::
      [.write true ⟨.of .char, 5, 0, 3⟩])).world.list.Effective ⟨.char, 5, 0, .write⟩ ∧
    (sampleShared.run quietEnv sampleId ([.pass [tunRule]] ++ .pass [] ::
      [.write true ⟨.of .char, 5, 0, 3⟩])).runtime.Effective ⟨.char, 5, 0, .write⟩ := by
  have hbit : (sampleShared.run quietEnv sampleId ([.pass [tunRule]] ++ .pass [] ::
      [.write true ⟨.of .char, 5, 0, 3⟩])).world.list.Effective ⟨.char, 5, 0, .write⟩ := by
    unfold DevicesList.Effective
    decide +kernel
  have hok : (setDeviceRules quietEnv sampleId []
      (sampleShared.run quietEnv sampleId [.pass [tunRule]]).world).1 = .ok () := by
    have hok : (setDeviceRules quietEnv sampleId []
      (sampleShared.run quietEnv sampleId [.pass [tunRule]]).world).1.isOk =
        true := by decide +kernel
    generalize (setDeviceRules quietEnv sampleId []
      (sampleShared.run quietEnv sampleId [.pass [tunRule]]).world).1 = r at hok
    cases r with
    | error e => cases hok
    | ok => rfl
  exact ⟨hbit, Shared.nothing_outlives quietEnv sampleId sampleShared [.pass [tunRule]]
    [.write true ⟨.of .char, 5, 0, 3⟩] rfl sampleShared_neverCovered hok
    (fun op ho => by rw [List.mem_singleton.mp ho]; rfl) _ hbit⟩

/-- A wildcard over the tun device. -/
def tunWildcard : ListEntry := ⟨.of .char, 10, wildcard, 7⟩

def tunWrite : DevBit := ⟨.char, 10, 200, .write⟩

/-- **A grant that outlives its revocation**: while the wildcard was there, the pass for no rules
forgot the owned bits and returned Ok; without the wildcard they are still effective. -/
theorem Shared.tun_outlives :
    (setDeviceRules quietEnv sampleId [] (sampleShared.run quietEnv sampleId
      [.pass [tunRule], .write true tunWildcard]).world).1.isOk = true ∧
    (sampleShared.run quietEnv sampleId ([.pass [tunRule], .write true tunWildcard] ++
      .pass [] :: [.write false tunWildcard])).world.list.Effective tunWrite ∧
    ¬(sampleShared.run quietEnv sampleId ([.pass [tunRule], .write true tunWildcard] ++
      .pass [] :: [.write false tunWildcard])).runtime.Effective tunWrite := by
  unfold DevicesList.Effective
  refine ⟨?_, ?_, ?_⟩
  all_goals decide +kernel

end V1
end Sda
