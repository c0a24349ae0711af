import DeviceAccess.Lib.Descent
import DeviceAccess.Processor.History

/-!
# The history over sequences of calls

Whatever calls are made, a container's records stay in order (`Orderly`), and from one moment to a
later one each record stays or goes for a reason (`Descent` with `Succeeds` and `MayGo`): a record
with a cgroup goes only by a release of a copy of it.
-/

namespace Sda
namespace Processor

/-- A call of the history. -/
inductive LifecycleOp where
  | provisional (id : ContainerId) (now : Timestamp)
  | verify (id : ContainerId) (startedAt : String) (cgroup : RunCgroup) (now : Timestamp)
  | terminate (id : ContainerId) (eventTime : Timestamp)
  | markTerminal (id : ContainerId) (startedAt : String)
  | markRevoked (id : ContainerId) (startedAt : String)
  | release (record : LifecycleRecord)
  deriving DecidableEq, Repr

/-- A run is verified with a start time. -/
def LifecycleOp.Dated : LifecycleOp → Prop
  | .verify _ startedAt _ _ => startedAt ≠ ""
  | _ => True

instance : (op : LifecycleOp) → Decidable op.Dated
  | .verify _ startedAt _ _ => inferInstanceAs (Decidable (startedAt ≠ ""))
  | .provisional _ _ | .terminate _ _ | .markTerminal _ _ | .markRevoked _ _ | .release _ =>
    isTrue trivial

namespace Lifecycles

def apply (parse : String → Option Timestamp) (history : Lifecycles) : LifecycleOp → Lifecycles
  | .provisional id now => history.provisional id now
  | .verify id startedAt cgroup now => history.verify id startedAt cgroup now
  | .terminate id eventTime => (history.terminate parse id eventTime).1
  | .markTerminal id startedAt => history.markTerminal id startedAt
  | .markRevoked id startedAt => history.markRevoked id startedAt
  | .release record => history.release record

/-- The calls one after another. -/
def applyAll (parse : String → Option Timestamp) (history : Lifecycles) (ops : List LifecycleOp) :
    Lifecycles :=
  ops.foldl (apply parse) history

end Lifecycles

/-- What holds of a container's records. -/
structure Orderly (records : List LifecycleRecord) : Prop where
  single : (records.filter (·.state = .provisional)).length ≤ 1
  provisional : ∀ record ∈ records, record.state = .provisional → record.cgroup = none ∧
    record.startedAt = ""
  distinct : records.Pairwise fun one other => one.startedAt ≠ "" → one.startedAt ≠ other.startedAt
  verified : ∀ record ∈ records, record.state = .verified → record.cgroup ≠ none
  revoked : ∀ record ∈ records, record.revoked = true → record.state = .terminal
  bounded : maxRecordsPerContainer < records.length → ∀ record ∈ records, record.cgroup ≠ none

/-- What a record that stays keeps: an end, and a cgroup with its start time. -/
structure LifecycleRecord.Succeeds (old new : LifecycleRecord) : Prop where
  containerId : new.containerId = old.containerId
  firstSeen : new.firstSeen = old.firstSeen
  ended : old.state = .terminal → new.state = .terminal
  cgroup : old.cgroup ≠ none → new.cgroup ≠ none ∧ new.startedAt = old.startedAt

/-- Why a record goes: it names no cgroup, or a copy of it was released. -/
def MayGo (ops : List LifecycleOp) (record : LifecycleRecord) : Prop :=
  record.cgroup = none ∨ ∃ released, .release released ∈ ops ∧
    released.containerId = record.containerId ∧
    released.startedAt = record.startedAt ∧ released.firstSeen = record.firstSeen

namespace LifecycleRecord

variable {one two three : LifecycleRecord}

theorem Succeeds.refl (one : LifecycleRecord) : one.Succeeds one :=
  ⟨rfl, rfl, id, fun h => ⟨h, rfl⟩⟩

theorem Succeeds.trans (h : one.Succeeds two) (h' : two.Succeeds three) : one.Succeeds three where
  containerId := h'.containerId.trans h.containerId
  firstSeen := h'.firstSeen.trans h.firstSeen
  ended hended := h'.ended (h.ended hended)
  cgroup hcgroup := by
    obtain ⟨htwo, hstart⟩ := h.cgroup hcgroup
    obtain ⟨hthree, hstart'⟩ := h'.cgroup htwo
    exact ⟨hthree, hstart'.trans hstart⟩

theorem Ages.succeeds (h : one.Ages two) : one.Succeeds two where
  containerId := h.containerId
  firstSeen := h.firstSeen
  ended hended := by
    rcases h.state with hsame | hterminal
    · exact hsame.trans hended
    · exact hterminal
  cgroup hcgroup := ⟨h.cgroup ▸ hcgroup, h.startedAt⟩

/-- A record that `verify` upgrades had the start time, or no cgroup. -/
theorem Succeeds.upgrade {startedAt : String} {cgroup : RunCgroup}
    (h : one.startedAt = startedAt ∨ one.cgroup = none) :
    one.Succeeds (Lifecycles.upgrade startedAt cgroup one) where
  containerId := rfl
  firstSeen := rfl
  ended hended := if_pos hended
  cgroup hcgroup := ⟨nofun, (h.resolve_right hcgroup).symm⟩

theorem Succeeds.mayGo {ops : List LifecycleOp} (h : one.Succeeds two) (hgo : MayGo ops two) :
    MayGo ops one := by
  by_cases hcgroup : one.cgroup = none
  · exact .inl hcgroup
  obtain ⟨htwo, hstart⟩ := h.cgroup hcgroup
  obtain ⟨released, hmem, hid, hsame, hseen⟩ := hgo.resolve_left htwo
  exact .inr ⟨released, hmem, hid.trans h.containerId, hsame.trans hstart, hseen.trans h.firstSeen⟩

end LifecycleRecord

theorem MayGo.mono {ops ops' : List LifecycleOp} {record : LifecycleRecord} (hsub : ops ⊆ ops')
    (h : MayGo ops record) : MayGo ops' record :=
  h.imp_right fun ⟨released, hmem, hrest⟩ => ⟨released, hsub hmem, hrest⟩

/-! ## The bound -/

/-- Over the bound, every record has a cgroup. -/
def Bounded (records : List LifecycleRecord) : Prop :=
  maxRecordsPerContainer < records.length → ∀ record ∈ records, record.cgroup ≠ none

theorem boundRecords_bounded (fuel : Nat) (records : List LifecycleRecord)
    (h : records.length ≤ fuel + maxRecordsPerContainer) : Bounded (boundRecords fuel records) := by
  induction fuel generalizing records with
  | zero =>
    rw [boundRecords]
    intro hlong
    omega
  | succ fuel ih =>
    rw [boundRecords]
    split
    · intro hlong
      omega
    · split
      next hall =>
        intro _ record hrecord
        exact Option.isSome_iff_ne_none.mp (List.all_eq_true.mp hall record hrecord)
      next hsome =>
        refine ih _ ?_
        obtain ⟨record, hrecord, hnone⟩ := by simpa using hsome
        have hlength := List.length_eraseP_of_mem hrecord (p := fun record => !record.hasIdentity)
          (by simp [hnone])
        omega

theorem Bounded.ages {records later : List LifecycleRecord} (h : Bounded records)
    (hages : List.Forall₂ LifecycleRecord.Ages records later) : Bounded later := by
  intro hlong record hrecord
  obtain ⟨old, hold, hage⟩ := forall₂_exists_left hages hrecord
  rw [hage.cgroup]
  exact h (hages.length_eq ▸ hlong) old hold

theorem Bounded.sublist {records later : List LifecycleRecord} (h : Bounded records)
    (hsub : later.Sublist records) : Bounded later := fun hlong record hrecord =>
  h (hlong.trans_le hsub.length_le) record (hsub.subset hrecord)

theorem Bounded.upgrade {front back : List LifecycleRecord} {record : LifecycleRecord}
    {startedAt : String} {cgroup : RunCgroup} (h : Bounded (front ++ record :: back)) :
    Bounded (front ++ Lifecycles.upgrade startedAt cgroup record :: back) := by
  intro hlong one hone
  have hlong' : maxRecordsPerContainer < (front ++ record :: back).length := by
    simpa only [List.length_append, List.length_cons] using hlong
  rcases List.mem_append.mp hone with hfront | hback
  · exact h hlong' one (List.mem_append_left _ hfront)
  · rcases List.mem_cons.mp hback with rfl | hback
    · nofun
    · exact h hlong' one (List.mem_append_right _ (List.mem_cons_of_mem _ hback))

private theorem bounded_append (records : List LifecycleRecord) (record : LifecycleRecord) :
    Bounded (appendRecord records record) := by
  refine boundRecords_bounded _ _ ?_
  rw [List.length_append, List.length_singleton]
  omega

/-- The loop of `append` drops only records without a cgroup. -/
theorem descent_boundRecords (ops : List LifecycleOp) (fuel : Nat)
    (records : List LifecycleRecord) :
    Descent (MayGo ops) LifecycleRecord.Succeeds records (boundRecords fuel records) := by
  induction fuel generalizing records with
  | zero => exact .refl LifecycleRecord.Succeeds.refl records
  | succ fuel ih =>
    rw [boundRecords]
    split
    · exact .refl LifecycleRecord.Succeeds.refl records
    · split
      · exact .refl LifecycleRecord.Succeeds.refl records
      · refine (Descent.eraseP LifecycleRecord.Succeeds.refl records fun record hnone => ?_).trans
          (ih _)
          (fun _ _ _ => .trans) (fun _ => id) fun _ _ h => h.mayGo
        exact .inl (by simpa [LifecycleRecord.hasIdentity] using hnone)

private theorem descent_append (ops : List LifecycleOp) (records : List LifecycleRecord)
    (record : LifecycleRecord) :
    Descent (MayGo ops) LifecycleRecord.Succeeds records (appendRecord records record) :=
  (Descent.append LifecycleRecord.Succeeds.refl records [record]).trans
    (descent_boundRecords ops _ _)
    (fun _ _ _ => .trans) (fun _ => id) fun _ _ h => h.mayGo

/-! ## One call -/

namespace Lifecycles

variable {parse : String → Option Timestamp} {history : Lifecycles} {op : LifecycleOp}

theorem records_put_forall (P : ContainerId → List LifecycleRecord → Prop) {id : ContainerId}
    {records : List LifecycleRecord} (h : P id records)
    (hothers : ∀ other, P other (history.records other)) (other : ContainerId) :
    P other ((history.put id records).records other) := by
  by_cases hother : other = id
  · subst hother
    rwa [records_put_self]
  · rw [records_put_of_ne hother]
    exact hothers other

theorem Tidy.apply (h : history.Tidy) (hdated : op.Dated) : (history.apply parse op).Tidy := by
  cases op with
  | provisional id now => exact h.provisional
  | verify id startedAt cgroup now => exact h.verify hdated
  | terminate id eventTime => exact h.ages ages_terminate
  | markTerminal id startedAt => exact h.ages ages_markTerminal
  | markRevoked id startedAt => exact h.ages ages_markRevoked
  | release record => exact h.release

/-- A call keeps the bound. -/
theorem bounded_apply (h : ∀ id, Bounded (history.records id)) (id : ContainerId) :
    Bounded ((history.apply parse op).records id) := by
  cases op with
  | provisional changed now =>
    obtain ⟨records, heq, hages | ⟨-, rfl⟩⟩ := provisional_eq history changed now
    all_goals
      rw [apply, heq]
      refine records_put_forall (fun _ => Bounded) ?_ h id
    · exact (h changed).ages (hages.imp fun _ _ hold => hold.1)
    · exact bounded_append _ _
  | verify changed startedAt cgroup now =>
    rcases verify_eq history changed startedAt cgroup now with
      ⟨front, old, back, hsplit, -, -, heq⟩ | ⟨-, ⟨front, old, back, hsplit, -, heq⟩ | heq⟩
    all_goals
      rw [apply, heq]
      refine records_put_forall (fun _ => Bounded) ?_ h id
    · exact (hsplit ▸ h changed).upgrade
    · exact (hsplit ▸ h changed).upgrade
    · exact bounded_append _ _
  | terminate changed eventTime => exact (h id).ages (ages_terminate id)
  | markTerminal changed startedAt => exact (h id).ages (ages_markTerminal id)
  | markRevoked changed startedAt => exact (h id).ages (ages_markRevoked id)
  | release released =>
    exact records_put_forall (fun _ => Bounded) ((h _).sublist List.filter_sublist) h id

private theorem descent_ages {later : Lifecycles} {ops : List LifecycleOp} (h : history.Ages later)
    (id : ContainerId) :
    Descent (MayGo ops) LifecycleRecord.Succeeds (history.records id) (later.records id) :=
  .of_forall₂ ((h id).imp fun _ _ hage => hage.succeeds)

theorem descent_upgrade {ops : List LifecycleOp} {front back : List LifecycleRecord}
    {record : LifecycleRecord} {startedAt : String} {cgroup : RunCgroup}
    (h : record.startedAt = startedAt ∨ record.cgroup = none) :
    Descent (MayGo ops) LifecycleRecord.Succeeds (front ++ record :: back)
      (front ++ upgrade startedAt cgroup record :: back) := by
  refine .of_forall₂ (List.rel_append ?_ (.cons (.upgrade h) ?_))
  all_goals exact List.forall₂_same.mpr fun one _ => .refl one

/-- What a call makes of a container's records. -/
theorem descent_apply (htidy : history.Tidy) (id : ContainerId) :
    Descent (MayGo [op]) LifecycleRecord.Succeeds (history.records id)
      ((history.apply parse op).records id) := by
  have hrefl : ∀ other, Descent (MayGo [op]) LifecycleRecord.Succeeds (history.records other)
      (history.records other) := fun other => .refl LifecycleRecord.Succeeds.refl _
  cases op with
  | provisional changed now =>
    obtain ⟨records, heq, hages | ⟨-, rfl⟩⟩ := provisional_eq history changed now
    all_goals
      rw [apply, heq]
      refine records_put_forall (fun other later => Descent _ _ (history.records other) later) ?_
        hrefl id
    · exact .of_forall₂ (hages.imp fun _ _ hold => hold.1.succeeds)
    · exact descent_append _ _ _
  | verify changed startedAt cgroup now =>
    rcases verify_eq history changed startedAt cgroup now with
      ⟨front, old, back, hsplit, hown, -, heq⟩ | ⟨-, ⟨front, old, back, hsplit, hprov, heq⟩ | heq⟩
    all_goals
      rw [apply, heq]
      refine records_put_forall (fun other later => Descent _ _ (history.records other) later) ?_
        hrefl id
    · rw [hsplit]
      exact descent_upgrade (.inl hown)
    · have hmem : old ∈ history.records changed :=
        hsplit ▸ List.mem_append_right _ List.mem_cons_self
      rw [hsplit]
      exact descent_upgrade (.inr ((htidy changed).provisional old hmem hprov).1)
    · exact descent_append _ _ _
  | terminate changed eventTime => exact descent_ages ages_terminate id
  | markTerminal changed startedAt => exact descent_ages ages_markTerminal id
  | markRevoked changed startedAt => exact descent_ages ages_markRevoked id
  | release released =>
    refine records_put_forall (fun other later => Descent _ _ (history.records other) later) ?_
      hrefl id
    refine Descent.filter LifecycleRecord.Succeeds.refl _ fun record hrecord hgone =>
      .inr ⟨released, ?_⟩
    simp only [ne_eq, Bool.or_eq_false_iff, decide_eq_false_iff_not, not_not] at hgone
    exact ⟨List.mem_singleton_self _, ((htidy _).containerId record hrecord).symm, hgone.1.symm,
      hgone.2.symm⟩

/-! ## Any sequence of calls -/

private theorem applyAll_append (before after : List LifecycleOp) :
    history.applyAll parse (before ++ after) = (history.applyAll parse before).applyAll
    parse after :=
  List.foldl_append

theorem applyAll_tidy (h : history.Tidy) (ops : List LifecycleOp) (hdated : ∀ op ∈ ops, op.Dated) :
    (history.applyAll parse ops).Tidy := by
  induction ops generalizing history with
  | nil => exact h
  | cons op ops ih =>
    obtain ⟨hfirst, hrest⟩ := List.forall_mem_cons.mp hdated
    exact ih (h.apply hfirst) hrest

private theorem applyAll_bounded (h : ∀ id, Bounded (history.records id)) (ops : List LifecycleOp)
    (id : ContainerId) :
    Bounded ((history.applyAll parse ops).records id) := by
  induction ops generalizing history with
  | nil => exact h id
  | cons op ops ih => exact ih (bounded_apply h)

theorem applyAll_descent (h : history.Tidy) (ops : List LifecycleOp) (hdated : ∀ op ∈ ops, op.Dated)
    (id : ContainerId) :
    Descent (MayGo ops) LifecycleRecord.Succeeds (history.records id)
      ((history.applyAll parse ops).records id) := by
  induction ops generalizing history with
  | nil => exact .refl LifecycleRecord.Succeeds.refl _
  | cons op ops ih =>
    obtain ⟨hfirst, hrest⟩ := List.forall_mem_cons.mp hdated
    have hstep : Descent (MayGo [op]) LifecycleRecord.Succeeds (history.records id)
        ((history.apply parse op).records id) := descent_apply h id
    refine hstep.trans (ih (h.apply hfirst) hrest) (fun _ _ _ => .trans) ?_ ?_
    · exact fun record => .mono (List.cons_subset_cons op (List.nil_subset ops))
    · exact fun one two hkept hgo => (hkept.mayGo hgo).mono (List.subset_cons_self op ops)

theorem orderly_of_tidy {id : ContainerId} {records : List LifecycleRecord}
    (h : TidyRecords id records) (hbounded : Bounded records) : Orderly records where
  single := by
    have hpairs := h.single.filter (·.state = .provisional)
    have hall : ∀ record ∈ records.filter (·.state = .provisional), record.state = .provisional :=
      fun record hrecord =>
      of_decide_eq_true (List.mem_filter.mp hrecord).2
    generalize records.filter (·.state = .provisional) = found at hpairs hall ⊢
    match found with
    | [] => exact Nat.zero_le 1
    | [_] => exact le_rfl
    | one :: two :: rest =>
      refine absurd (hall two (List.mem_cons_of_mem _ List.mem_cons_self)) ?_
      exact (List.pairwise_cons.mp hpairs).1 two List.mem_cons_self (hall one List.mem_cons_self)
  provisional := h.provisional
  distinct := h.distinct.imp fun happart hdated hsame => hdated (happart hsame)
  verified := h.verified
  revoked := h.revoked
  bounded := hbounded

end Lifecycles

/-- **The history stays in order.** Whatever calls are made, with start times for the verified runs,
a container's records are in order, and over any later calls each record keeps its end and its
cgroup, or goes for a reason. -/
theorem history_in_order (parse : String → Option Timestamp) (before after : List LifecycleOp)
    (hdated : ∀ op ∈ before ++ after, op.Dated) (id : ContainerId) :
    Orderly ((Lifecycles.new.applyAll parse before).records id) ∧
      Descent (MayGo after) LifecycleRecord.Succeeds
        ((Lifecycles.new.applyAll parse before).records id)
        ((Lifecycles.new.applyAll parse (before ++ after)).records id) := by
  obtain ⟨hbefore, hafter⟩ := List.forall_mem_append.mp hdated
  have htidy : (Lifecycles.new.applyAll parse before).Tidy :=
    Lifecycles.applyAll_tidy Lifecycles.tidy_new before hbefore
  have hbounded : Bounded ((Lifecycles.new.applyAll parse before).records id) :=
    Lifecycles.applyAll_bounded (fun _ hlong => absurd hlong (Nat.not_lt_zero _)) before id
  refine ⟨Lifecycles.orderly_of_tidy (htidy id) hbounded, ?_⟩
  rw [Lifecycles.applyAll_append]
  exact Lifecycles.applyAll_descent htidy after hafter id

/-- A run is verified, ends and is verified again: its record is still the one of an ended run. -/
theorem history_in_order_app :
    Orderly ((Lifecycles.new.applyAll (fun _ => some 1)
        [.verify "app" "1" ⟨⟨"/app", 7⟩, .v2, false⟩ 1, .terminate "app" 2]).records "app") ∧
      Descent (MayGo [.verify "app" "1" ⟨⟨"/app", 8⟩, .v2, false⟩ 3]) LifecycleRecord.Succeeds
        ((Lifecycles.new.applyAll (fun _ => some 1)
          [.verify "app" "1" ⟨⟨"/app", 7⟩, .v2, false⟩ 1, .terminate "app" 2]).records "app")
        ((Lifecycles.new.applyAll (fun _ => some 1)
          [.verify "app" "1" ⟨⟨"/app", 7⟩, .v2, false⟩ 1, .terminate "app" 2,
            .verify "app" "1" ⟨⟨"/app", 8⟩, .v2, false⟩ 3]).records "app") :=
  history_in_order (fun _ => some 1) [.verify "app" "1" ⟨⟨"/app", 7⟩, .v2, false⟩ 1,
    .terminate "app" 2]
    [.verify "app" "1" ⟨⟨"/app", 8⟩, .v2, false⟩ 3] (by decide) "app"

end Processor
end Sda
