import Mathlib.Data.List.Pairwise
import Mathlib.Logic.Relation
import DeviceAccess.Lib.Lists
import DeviceAccess.Processor.Lifecycle

/-!
# What the history keeps

Each operation of `Lifecycles` changes the records of one container, by one of four changes
(`Change`): records age, records are dropped, one record is upgraded, one record is added. A history
in which start times tell runs apart (`Tidy`) stays one.

`Named history id identity`: some record of the container names the cgroup. Only a move to another
cgroup and a release take such a name away.
-/

namespace Sda
namespace Processor

open V2 (Identity)

/-! ## Records -/

/-- The later record is the same run, and nothing but its end, a refresh or its revocation happened.
-/
structure LifecycleRecord.Ages (record later : LifecycleRecord) : Prop where
  containerId : later.containerId = record.containerId
  startedAt : later.startedAt = record.startedAt
  cgroup : later.cgroup = record.cgroup
  firstSeen : later.firstSeen = record.firstSeen
  state : later.state = record.state ∨ later.state = .terminal
  revoked : later.revoked = record.revoked ∨ later.state = .terminal

namespace LifecycleRecord

theorem Ages.refl (record : LifecycleRecord) : record.Ages record :=
  ⟨rfl, rfl, rfl, rfl, .inl rfl, .inl rfl⟩

theorem Ages.ended (record : LifecycleRecord) : record.Ages record.ended :=
  ⟨rfl, rfl, rfl, rfl, .inr rfl, .inr rfl⟩

theorem Ages.identity {record later : LifecycleRecord} (h : record.Ages later) :
    later.identity = record.identity := congrArg (Option.map _) h.cgroup

end LifecycleRecord

/-- The records are of different runs, if both start times are known. -/
def LifecycleRecord.Apart (one other : LifecycleRecord) : Prop :=
  one.startedAt = other.startedAt → one.startedAt = ""

instance : Std.Symm LifecycleRecord.Apart where
  symm _ _ h hstart := hstart.trans (h hstart.symm)

/-- A container's records: non-empty start times are distinct, and what is known of a run goes with
its state. -/
structure TidyRecords (id : ContainerId) (records : List LifecycleRecord) : Prop where
  containerId : ∀ record ∈ records, record.containerId = id
  provisional : ∀ record ∈ records, record.state = .provisional → record.cgroup = none ∧
    record.startedAt = ""
  single : records.Pairwise fun one other => one.state = .provisional → other.state ≠ .provisional
  verified : ∀ record ∈ records, record.state = .verified → record.cgroup ≠ none
  dated : ∀ record ∈ records, record.cgroup ≠ none → record.startedAt ≠ ""
  distinct : records.Pairwise LifecycleRecord.Apart
  revoked : ∀ record ∈ records, record.revoked = true → record.state = .terminal

/-- What one operation does to a container's records. -/
inductive Change (id : ContainerId) : List LifecycleRecord → List LifecycleRecord → Prop
  | ages {records later : List LifecycleRecord}
    (h : List.Forall₂ LifecycleRecord.Ages records later) :
    Change id records later
  | drops {records later : List LifecycleRecord} (h : later.Sublist records) :
    Change id records later
  | upgrades {front back : List LifecycleRecord} {record : LifecycleRecord} {startedAt : String}
    (cgroup : RunCgroup) (started : startedAt ≠ "")
    (h : record.startedAt = startedAt ∨
      record.state = .provisional ∧
      ∀ other ∈ front ++ record :: back, other.startedAt ≠ startedAt) :
    Change id (front ++ record :: back)
    (front ++ Lifecycles.upgrade startedAt cgroup record :: back)
  | adds {records : List LifecycleRecord} {record : LifecycleRecord}
    (tidy : TidyRecords id [record])
    (single : record.state = .provisional → ∀ other ∈ records, other.state ≠ .provisional)
    (distinct : ∀ other ∈ records, other.Apart record) :
    Change id records (records ++ [record])

namespace TidyRecords

variable {id : ContainerId} {records later front back : List LifecycleRecord}
  {record : LifecycleRecord}

/-- Two records with one non-empty start time are one record. -/
theorem eq_of_startedAt (h : TidyRecords id records) {one other : LifecycleRecord}
    (hone : one ∈ records) (hother : other ∈ records) (hstart : one.startedAt = other.startedAt)
    (hne : one.startedAt ≠ "") :
    one = other := by
  by_contra hdiff
  exact hne (h.distinct.forall hone hother hdiff hstart)

theorem ages (h : TidyRecords id records)
    (hages : List.Forall₂ LifecycleRecord.Ages records later) :
    TidyRecords id later := by
  have hfrom : ∀ record ∈ later, ∃ old ∈ records, old.Ages record :=
    fun _ => forall₂_exists_left hages
  have hstate : ∀ {old new : LifecycleRecord}, old.Ages new → new.state ≠ .terminal →
      new.state = old.state := fun hold hne => hold.state.resolve_right hne
  refine ⟨?_, ?_, ?_, ?_, ?_, ?_, ?_⟩
  · intro record hrecord
    obtain ⟨old, hmem, hold⟩ := hfrom record hrecord
    exact hold.containerId.trans (h.containerId old hmem)
  · intro record hrecord hprov
    obtain ⟨old, hmem, hold⟩ := hfrom record hrecord
    have hsame := hstate hold (by rw [hprov]; nofun)
    rw [hold.cgroup, hold.startedAt]
    exact h.provisional old hmem (hsame ▸ hprov)
  · refine forall₂_pairwise (fun old new old' new' hold hold' hpair hprov hprov' => ?_)
      hages h.single
    have hsame := hstate hold (by rw [hprov]; nofun)
    have hsame' := hstate hold' (by rw [hprov']; nofun)
    exact hpair (hsame ▸ hprov) (hsame' ▸ hprov')
  · intro record hrecord hver
    obtain ⟨old, hmem, hold⟩ := hfrom record hrecord
    have hsame := hstate hold (by rw [hver]; nofun)
    rw [hold.cgroup]
    exact h.verified old hmem (hsame ▸ hver)
  · intro record hrecord
    obtain ⟨old, hmem, hold⟩ := hfrom record hrecord
    rw [hold.cgroup, hold.startedAt]
    exact h.dated old hmem
  · refine forall₂_pairwise (fun old new old' new' hold hold' hpair => ?_) hages h.distinct
    rw [LifecycleRecord.Apart, hold.startedAt, hold'.startedAt]
    exact hpair
  · intro record hrecord hrevoked
    obtain ⟨old, hmem, hold⟩ := hfrom record hrecord
    rcases hold.revoked with hsame | hterminal
    · have hterminal := h.revoked old hmem (hsame ▸ hrevoked)
      exact hold.state.elim (fun hs => hs.trans hterminal) fun hs => hs
    · exact hterminal

theorem drops (h : TidyRecords id records) (hsub : later.Sublist records) :
    TidyRecords id later where
  containerId record hrecord := h.containerId record (hsub.subset hrecord)
  provisional record hrecord := h.provisional record (hsub.subset hrecord)
  single := h.single.sublist hsub
  verified record hrecord := h.verified record (hsub.subset hrecord)
  dated record hrecord := h.dated record (hsub.subset hrecord)
  distinct := h.distinct.sublist hsub
  revoked record hrecord := h.revoked record (hsub.subset hrecord)

/-- A tidy list splits into two that do not share a start time or a provisional record. -/
theorem append_iff : TidyRecords id (front ++ back) ↔
    TidyRecords id front ∧ TidyRecords id back ∧
      (∀ one ∈ front, ∀ other ∈ back, one.state = .provisional → other.state ≠ .provisional) ∧
      ∀ one ∈ front, ∀ other ∈ back, one.Apart other := by
  constructor
  · intro h
    exact ⟨h.drops (List.sublist_append_left _ _), h.drops (List.sublist_append_right _ _),
      (List.pairwise_append.mp h.single).2.2, (List.pairwise_append.mp h.distinct).2.2⟩
  · rintro ⟨hfront, hback, hsingle, hdistinct⟩
    exact
      { containerId := List.forall_mem_append.mpr ⟨hfront.containerId, hback.containerId⟩
        provisional := List.forall_mem_append.mpr ⟨hfront.provisional, hback.provisional⟩
        single := List.pairwise_append.mpr ⟨hfront.single, hback.single, hsingle⟩
        verified := List.forall_mem_append.mpr ⟨hfront.verified, hback.verified⟩
        dated := List.forall_mem_append.mpr ⟨hfront.dated, hback.dated⟩
        distinct := List.pairwise_append.mpr ⟨hfront.distinct, hback.distinct, hdistinct⟩
        revoked := List.forall_mem_append.mpr ⟨hfront.revoked, hback.revoked⟩ }

theorem singleton (hid : record.containerId = id)
    (hprovisional : record.state = .provisional → record.cgroup = none ∧ record.startedAt = "")
    (hverified : record.state = .verified → record.cgroup ≠ none)
    (hdated : record.cgroup ≠ none → record.startedAt ≠ "")
    (hrevoked : record.revoked = true → record.state = .terminal) : TidyRecords id [record] where
  containerId := List.forall_mem_singleton.mpr hid
  provisional := List.forall_mem_singleton.mpr hprovisional
  single := List.pairwise_singleton _ _
  verified := List.forall_mem_singleton.mpr hverified
  dated := List.forall_mem_singleton.mpr hdated
  distinct := List.pairwise_singleton _ _
  revoked := List.forall_mem_singleton.mpr hrevoked

theorem change (h : TidyRecords id records) (hchange : Change id records later) :
    TidyRecords id later := by
  cases hchange with
  | ages hages => exact h.ages hages
  | drops hsub => exact h.drops hsub
  | @upgrades front back record startedAt cgroup hstarted hfits =>
    obtain ⟨hfront, hrest, hsingle, hdistinct⟩ := append_iff.mp h
    have hrest : TidyRecords id ([record] ++ back) := hrest
    obtain ⟨hrecord, hback, hsingle', hdistinct'⟩ := append_iff.mp hrest
    -- No other record has the new start time: it was this record's own, or nobody's.
    have hfresh : ∀ other ∈ front ++ back, other.startedAt ≠ startedAt := by
      intro other hother heq
      rcases hfits with hown | ⟨-, hnone⟩
      · have hapart : other.Apart record := by
          rcases List.mem_append.mp hother with hf | hb
          · exact hdistinct other hf record List.mem_cons_self
          · exact symm (hdistinct' record List.mem_cons_self other hb)
        exact hstarted (heq ▸ hapart (heq.trans hown.symm))
      · refine hnone other ?_ heq
        simp only [List.mem_append, List.mem_cons] at hother ⊢
        exact hother.imp_right .inr
    have hstate : (Lifecycles.upgrade startedAt cgroup record).state ≠ .provisional := by
      rw [Lifecycles.upgrade]
      split <;> nofun
    have hnew : TidyRecords id [Lifecycles.upgrade startedAt cgroup record] :=
      singleton (hrecord.containerId record List.mem_cons_self) (fun hp => absurd hp hstate)
        (fun _ => nofun) (fun _ => hstarted) nofun
    have hnews : TidyRecords id ([Lifecycles.upgrade startedAt cgroup record] ++ back) := by
      refine append_iff.mpr ⟨hnew, hback, ?_, ?_⟩
      · exact List.forall_mem_singleton.mpr fun _ _ hp => absurd hp hstate
      · exact List.forall_mem_singleton.mpr fun other hother heq =>
          absurd heq.symm (hfresh other (List.mem_append_right _ hother))
    refine append_iff.mpr ⟨hfront, hnews, ?_, ?_⟩
    · intro one hone other hother hp
      rcases List.mem_cons.mp hother with rfl | hother
      · exact hstate
      · exact hsingle one hone other (List.mem_cons_of_mem _ hother) hp
    · intro one hone other hother heq
      rcases List.mem_cons.mp hother with rfl | hother
      · exact absurd heq (hfresh one (List.mem_append_left _ hone))
      · exact hdistinct one hone other (List.mem_cons_of_mem _ hother) heq
  | adds htidy hsingle hdistinct =>
    refine append_iff.mpr ⟨h, htidy, ?_, ?_⟩
    · intro one hone other hother hp hp'
      obtain rfl := List.mem_singleton.mp hother
      exact hsingle hp' one hone hp
    · intro one hone other hother
      obtain rfl := List.mem_singleton.mp hother
      exact hdistinct one hone

theorem changes (h : TidyRecords id records)
    (hchanges : Relation.ReflTransGen (Change id) records later) :
    TidyRecords id later := by
  induction hchanges with
  | refl => exact h
  | tail _ hchange ih => exact ih.change hchange

end TidyRecords

/-! ## Lists of records -/

section Lists

variable {fits : LifecycleRecord → Bool} (change : LifecycleRecord → LifecycleRecord)

/-- `changeFirst` changes one record: the first that fits. -/
theorem changeFirst_split : ∀ {records : List LifecycleRecord}, records.any fits = true →
    ∃ front record back, records = front ++ record :: back ∧ fits record = true ∧
      records.find? fits = some record ∧
      changeFirst fits change records = front ++ change record :: back
  | [], h => nomatch h
  | first :: records, h => by
    by_cases hfits : fits first = true
    · exact ⟨[], first, records, rfl, hfits,
      List.find?_cons_of_pos hfits, by simp [changeFirst, hfits]⟩
    · have hrest : records.any fits = true := by simpa [hfits] using h
      obtain ⟨front, record, back, hsplit, hrecord, hfind, hchanged⟩ := changeFirst_split hrest
      refine ⟨first :: front, record, back, by rw [hsplit, List.cons_append], hrecord, ?_, ?_⟩
      · rw [List.find?_cons_of_neg hfits, hfind]
      · rw [changeFirst, if_neg hfits, hchanged, List.cons_append]

theorem boundRecords_sublist : ∀ (fuel : Nat) (records : List LifecycleRecord),
    (boundRecords fuel records).Sublist records
  | 0, records => .refl _
  | fuel + 1, records => by
    rw [boundRecords]
    split
    · exact .refl _
    · split
      · exact .refl _
      · exact (boundRecords_sublist fuel _).trans List.eraseP_sublist

/-- The bound drops only records that name no cgroup. -/
theorem mem_boundRecords {record : LifecycleRecord} (hid : record.hasIdentity = true) :
    ∀ (fuel : Nat) (records : List LifecycleRecord), record ∈ records →
    record ∈ boundRecords fuel records
  | 0, _, h => h
  | fuel + 1, records, h => by
    rw [boundRecords]
    split
    · exact h
    · split
      · exact h
      · refine mem_boundRecords hid fuel _ ?_
        rwa [List.mem_eraseP_of_neg (by simp [hid])]

end Lists

/-! ## The history -/

namespace Lifecycles

variable {parse : String → Option Timestamp} {history later : Lifecycles} {id other : ContainerId}
  {records : List LifecycleRecord} {record : LifecycleRecord} {startedAt : String}
  {cgroup : RunCgroup} {now eventTime : Timestamp} {identity : Identity}

@[simp] theorem records_put_self : (history.put id records).records id = records :=
  Function.update_self ..

theorem records_put_of_ne (h : other ≠ id) :
    (history.put id records).records other = history.records other :=
  Function.update_of_ne h ..

/-- Every container's records are tidy. -/
def Tidy (history : Lifecycles) : Prop := ∀ id, TidyRecords id (history.records id)

/-- A record of the container names the cgroup. -/
def Named (history : Lifecycles) (id : ContainerId) (identity : Identity) : Prop :=
  ∃ record ∈ history.records id, record.identity = some identity

theorem tidy_new : new.Tidy := fun _ =>
  ⟨nofun, nofun, .nil, nofun, nofun, .nil, nofun⟩

theorem Tidy.put (h : history.Tidy)
    (hchanges : Relation.ReflTransGen (Change id) (history.records id) records) :
    (history.put id records).Tidy := by
  intro other
  by_cases hother : other = id
  · subst hother
    rw [records_put_self]
    exact (h other).changes hchanges
  · rw [records_put_of_ne hother]
    exact h other

/-! ### `provisional` -/

/-- `provisional` refreshes a record or adds one without a cgroup. -/
theorem provisional_eq (history : Lifecycles) (id : ContainerId) (now : Timestamp) :
    ∃ records, history.provisional id now = history.put id records ∧
      (List.Forall₂ (fun old new => old.Ages new ∧ new.state = old.state)
        (history.records id) records ∨
        (∀ other ∈ history.records id, other.state ≠ .provisional) ∧
          records = appendRecord (history.records id)
            ⟨id, "", none, .provisional, now, now, false⟩) := by
  rw [provisional]
  split
  next hany =>
    obtain ⟨front, record, back, hsplit, -, -, hchanged⟩ :=
      changeFirst_split ({ · with observed := now }) hany
    refine ⟨_, rfl, .inl ?_⟩
    rw [hchanged, hsplit]
    have hsame : ∀ records : List LifecycleRecord,
        List.Forall₂ (fun old new => old.Ages new ∧ new.state = old.state) records records :=
      fun records => List.forall₂_same.mpr fun record _ => ⟨.refl record, rfl⟩
    exact List.rel_append (hsame front)
      (.cons ⟨⟨rfl, rfl, rfl, rfl, .inl rfl, .inl rfl⟩, rfl⟩ (hsame back))
  next hany => exact ⟨_, rfl, .inr ⟨by simpa using hany, rfl⟩⟩

theorem changes_append (tidy : TidyRecords id [record])
    (single : record.state = .provisional → ∀ other ∈ records, other.state ≠ .provisional)
    (distinct : ∀ other ∈ records, other.Apart record) :
    Relation.ReflTransGen (Change id) records (appendRecord records record) :=
  .tail (.single (.adds tidy single distinct)) (.drops (boundRecords_sublist _ _))

theorem Tidy.provisional (h : history.Tidy) : (history.provisional id now).Tidy := by
  obtain ⟨records, heq, hages | ⟨hnone, rfl⟩⟩ := provisional_eq history id now
  · rw [heq]
    exact h.put (.single (.ages (hages.imp fun _ _ hold => hold.1)))
  · rw [heq]
    refine h.put (changes_append (.singleton rfl (fun _ => ⟨rfl, rfl⟩) nofun (absurd rfl) nofun)
      (fun _ => hnone) fun other _ hstart => hstart)

theorem Named.append (h : ∃ one ∈ records, one.identity = some identity) :
    ∃ one ∈ appendRecord records record, one.identity = some identity := by
  obtain ⟨one, hone, hid⟩ := h
  refine ⟨one, mem_boundRecords ?_ _ _ (List.mem_append_left _ hone), hid⟩
  rw [LifecycleRecord.identity] at hid
  rw [LifecycleRecord.hasIdentity]
  cases hcgroup : one.cgroup with
  | none => rw [hcgroup] at hid; cases hid
  | some _ => rfl

/-- Which records can be there after `provisional`: those that were, and one without a cgroup. -/
theorem mem_provisional (h : record ∈ (history.provisional id now).records other) :
    (∃ old ∈ history.records other, old.Ages record ∧ record.state = old.state) ∨
    record.cgroup = none := by
  obtain ⟨records, heq, hrecords⟩ := provisional_eq history id now
  rw [heq] at h
  by_cases hother : other = id
  · subst hother
    rw [records_put_self] at h
    rcases hrecords with hages | ⟨-, rfl⟩
    · exact .inl (forall₂_exists_left hages h)
    · rcases List.mem_append.mp ((boundRecords_sublist _ _).subset h) with hold | hnew
      · exact .inl ⟨record, hold, .refl record, rfl⟩
      · exact .inr (congrArg _ (List.mem_singleton.mp hnew))
  · rw [records_put_of_ne hother] at h
    exact .inl ⟨record, h, .refl record, rfl⟩

theorem Named.provisional (h : history.Named other identity) :
    (history.provisional id now).Named other identity := by
  obtain ⟨records, heq, hrecords⟩ := provisional_eq history id now
  rw [heq, Named]
  by_cases hother : other = id
  · subst hother
    rw [records_put_self]
    rcases hrecords with hages | ⟨-, rfl⟩
    · obtain ⟨old, hold, hid⟩ := h
      obtain ⟨new, hnew, hage, -⟩ := forall₂_exists_right hages hold
      exact ⟨new, hnew, hage.identity.trans hid⟩
    · exact Named.append h
  · rw [records_put_of_ne hother]
    exact h

/-! ### `verify` -/

/-- `verify` upgrades the record of the run, else a provisional one, else it adds one. -/
theorem verify_eq (history : Lifecycles) (id : ContainerId) (startedAt : String)
    (cgroup : RunCgroup) (now : Timestamp) :
    (∃ front record back, history.records id = front ++ record :: back ∧
      record.startedAt = startedAt ∧
      history.lookup id startedAt = some record ∧
      history.verify id startedAt cgroup now =
        history.put id (front ++ upgrade startedAt cgroup record :: back)) ∨
    (∀ other ∈ history.records id, other.startedAt ≠ startedAt) ∧
      ((∃ front record back, history.records id = front ++ record :: back ∧
        record.state = .provisional ∧
        history.verify id startedAt cgroup now =
          history.put id (front ++ upgrade startedAt cgroup record :: back)) ∨
      history.verify id startedAt cgroup now = history.put id
        (appendRecord (history.records id) ⟨id, startedAt, some cgroup, .verified, now, minTime,
          false⟩)) := by
  rw [verify]
  split
  next hany =>
    obtain ⟨front, record, back, hsplit, hfits, hfind, hchanged⟩ :=
      changeFirst_split (upgrade startedAt cgroup) hany
    exact .inl ⟨front, record, back, hsplit, by simpa using hfits, hfind, by rw [hchanged]⟩
  next hany =>
    refine .inr ⟨by simpa using hany, ?_⟩
    split
    next hprov =>
      obtain ⟨front, record, back, hsplit, hfits, -, hchanged⟩ :=
        changeFirst_split (upgrade startedAt cgroup) hprov
      exact .inl ⟨front, record, back, hsplit, by simpa using hfits, by rw [hchanged]⟩
    next => exact .inr rfl

theorem Tidy.verify (h : history.Tidy) (hstarted : startedAt ≠ "") :
    (history.verify id startedAt cgroup now).Tidy := by
  rcases verify_eq history id startedAt cgroup now with
    ⟨front, record, back, hsplit, hown, -, heq⟩ | ⟨hnone,
      ⟨front, record, back, hsplit, hprov, heq⟩ | heq⟩
  · rw [heq]
    exact h.put (hsplit ▸ .single (.upgrades cgroup hstarted (.inl hown)))
  · rw [heq]
    exact h.put (hsplit ▸ .single (.upgrades cgroup hstarted (.inr ⟨hprov, hsplit ▸ hnone⟩)))
  · rw [heq]
    exact h.put (changes_append (.singleton rfl nofun nofun (fun _ => hstarted) nofun) nofun
      fun other hother hstart => absurd hstart (hnone other hother))

/-- The run is recorded in the cgroup. -/
theorem mem_verify_self (history : Lifecycles) (id : ContainerId) (startedAt : String)
    (cgroup : RunCgroup) (now : Timestamp) :
    ∃ record ∈ (history.verify id startedAt cgroup now).records id,
      record.startedAt = startedAt ∧ record.cgroup = some cgroup := by
  rcases verify_eq history id startedAt cgroup now with
    ⟨front, record, back, -, -, -, heq⟩ | ⟨-, ⟨front, record, back, -, -, heq⟩ | heq⟩
  · rw [heq, records_put_self]
    exact ⟨upgrade startedAt cgroup record, by simp, rfl, rfl⟩
  · rw [heq, records_put_self]
    exact ⟨upgrade startedAt cgroup record, by simp, rfl, rfl⟩
  · rw [heq, records_put_self]
    exact ⟨_, mem_boundRecords rfl _ _ (List.mem_append_right _ (List.mem_singleton_self _)), rfl,
      rfl⟩

/-- Which records can be there after `verify`: those that were, and the run's in the new cgroup. It
is ended only if it was. -/
theorem mem_verify (h : record ∈ (history.verify id startedAt cgroup now).records other) :
    record ∈ history.records other ∨ other = id ∧ record.startedAt = startedAt ∧
      record.cgroup = some cgroup ∧ (record.state = .terminal →
        ∃ old ∈ history.records id, old.startedAt = startedAt ∧ old.state = .terminal) := by
  by_cases hother : other = id
  swap
  · left
    rcases verify_eq history id startedAt cgroup now with
      ⟨front, old, back, -, -, -, heq⟩ | ⟨-, ⟨front, old, back, -, -, heq⟩ | heq⟩ <;>
    rwa [heq, records_put_of_ne hother] at h
  subst hother
  have hupgraded : ∀ {front back : List LifecycleRecord} {old : LifecycleRecord},
      history.records other = front ++ old :: back →
      record ∈ front ++ upgrade startedAt cgroup old :: back →
      record ∈ history.records other ∨ record = upgrade startedAt cgroup old := by
    intro front back old hsplit hmem
    rw [hsplit]
    simp only [List.mem_append, List.mem_cons] at hmem ⊢
    rcases hmem with hmem | rfl | hmem
    · exact .inl (.inl hmem)
    · exact .inr rfl
    · exact .inl (.inr (.inr hmem))
  rcases verify_eq history other startedAt cgroup now with
    ⟨front, old, back, hsplit, hown, -, heq⟩ | ⟨-, ⟨front, old, back, hsplit, hprov, heq⟩ | heq⟩
  · rw [heq, records_put_self] at h
    refine (hupgraded hsplit h).imp_right fun hnew =>
      ⟨rfl, by rw [hnew]; rfl, by rw [hnew]; rfl, ?_⟩
    intro hterminal
    refine ⟨old, hsplit ▸ by simp, hown, ?_⟩
    rw [hnew, upgrade] at hterminal
    by_contra hne
    rw [if_neg hne] at hterminal
    cases hterminal
  · rw [heq, records_put_self] at h
    refine (hupgraded hsplit h).imp_right fun hnew =>
      ⟨rfl, by rw [hnew]; rfl, by rw [hnew]; rfl, ?_⟩
    intro hterminal
    rw [hnew, upgrade, hprov] at hterminal
    cases hterminal
  · rw [heq, records_put_self] at h
    rcases List.mem_append.mp ((boundRecords_sublist _ _).subset h) with hold | hnew
    · exact .inl hold
    · obtain rfl := List.mem_singleton.mp hnew
      exact .inr ⟨rfl, rfl, rfl, nofun⟩

/-- A name goes in `verify` only if the run was recorded there and is now verified elsewhere. -/
theorem Named.verify (htidy : history.Tidy) (h : history.Named other identity) (id : ContainerId)
    (startedAt : String) (cgroup : RunCgroup) (now : Timestamp) :
    (history.verify id startedAt cgroup now).Named other identity ∨
      other = id ∧ identity ≠ cgroup.identity ∧
        ∃ record, history.lookup id startedAt = some record ∧ record.identity = some identity := by
  obtain ⟨named, hnamed, hid⟩ := h
  by_cases hother : other = id
  swap
  · refine .inl ⟨named, ?_, hid⟩
    rcases verify_eq history id startedAt cgroup now with
      ⟨front, old, back, -, -, -, heq⟩ | ⟨-, ⟨front, old, back, -, -, heq⟩ | heq⟩ <;>
    rwa [heq, records_put_of_ne hother]
  subst hother
  have hkept : ∀ {front back : List LifecycleRecord} {old new : LifecycleRecord},
      history.records other = front ++ old :: back → named ≠ old →
        named ∈ front ++ new :: back := by
    intro front back old new hsplit hne
    rw [hsplit] at hnamed
    simp only [List.mem_append, List.mem_cons] at hnamed ⊢
    exact hnamed.imp_right fun hrest => .inr (hrest.resolve_left hne)
  rcases verify_eq history other startedAt cgroup now with
    ⟨front, old, back, hsplit, hown, hlookup, heq⟩ | ⟨-,
      ⟨front, old, back, hsplit, hprov, heq⟩ | heq⟩
  · by_cases hold : named = old
    · by_cases hsame : identity = cgroup.identity
      · refine .inl ⟨upgrade startedAt cgroup old, ?_, congrArg some hsame.symm⟩
        rw [heq, records_put_self]
        simp
      · exact .inr ⟨rfl, hsame, old, hlookup, hold ▸ hid⟩
    · refine .inl ⟨named, ?_, hid⟩
      rw [heq, records_put_self]
      exact hkept hsplit hold
  · refine .inl ⟨named, ?_, hid⟩
    rw [heq, records_put_self]
    refine hkept hsplit ?_
    rintro rfl
    rw [LifecycleRecord.identity, ((htidy other).provisional named hnamed hprov).1] at hid
    cases hid
  · refine .inl ?_
    rw [Named, heq, records_put_self]
    exact Named.append ⟨named, hnamed, hid⟩

/-! ### What only ages records -/

/-- Every record is one that was there, aged; and every one that was there still is. -/
def Ages (history later : Lifecycles) : Prop :=
  ∀ id, List.Forall₂ LifecycleRecord.Ages (history.records id) (later.records id)

theorem ages_put (h : List.Forall₂ LifecycleRecord.Ages (history.records id) records) :
    history.Ages (history.put id records) := by
  intro other
  by_cases hother : other = id
  · subst hother
    rwa [records_put_self]
  · rw [records_put_of_ne hother]
    exact List.forall₂_same.mpr fun record _ => .refl record

theorem Tidy.ages (h : history.Tidy) (hages : history.Ages later) : later.Tidy := fun id =>
  (h id).ages (hages id)

theorem Named.ages (h : history.Named id identity) (hages : history.Ages later) :
    later.Named id identity := by
  obtain ⟨old, hold, hid⟩ := h
  obtain ⟨new, hnew, hage⟩ := forall₂_exists_right (hages id) hold
  exact ⟨new, hnew, hage.identity.trans hid⟩

/-- What a change of one run's records does to any record. -/
theorem mem_update {change : LifecycleRecord → LifecycleRecord}
    (h : record ∈ (history.update id startedAt change).records other) :
    ∃ old ∈ history.records other,
      record = old ∨ other = id ∧ old.startedAt = startedAt ∧ record = change old := by
  by_cases hother : other = id
  · subst hother
    rw [update, records_put_self] at h
    obtain ⟨old, hold, rfl⟩ := List.mem_map.mp h
    refine ⟨old, hold, ?_⟩
    split
    next hstart => exact .inr ⟨rfl, hstart, rfl⟩
    next => exact .inl rfl
  · rw [update, records_put_of_ne hother] at h
    exact ⟨record, h, .inl rfl⟩

theorem ages_update {change : LifecycleRecord → LifecycleRecord}
    (hchange : ∀ record : LifecycleRecord, record.Ages (change record)) :
    history.Ages (history.update id startedAt change) := by
  refine ages_put ?_
  rw [List.forall₂_map_right_iff, List.forall₂_same]
  intro record _
  split
  · exact hchange record
  · exact .refl record

theorem ages_markTerminal : history.Ages (history.markTerminal id startedAt) :=
  ages_update LifecycleRecord.Ages.ended

theorem ages_markRevoked : history.Ages (history.markRevoked id startedAt) := by
  refine ages_update fun record => ?_
  split
  next h => exact ⟨rfl, rfl, rfl, rfl, .inl rfl, .inr h⟩
  next => exact .refl record

theorem mem_markRevoked (h : record ∈ (history.markRevoked id startedAt).records other) :
    ∃ old ∈ history.records other, old.Ages record ∧ record.state = old.state := by
  obtain ⟨old, hold, rfl | ⟨-, -, rfl⟩⟩ := mem_update h
  · exact ⟨record, hold, .refl record, rfl⟩
  · refine ⟨old, hold, ?_⟩
    split
    next hstate => exact ⟨⟨rfl, rfl, rfl, rfl, .inl rfl, .inr hstate⟩, rfl⟩
    next => exact ⟨.refl old, rfl⟩

/-! ### `terminate` -/

/-- The run that is chosen is one of the records. -/
theorem matchRun_mem :
    ∀ {records : List LifecycleRecord} {index : Nat} {found : Option (Nat × Timestamp)}
    {chosen : Nat} {started : Timestamp}, matchRun parse eventTime index records found =
    some (chosen, started) →
    found = some (chosen, started) ∨ ∃ offset record, chosen = index + offset ∧
      records[offset]? = some record ∧ candidateStart parse eventTime record = some started
  | [], _, _, _, _, h => .inl h
  | first :: records, index, found, chosen, started, h => by
    rw [matchRun] at h
    rcases matchRun_mem h with hfound | ⟨offset, record, rfl, hget, hstart⟩
    · split at hfound
      next => exact .inl hfound
      next candidate hcandidate =>
        split at hfound
        · cases hfound
          exact .inr ⟨0, first, rfl, rfl, hcandidate⟩
        · exact .inl hfound
    · exact .inr ⟨offset + 1, record, by omega, hget, hstart⟩

/-- The event can end the record: it names no cgroup yet, or its run started no later. -/
def Ends (parse : String → Option Timestamp) (eventTime : Timestamp) (record : LifecycleRecord) :
    Prop :=
  record.state = .provisional ∨ ∃ started, record.started parse = some started ∧ started ≤ eventTime

theorem ends_of_candidate {started : Timestamp}
    (h : candidateStart parse eventTime record = some started) :
    Ends parse eventTime record := by
  rw [candidateStart] at h
  split at h
  · cases h
  · split at h
    · cases h
    · next start hstart =>
      split at h
      · cases h
      · next hlate =>
        cases h
        refine .inr ⟨started, hstart, ?_⟩
        simp only [Bool.or_eq_true, decide_eq_true_eq, not_or] at hlate
        exact not_lt.mp hlate.2

/-- Every record that `terminate` changes is one the event can end, and it gives what it changed. -/
theorem terminate_eq (parse : String → Option Timestamp) (history : Lifecycles) (id : ContainerId)
    (eventTime : Timestamp) :
    ∃ records, (history.terminate parse id eventTime).1 = history.put id records ∧
      List.Forall₂ (fun old new => new = old ∨ new = old.ended ∧ Ends parse eventTime old)
        (history.records id) records ∧
      ∀ record ∈ (history.terminate parse id eventTime).2,
        ∃ old ∈ history.records id, record = old.ended ∧ Ends parse eventTime old := by
  rw [terminate]
  split
  next index started hmatch =>
    obtain hfound | ⟨offset, record, rfl, hget, hstart⟩ := matchRun_mem hmatch
    · cases hfound
    have hends := ends_of_candidate hstart
    rw [Nat.zero_add] at *
    refine ⟨_, rfl, ?_, ?_⟩
    · refine List.forall₂_iff_get.mpr ⟨(List.length_modify ..).symm, fun i h₁ h₂ => ?_⟩
      simp only [List.get_eq_getElem, List.getElem_modify]
      split
      next heq =>
        subst heq
        rw [List.getElem?_eq_getElem h₁] at hget
        cases hget
        exact .inr ⟨rfl, hends⟩
      next => exact .inl rfl
    · intro ended hended
      rw [hget] at hended
      obtain rfl : ended = record.ended := by simpa using hended
      exact ⟨record, List.mem_of_getElem? hget, rfl, hends⟩
  next =>
    refine ⟨_, rfl, ?_, ?_⟩
    · rw [List.forall₂_map_right_iff, List.forall₂_same]
      intro record _
      split
      next hprov => exact .inr ⟨rfl, .inl hprov⟩
      next => exact .inl rfl
    · intro ended hended
      obtain ⟨record, hrecord, rfl⟩ := List.mem_map.mp hended
      obtain ⟨hmem, hprov⟩ := List.mem_filter.mp hrecord
      exact ⟨record, hmem, rfl, .inl (by simpa using hprov)⟩

theorem ages_terminate : history.Ages (history.terminate parse id eventTime).1 := by
  obtain ⟨records, heq, hrecords, -⟩ := terminate_eq parse history id eventTime
  rw [heq]
  refine ages_put (hrecords.imp fun old new hnew => ?_)
  rcases hnew with rfl | ⟨rfl, -⟩
  · exact .refl new
  · exact .ended old

theorem mem_terminate (h : record ∈ (history.terminate parse id eventTime).1.records other) :
    ∃ old ∈ history.records other, old.Ages record ∧
      (record.state = old.state ∨ other = id ∧ Ends parse eventTime old) := by
  obtain ⟨records, heq, hrecords, -⟩ := terminate_eq parse history id eventTime
  rw [heq] at h
  by_cases hother : other = id
  · subst hother
    rw [records_put_self] at h
    obtain ⟨old, hold, rfl | ⟨rfl, hends⟩⟩ := forall₂_exists_left hrecords h
    · exact ⟨record, hold, .refl record, .inl rfl⟩
    · exact ⟨old, hold, .ended old, .inr ⟨rfl, hends⟩⟩
  · rw [records_put_of_ne hother] at h
    exact ⟨record, h, .refl record, .inl rfl⟩

/-! ### `release` -/

theorem mem_release {released : LifecycleRecord} :
    record ∈ (history.release released).records other ↔ record ∈ history.records other ∧
      (other = released.containerId → record.startedAt = released.startedAt →
        record.firstSeen ≠ released.firstSeen) := by
  by_cases hother : other = released.containerId
  · subst hother
    rw [release, records_put_self, List.mem_filter]
    refine and_congr_right fun _ => ?_
    by_cases hstart : record.startedAt = released.startedAt <;> simp [hstart]
  · rw [release, records_put_of_ne hother]
    simp [hother]

theorem Tidy.release (h : history.Tidy) {released : LifecycleRecord} :
    (history.release released).Tidy :=
  h.put (.single (.drops List.filter_sublist))

/-! ## Copies -/

/-- What a release of the copy removes is recorded in the copy's cgroup. -/
def Copies (history : Lifecycles) (copy : LifecycleRecord) : Prop :=
  ∀ record ∈ history.records copy.containerId, record.startedAt = copy.startedAt →
    record.firstSeen = copy.firstSeen → record.cgroup = copy.cgroup

theorem Tidy.copies (h : history.Tidy) (hmem : record ∈ history.records id) :
    history.Copies record := by
  intro other hother hstart _
  rw [(h id).containerId record hmem] at hother
  by_cases hempty : record.startedAt = ""
  · have hnone : ∀ one ∈ history.records id, one.startedAt = "" → one.cgroup = none :=
      fun one hone hone' =>
      by_contra fun hcgroup => (h id).dated one hone hcgroup hone'
    rw [hnone other hother (hstart.trans hempty), hnone record hmem hempty]
  · rw [(h id).eq_of_startedAt hother hmem hstart (hstart ▸ hempty)]

/-- A copy stays one while records only age and go. -/
theorem Copies.fade {copy : LifecycleRecord} (h : history.Copies copy)
    (hlater : ∀ id, ∀ record ∈ later.records id, ∃ old ∈ history.records id, old.Ages record) :
    later.Copies copy := by
  intro record hrecord hstart hseen
  obtain ⟨old, hold, hage⟩ := hlater _ record hrecord
  rw [hage.cgroup]
  exact h old hold (hage.startedAt ▸ hstart) (hage.firstSeen ▸ hseen)

theorem Copies.ages {copy : LifecycleRecord} (h : history.Copies copy)
    (hages : history.Ages later) :
    later.Copies copy := h.fade fun id _ hrecord => forall₂_exists_left (hages id) hrecord

theorem Copies.release {copy released : LifecycleRecord} (h : history.Copies copy) :
    (history.release released).Copies copy :=
  h.fade fun _ record hrecord => ⟨record, (mem_release.mp hrecord).1, .refl record⟩

theorem Copies.ended {copy : LifecycleRecord} (h : history.Copies copy) :
    history.Copies copy.ended := h

/-- A name goes in a release only with the released record's cgroup. -/
theorem Named.release {copy : LifecycleRecord} (hcopy : history.Copies copy)
    (h : history.Named id identity) :
    (history.release copy).Named id identity ∨ id = copy.containerId ∧
    copy.identity = some identity := by
  obtain ⟨record, hrecord, hid⟩ := h
  by_cases hkept : id = copy.containerId → record.startedAt = copy.startedAt →
      record.firstSeen ≠ copy.firstSeen
  · exact .inl ⟨record, mem_release.mpr ⟨hrecord, hkept⟩, hid⟩
  · push Not at hkept
    obtain ⟨rfl, hstart, hseen⟩ := hkept
    refine .inr ⟨rfl, ?_⟩
    rw [LifecycleRecord.identity, ← hcopy record hrecord hstart hseen]
    exact hid

end Lifecycles
end Processor
end Sda
