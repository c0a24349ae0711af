import DeviceAccess.Daemon.Coalesce
import DeviceAccess.Processor.Succession

/-!
# Which run an end event ends

`terminate` marks the run with the latest start not after the event, or the provisional records if
there is no such run. Over every history it spares what started later: a provisional record has no
start time (`Undated`).
-/

namespace Sda
namespace Daemon

open Processor

/-- A provisional record has no start time. -/
def Undated (records : List LifecycleRecord) : Prop :=
  ∀ record ∈ records, record.state = .provisional → record.startedAt = ""

section Undated

variable {parse : String → Option Timestamp} {history : Lifecycles}
  {records later : List LifecycleRecord}

theorem Undated.ages (h : Undated records)
    (hages : List.Forall₂ LifecycleRecord.Ages records later) :
    Undated later := by
  intro record hrecord hprov
  obtain ⟨old, hold, hage⟩ := forall₂_exists_left hages hrecord
  rw [hage.startedAt]
  refine h old hold (hage.state.elim (fun hsame => hsame ▸ hprov) fun hterminal => ?_)
  cases hterminal.symm.trans hprov

theorem Undated.sublist (h : Undated records) (hsub : later.Sublist records) : Undated later :=
  fun record hrecord => h record (hsub.subset hrecord)

theorem Undated.append {record : LifecycleRecord} (h : Undated records)
    (hnew : record.state = .provisional → record.startedAt = "") :
    Undated (appendRecord records record) := by
  refine Undated.sublist (fun one hone => ?_) (boundRecords_sublist _ _)
  rcases List.mem_append.mp hone with hold | hlast
  · exact h one hold
  · cases List.mem_singleton.mp hlast
    exact hnew

theorem Undated.upgrade {front back : List LifecycleRecord} {record : LifecycleRecord}
    {startedAt : String} {cgroup : RunCgroup} (h : Undated (front ++ record :: back)) :
    Undated (front ++ Lifecycles.upgrade startedAt cgroup record :: back) := by
  intro one hone
  rcases List.mem_append.mp hone with hfront | hback
  · exact h one (List.mem_append_left _ hfront)
  · rcases List.mem_cons.mp hback with rfl | hback
    · intro hprov
      rw [Lifecycles.upgrade] at hprov
      split at hprov <;> cases hprov
    · exact h one (List.mem_append_right _ (List.mem_cons_of_mem _ hback))

theorem undated_apply (h : ∀ id, Undated (history.records id)) (op : LifecycleOp)
    (id : ContainerId) :
    Undated ((history.apply parse op).records id) := by
  cases op with
  | provisional changed now =>
    obtain ⟨records, heq, hages | ⟨-, rfl⟩⟩ := Lifecycles.provisional_eq history changed now
    all_goals
      rw [Lifecycles.apply, heq]
      refine Lifecycles.records_put_forall (fun _ => Undated) ?_ h id
    · exact (h changed).ages (hages.imp fun _ _ hold => hold.1)
    · exact (h changed).append fun _ => rfl
  | verify changed startedAt cgroup now =>
    rcases Lifecycles.verify_eq history changed startedAt cgroup now with
      ⟨front, old, back, hsplit, -, -, heq⟩ | ⟨-, ⟨front, old, back, hsplit, -, heq⟩ | heq⟩
    all_goals
      rw [Lifecycles.apply, heq]
      refine Lifecycles.records_put_forall (fun _ => Undated) ?_ h id
    · exact (hsplit ▸ h changed).upgrade
    · exact (hsplit ▸ h changed).upgrade
    · refine (h changed).append fun hstate => ?_
      cases hstate
  | terminate changed eventTime => exact (h id).ages (Lifecycles.ages_terminate id)
  | markTerminal changed startedAt => exact (h id).ages (Lifecycles.ages_markTerminal id)
  | markRevoked changed startedAt => exact (h id).ages (Lifecycles.ages_markRevoked id)
  | release released =>
    exact Lifecycles.records_put_forall (fun _ => Undated) ((h _).sublist List.filter_sublist) h id

private theorem undated_applyAll (h : ∀ id, Undated (history.records id)) (ops : List LifecycleOp)
    (id : ContainerId) :
    Undated ((history.applyAll parse ops).records id) := by
  induction ops generalizing history with
  | nil => exact h id
  | cons op ops ih => exact ih (undated_apply h op)

end Undated

/-! ## What an event does -/

/-- Some run of the container can have ended by the event. -/
def HasRun (parse : String → Option Timestamp) (records : List LifecycleRecord)
    (eventTime : Timestamp) : Prop :=
  ∃ record ∈ records, ∃ start, IsRun parse record start ∧ start ≤ eventTime

/-- What an end event does to the history. -/
structure EndsRight (parse : String → Option Timestamp) (history : Lifecycles) (id : ContainerId)
    (eventTime : Timestamp) : Prop where
  /-- The run it ended is marked, and nothing else. -/
  ended : HasRun parse (history.records id) eventTime →
    ∃ index record, RunAt parse (history.records id) eventTime index ∧
      (history.records id)[index]? = some record ∧
      (history.terminate parse id eventTime).2 = [record.ended] ∧
      (history.terminate parse id eventTime).1.records id = (history.records id).set
        index record.ended
  /-- Without one the provisional records are marked, and nothing else. -/
  fallback : ¬ HasRun parse (history.records id) eventTime →
    (history.terminate parse id eventTime).2 =
        ((history.records id).filter (·.state = .provisional)).map (·.ended) ∧
      (history.terminate parse id eventTime).1.records id =
        (history.records id).map fun record => if record.state = .provisional then
          record.ended else record
  /-- A run that started after the event is left as it is. -/
  later : ∀ (index : Nat) record start, (history.records id)[index]? = some record →
    record.started parse = some start → eventTime < start →
    ((history.terminate parse id eventTime).1.records id)[index]? = some record
  others : ∀ other, other ≠ id →
    (history.terminate parse id eventTime).1.records other = history.records other

section EndsRight

variable {parse : String → Option Timestamp} {history : Lifecycles} {id : ContainerId}
  {eventTime : Timestamp} {records : List LifecycleRecord}

theorem hasRun_iff : HasRun parse records eventTime ↔
    ∃ index, RunAt parse records eventTime index := by
  constructor
  · rintro ⟨record, hrecord, start, hrun, hle⟩
    cases hmatch : matchRun parse eventTime 0 records none with
    | some found => exact ⟨found.1, matchRun_iff.mp ⟨found.2, hmatch⟩⟩
    | none =>
      have hfound : Found parse eventTime ([] ++ records)
          (matchRun parse eventTime 0 records none) :=
        @found_matchRun parse eventTime records [] none nofun
      rw [hmatch] at hfound
      exact absurd ((hfound record hrecord).symm.trans (candidateStart_iff.mpr ⟨hrun, hle⟩)) nofun
  · rintro ⟨index, record, start, hget, hrun, hle, -⟩
    exact ⟨record, List.mem_of_getElem? hget, start, hrun, hle⟩

theorem terminate_of_run {index : Nat} (h : RunAt parse (history.records id) eventTime index) :
    ∃ record, (history.records id)[index]? = some record ∧
      (history.terminate parse id eventTime).2 = [record.ended] ∧
      (history.terminate parse id eventTime).1.records id = (history.records id).set index
      record.ended := by
  obtain ⟨start, hmatch⟩ := matchRun_iff.mpr h
  obtain ⟨record, -, hget, -⟩ := h
  refine ⟨record, hget, ?_, ?_⟩
  · rw [Lifecycles.terminate, hmatch]
    simp only [hget, Option.map_some, Option.toList_some]
  · rw [terminate_records, endRecords, hmatch]
    exact List.modify_eq_set_getElem? _ _ _ |>.trans (by rw [hget]; rfl)

theorem terminate_of_none (h : ¬ HasRun parse (history.records id) eventTime) :
    (history.terminate parse id eventTime).2 =
        ((history.records id).filter (·.state = .provisional)).map (·.ended) ∧
      (history.terminate parse id eventTime).1.records id =
        (history.records id).map fun record => if record.state = .provisional then record.ended
        else record := by
  have hmatch : matchRun parse eventTime 0 (history.records id) none = none := by
    cases hmatch : matchRun parse eventTime 0 (history.records id) none with
    | none => rfl
    | some found => exact absurd (hasRun_iff.mpr ⟨found.1, matchRun_iff.mp ⟨found.2, hmatch⟩⟩) h
  refine ⟨by rw [Lifecycles.terminate, hmatch], ?_⟩
  rw [terminate_records, endRecords, hmatch]

/-- An event marks no run that started after it. -/
theorem not_marks_later (hundated : Undated records) {index : Nat} {record : LifecycleRecord}
    {start : Timestamp} (hget : records[index]? = some record)
    (hstart : record.started parse = some start) (hlt : eventTime < start) :
    ¬ Marks parse records eventTime index := by
  rintro (⟨other, start', hother, ⟨-, -, hstart'⟩, hle, -⟩ | ⟨-, other, hother, hprov⟩)
  · cases hget.symm.trans hother
    cases hstart.symm.trans hstart'
    exact absurd hlt (not_lt.mpr hle)
  · cases hget.symm.trans hother
    rw [LifecycleRecord.started,
      if_pos (hundated record (List.mem_of_getElem? hget) hprov)] at hstart
    cases hstart

/-- **An end event ends the right run**, in every history that calls can make. -/
theorem terminate_ends_right (parse : String → Option Timestamp) (ops : List LifecycleOp)
    (id : ContainerId) (eventTime : Timestamp) :
    EndsRight parse (Lifecycles.new.applyAll parse ops) id eventTime where
  ended h := by
    obtain ⟨index, hrun⟩ := hasRun_iff.mp h
    obtain ⟨record, hrest⟩ := terminate_of_run hrun
    exact ⟨index, record, hrun, hrest⟩
  fallback := terminate_of_none
  later index record start hget hstart hlt := by
    have hundated : Undated ((Lifecycles.new.applyAll parse ops).records id) :=
      undated_applyAll (fun _ _ h => absurd h List.not_mem_nil) ops id
    rw [terminate_records]
    rcases endRecords_get index with ⟨hmarks, -⟩ | ⟨-, hsame⟩
    · exact absurd hmarks (not_marks_later hundated hget hstart hlt)
    · rw [hsame, hget]
  others other hother := by
    obtain ⟨records, heq, -⟩ :=
      Lifecycles.terminate_eq parse (Lifecycles.new.applyAll parse ops) id eventTime
    rw [heq, Lifecycles.records_put_of_ne hother]

end EndsRight

end Daemon
end Sda
