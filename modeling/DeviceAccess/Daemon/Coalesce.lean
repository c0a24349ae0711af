import DeviceAccess.Daemon.Coordinator
import DeviceAccess.Processor.OnRecord

/-!
# Ends of runs that are queued together

A reservation keeps one time for all ends of runs that are reported while the container is handled,
the latest. `terminate` ends one run by that time. So a run whose end was reported by an earlier
event can be left as it is: `coalescing_loses_end`. `coalesced_ends` says exactly when that does not
happen.
-/

namespace Sda
namespace Daemon

open Processor
open Lifecycles (records_put_self)

/-! ## The run that ended -/

section Runs

variable (parse : String → Option Timestamp)

/-- The record is of a run that `terminate` can choose: it was verified, in a cgroup, and its start
can be read. -/
def IsRun (record : LifecycleRecord) (start : Timestamp) : Prop :=
  record.state ≠ .provisional ∧ record.hasIdentity = true ∧ record.started parse = some start

/-- The run that an event of this time ended: the one with the latest start not after it. -/
def RunAt (records : List LifecycleRecord) (eventTime : Timestamp) (index : Nat) : Prop :=
  ∃ record start, records[index]? = some record ∧ IsRun parse record start ∧ start ≤ eventTime ∧
    ∀ other record' start', records[other]? = some record' → IsRun parse record' start' →
      start' ≤ eventTime →
      start' < start ∨ start' = start ∧ index ≤ other

end Runs

section Match

variable {parse : String → Option Timestamp} {records : List LifecycleRecord}
  {record : LifecycleRecord} {eventTime start : Timestamp} {index : Nat}

theorem candidateStart_iff :
    candidateStart parse eventTime record = some start ↔ IsRun parse record start ∧
    start ≤ eventTime := by
  rw [candidateStart, IsRun]
  split
  next hprov => simp [hprov]
  next hprov =>
    cases hstarted : record.started parse with
    | none => simp
    | some started =>
      by_cases hfits : record.hasIdentity = true ∧ started ≤ eventTime
      · obtain ⟨hid, hle⟩ := hfits
        simp only [hid, Bool.not_true, Bool.false_or, decide_eq_true_eq, not_lt.mpr hle, if_false]
        constructor
        · rintro ⟨⟩
          exact ⟨⟨hprov, trivial, rfl⟩, hle⟩
        · rintro ⟨⟨-, -, ⟨⟩⟩, -⟩
          rfl
      · have hno : (!record.hasIdentity || decide (eventTime < started)) = true := by
          rcases not_and_or.mp hfits with h | h
          · simp [h]
          · simp [not_le.mp h]
        simp only [hno, if_true]
        refine iff_of_false (Option.some_ne_none start).symm ?_
        rintro ⟨⟨-, hid, ⟨⟩⟩, hle⟩
        exact hfits ⟨hid, hle⟩

/-- What the loop of `terminate` has found among the records so far. -/
def Found (parse : String → Option Timestamp) (eventTime : Timestamp)
    (records : List LifecycleRecord) :
    Option (Nat × Timestamp) → Prop
  | none => ∀ record ∈ records, candidateStart parse eventTime record = none
  | some (index, start) =>
    ∃ record, records[index]? = some record ∧ candidateStart parse eventTime record = some start ∧
      ∀ other record' start', records[other]? = some record' →
        candidateStart parse eventTime record' = some start' →
        start' < start ∨ start' = start ∧ index ≤ other

theorem getElem?_snoc {other : Nat} {record' : LifecycleRecord}
    (h : (records ++ [record])[other]? = some record') :
    records[other]? = some record' ∨ other = records.length ∧ record' = record := by
  rcases Nat.lt_or_ge other records.length with hlt | hge
  · exact .inl (by rwa [List.getElem?_append_left hlt] at h)
  · rw [List.getElem?_append_right hge, List.getElem?_singleton] at h
    split at h
    next hzero =>
      cases h
      exact .inr ⟨by omega, rfl⟩
    next => cases h

theorem found_snoc {found : Option (Nat × Timestamp)} (h : Found parse eventTime records found) :
    Found parse eventTime (records ++ [record])
      (match candidateStart parse eventTime record with
      | none => found
      | some started =>
        if found.all fun (_, start) => start < started then some (records.length, started)
          else found) := by
  have hlast : (records ++ [record])[records.length]? = some record := by simp
  have hkeep : ∀ {index record'}, records[index]? = some record' →
      (records ++ [record])[index]? = some record' :=
    fun hget => by rw [List.getElem?_append_left (List.getElem?_eq_some_iff.mp hget).1, hget]
  cases hcandidate : candidateStart parse eventTime record with
  | none =>
    cases found with
    | none =>
      refine List.forall_mem_append.mpr ⟨h, List.forall_mem_singleton.mpr hcandidate⟩
    | some found =>
      obtain ⟨record', hget, hstart, hnewest⟩ := h
      refine ⟨record', hkeep hget, hstart, fun other record'' start' hother hstart' => ?_⟩
      rcases getElem?_snoc hother with hother | ⟨-, rfl⟩
      · exact hnewest other record'' start' hother hstart'
      · exact absurd (hcandidate.symm.trans hstart') nofun
  | some started =>
    cases found with
    | none =>
      refine ⟨record, hlast, hcandidate, fun other record' start' hother hstart' => ?_⟩
      rcases getElem?_snoc hother with hother | ⟨rfl, rfl⟩
      · exact absurd ((h record' (List.mem_of_getElem? hother)).symm.trans hstart') nofun
      · exact .inr ⟨Option.some.inj (hstart'.symm.trans hcandidate), le_rfl⟩
    | some found =>
      obtain ⟨record', hget, hstart, hnewest⟩ := h
      by_cases hlt : found.2 < started
      · simp only [Option.all_some, hlt, decide_true, if_true]
        refine ⟨record, hlast, hcandidate, fun other record'' start' hother hstart' => ?_⟩
        rcases getElem?_snoc hother with hother | ⟨rfl, rfl⟩
        · rcases hnewest other record'' start' hother hstart' with h | ⟨h, -⟩
          · exact .inl (h.trans hlt)
          · exact .inl (h ▸ hlt)
        · exact .inr ⟨Option.some.inj (hstart'.symm.trans hcandidate), le_rfl⟩
      · simp only [Option.all_some, hlt, decide_false, Bool.false_eq_true, if_false]
        refine ⟨record', hkeep hget, hstart, fun other record'' start' hother hstart' => ?_⟩
        rcases getElem?_snoc hother with hother | ⟨rfl, rfl⟩
        · exact hnewest other record'' start' hother hstart'
        · cases hcandidate.symm.trans hstart'
          have hindex := (List.getElem?_eq_some_iff.mp hget).1
          exact (lt_or_eq_of_le (not_lt.mp hlt)).imp_right fun h => ⟨h, hindex.le⟩

theorem found_matchRun : ∀ {back front : List LifecycleRecord} {found : Option (Nat × Timestamp)},
    Found parse eventTime front found →
      Found parse eventTime (front ++ back) (matchRun parse eventTime front.length back found)
  | [], front, found, h => by
    rw [List.append_nil]
    exact h
  | record :: back, front, found, h => by
    have hnext : Found parse eventTime (front ++ [record] ++ back) _ :=
  found_matchRun (found_snoc h)
    rw [List.append_assoc, List.singleton_append, List.length_append,
      List.length_singleton] at hnext
    exact hnext

/-- `terminate` chooses the run that the event ended, if there is one. -/
theorem matchRun_iff :
    (∃ start, matchRun parse eventTime 0 records none = some (index, start)) ↔
    RunAt parse records eventTime index := by
  have hfound : Found parse eventTime ([] ++ records) (matchRun parse eventTime 0 records none) :=
    @found_matchRun parse eventTime records [] none nofun
  rw [List.nil_append] at hfound
  constructor
  · rintro ⟨start, hmatch⟩
    rw [hmatch] at hfound
    obtain ⟨record, hget, hstart, hnewest⟩ := hfound
    obtain ⟨hrun, hle⟩ := candidateStart_iff.mp hstart
    refine ⟨record, start, hget, hrun, hle, fun other record' start' hother hrun' hle' => ?_⟩
    exact hnewest other record' start' hother (candidateStart_iff.mpr ⟨hrun', hle'⟩)
  · rintro ⟨record, start, hget, hrun, hle, hnewest⟩
    have hstart := candidateStart_iff.mpr ⟨hrun, hle⟩
    cases hmatch : matchRun parse eventTime 0 records none with
    | none =>
      rw [hmatch] at hfound
      exact absurd ((hfound record (List.mem_of_getElem? hget)).symm.trans hstart) nofun
    | some found =>
      rw [hmatch] at hfound
      obtain ⟨record', hget', hstart', hnewest'⟩ := hfound
      obtain ⟨hrun', hle'⟩ := candidateStart_iff.mp hstart'
      have hone := hnewest found.1 record' found.2 hget' hrun' hle'
      have hother := hnewest' index record start hget hstart
      have hsame : found.1 = index := by
        rcases hone with hone | ⟨heq, hle⟩
        · exact absurd (hother.elim (·.trans hone) fun h => h.1 ▸ hone) (lt_irrefl _)
        · rcases hother with hother | ⟨-, hle'⟩
          · exact absurd (heq ▸ hother) (lt_irrefl _)
          · exact le_antisymm hle' hle
      exact ⟨found.2, congrArg some (Prod.ext hsame rfl)⟩

/-! ## What an event marks -/

/-- An event of this time marks the record: it ended the record's run, or no run, and the record is
provisional. -/
def Marks (parse : String → Option Timestamp) (records : List LifecycleRecord)
    (eventTime : Timestamp) (index : Nat) : Prop :=
  RunAt parse records eventTime index ∨ (∀ other, ¬ RunAt parse records eventTime other) ∧
    ∃ record, records[index]? = some record ∧ record.state = .provisional

/-- The record at this place has ended. -/
def EndedAt (records : List LifecycleRecord) (index : Nat) : Prop :=
  ∃ record, records[index]? = some record ∧ record.state = .terminal

/-- What `terminate` makes of a container's records. -/
def endRecords (parse : String → Option Timestamp) (records : List LifecycleRecord)
    (eventTime : Timestamp) :
    List LifecycleRecord :=
  match matchRun parse eventTime 0 records none with
  | some (index, _) => records.modify index (·.ended)
  | none => records.map fun record => if record.state = .provisional then record.ended else record

theorem terminate_records (history : Lifecycles) (id : ContainerId) :
    (history.terminate parse id eventTime).1.records id = endRecords parse (history.records id)
    eventTime := by
  rw [Lifecycles.terminate, endRecords]
  cases matchRun parse eventTime 0 (history.records id) none with
  | none => exact records_put_self
  | some found => exact records_put_self

/-- Each record is as it was, or ended if the event marks it. -/
theorem endRecords_get (index : Nat) :
    (Marks parse records eventTime index ∧
        (endRecords parse records eventTime)[index]? = records[index]?.map (·.ended)) ∨
      ¬ Marks parse records eventTime index ∧
      (endRecords parse records eventTime)[index]? = records[index]? := by
  rw [endRecords]
  cases hmatch : matchRun parse eventTime 0 records none with
  | some found =>
    have hrun : RunAt parse records eventTime found.1 := matchRun_iff.mp ⟨found.2, hmatch⟩
    by_cases hindex : index = found.1
    · subst hindex
      exact .inl ⟨.inl hrun, by simp⟩
    · refine .inr ⟨?_, by simp [Ne.symm hindex]⟩
      rintro (hother | ⟨hnone, -⟩)
      · obtain ⟨start, hmatch'⟩ := matchRun_iff.mpr hother
        rw [hmatch] at hmatch'
        cases hmatch'
        exact hindex rfl
      · exact hnone found.1 hrun
  | none =>
    have hnone : ∀ other, ¬ RunAt parse records eventTime other := by
      intro other hother
      obtain ⟨start, hmatch'⟩ := matchRun_iff.mpr hother
      exact absurd (hmatch.symm.trans hmatch') nofun
    by_cases hprov : ∃ record, records[index]? = some record ∧ record.state = .provisional
    · obtain ⟨record, hget, hstate⟩ := hprov
      exact .inl ⟨.inr ⟨hnone, record, hget, hstate⟩, by simp [hget, hstate]⟩
    · refine .inr ⟨?_, ?_⟩
      · rintro (hother | ⟨-, hother⟩)
        · exact hnone index hother
        · exact hprov hother
      · rw [List.getElem?_map]
        cases hget : records[index]? with
        | none => rfl
        | some record => rw [Option.map_some, if_neg fun hstate => hprov ⟨record, hget, hstate⟩]

/-! ## Events by themselves -/

/-- A record without a run names no cgroup. -/
def Bare (records : List LifecycleRecord) : Prop :=
  ∀ record ∈ records, record.state = .provisional → record.hasIdentity = false

private theorem isRun_ended (h : record.state = .provisional → record.hasIdentity = false) :
    IsRun parse record.ended start ↔ IsRun parse record start := by
  refine and_congr_left fun ⟨hid, _⟩ => iff_of_true nofun fun hprov => ?_
  exact absurd (hid.symm.trans (h hprov)) nofun

/-- Some of the records have ended. -/
def Fades (records later : List LifecycleRecord) : Prop :=
  ∀ index : Nat, later[index]? = records[index]? ∨ later[index]? = records[index]?.map (·.ended)

private theorem fades_endRecords : Fades records (endRecords parse records eventTime) :=
  fun index => (endRecords_get index).elim (fun h => .inr h.2) fun h => .inl h.2

section Fades

variable {later : List LifecycleRecord}

theorem Fades.bare (h : Fades records later) (hbare : Bare records) : Bare later := by
  intro record hmem hprov
  obtain ⟨index, hget⟩ := List.mem_iff_getElem?.mp hmem
  rcases h index with hsame | hended
  · exact hbare record (List.mem_of_getElem? (hsame ▸ hget)) hprov
  · rw [hget] at hended
    obtain ⟨old, -, rfl⟩ := Option.map_eq_some_iff.mp hended.symm
    cases hprov

theorem Fades.isRun (h : Fades records later) (hbare : Bare records) (index : Nat)
    (start : Timestamp) :
    (∃ record, later[index]? = some record ∧ IsRun parse record start) ↔
      ∃ record, records[index]? = some record ∧ IsRun parse record start := by
  rcases h index with hsame | hended
  · rw [hsame]
  · rw [hended]
    constructor
    · rintro ⟨record, hget, hrun⟩
      obtain ⟨old, hold, rfl⟩ := Option.map_eq_some_iff.mp hget
      exact ⟨old, hold, (isRun_ended (hbare old (List.mem_of_getElem? hold))).mp hrun⟩
    · rintro ⟨record, hget, hrun⟩
      exact ⟨record.ended, by rw [hget]; rfl,
        (isRun_ended (hbare record (List.mem_of_getElem? hget))).mpr hrun⟩

/-- Which run an event ended does not depend on what has ended. -/
theorem Fades.runAt (h : Fades records later) (hbare : Bare records) :
    RunAt parse later eventTime index ↔ RunAt parse records eventTime index := by
  constructor
  · rintro ⟨record, start, hget, hrun, hle, hnewest⟩
    obtain ⟨old, hold, hrun'⟩ := (h.isRun hbare index start).mp ⟨record, hget, hrun⟩
    refine ⟨old, start, hold, hrun', hle, fun other record' start' hother hrun' hle' => ?_⟩
    obtain ⟨new, hnew, hnewrun⟩ := (h.isRun hbare other start').mpr ⟨record', hother, hrun'⟩
    exact hnewest other new start' hnew hnewrun hle'
  · rintro ⟨record, start, hget, hrun, hle, hnewest⟩
    obtain ⟨new, hnew, hrun'⟩ := (h.isRun hbare index start).mpr ⟨record, hget, hrun⟩
    refine ⟨new, start, hnew, hrun', hle, fun other record' start' hother hrun' hle' => ?_⟩
    obtain ⟨old, hold, holdrun⟩ := (h.isRun hbare other start').mp ⟨record', hother, hrun'⟩
    exact hnewest other old start' hold holdrun hle'

theorem Fades.marks (h : Fades records later) (hbare : Bare records) :
    Marks parse later eventTime index → Marks parse records eventTime index := by
  rintro (hrun | ⟨hnone, record, hget, hprov⟩)
  · exact .inl ((h.runAt hbare).mp hrun)
  · refine .inr ⟨fun other hrun => hnone other ((h.runAt hbare).mpr hrun), ?_⟩
    rcases h index with hsame | hended
    · exact ⟨record, hsame ▸ hget, hprov⟩
    · rw [hget] at hended
      obtain ⟨old, -, rfl⟩ := Option.map_eq_some_iff.mp hended.symm
      cases hprov

/-- What an event would have marked it still marks, unless it has ended meanwhile. -/
theorem Fades.marks_or_ended (h : Fades records later) (hbare : Bare records) :
    Marks parse records eventTime index → Marks parse later eventTime index ∨
    EndedAt later index := by
  rintro (hrun | ⟨hnone, record, hget, hprov⟩)
  · exact .inl (.inl ((h.runAt hbare).mpr hrun))
  · rcases h index with hsame | hended
    · exact .inl (.inr ⟨fun other hrun => hnone other ((h.runAt hbare).mp hrun), record,
        hsame ▸ hget, hprov⟩)
    · exact .inr ⟨record.ended, by rw [hended, hget]; rfl, rfl⟩

end Fades

private theorem exists_of_marks (h : Marks parse records eventTime index) :
    ∃ record, records[index]? = some record := by
  rcases h with ⟨record, -, hget, -⟩ | ⟨-, record, hget, -⟩
  · exact ⟨record, hget⟩
  · exact ⟨record, hget⟩

theorem endedAt_endRecords :
    EndedAt (endRecords parse records eventTime) index ↔ EndedAt records index ∨
    Marks parse records eventTime index := by
  rcases endRecords_get index with ⟨hmarks, hget⟩ | ⟨hmarks, hget⟩
  · refine iff_of_true ?_ (.inr hmarks)
    obtain ⟨record, hrecord⟩ := exists_of_marks hmarks
    exact ⟨record.ended, by rw [hget, hrecord]; rfl, rfl⟩
  · rw [or_iff_left hmarks, EndedAt, hget]
    rfl

/-- Events that are handled one after another mark what each of them marks. -/
theorem endedAt_foldl (events : List Timestamp) (hbare : Bare records) :
    EndedAt (events.foldl (endRecords parse) records) index ↔
      EndedAt records index ∨ ∃ eventTime ∈ events, Marks parse records eventTime index := by
  induction events generalizing records with
  | nil => simp
  | cons event events ih =>
    have hfades : Fades records (endRecords parse records event) := fades_endRecords
    rw [List.foldl_cons, ih (hfades.bare hbare), endedAt_endRecords]
    constructor
    · rintro ((hended | hmarks) | ⟨eventTime, hmem, hmarks⟩)
      · exact .inl hended
      · exact .inr ⟨event, List.mem_cons_self, hmarks⟩
      · exact .inr ⟨eventTime, List.mem_cons_of_mem _ hmem, hfades.marks hbare hmarks⟩
    · rintro (hended | ⟨eventTime, hmem, hmarks⟩)
      · exact .inl (.inl hended)
      · rcases List.mem_cons.mp hmem with rfl | hmem
        · exact .inl (.inr hmarks)
        · rcases hfades.marks_or_ended hbare hmarks with hmarks | hended
          · exact .inr ⟨eventTime, hmem, hmarks⟩
          · exact .inl (endedAt_endRecords.mp hended)

end Match

/-! ## Histories -/

section Histories

variable {parse : String → Option Timestamp} {history later : Lifecycles}

/-- No provisional record names a cgroup. -/
def AllBare (history : Lifecycles) : Prop := ∀ id, Bare (history.records id)

theorem bare_of_ages (h : AllBare history) (hages : history.Ages later) : AllBare later := by
  intro id record hmem hprov
  obtain ⟨old, hold, hage⟩ := forall₂_exists_left (hages id) hmem
  have hstate : old.state = .provisional := by
    rcases hage.state with hstate | hstate
    · exact hstate.symm.trans hprov
    · exact absurd (hstate.symm.trans hprov) nofun
  rw [LifecycleRecord.hasIdentity, hage.cgroup]
  exact h id old hold hstate

theorem bare_verify (h : AllBare history) (id : ContainerId) (startedAt : String)
    (cgroup : RunCgroup) (now : Timestamp) : AllBare (history.verify id startedAt cgroup now) := by
  have hput : ∀ records, Bare records → AllBare (history.put id records) := by
    intro records hrecords other
    by_cases hother : other = id
    · subst hother
      rwa [records_put_self]
    · rw [Lifecycles.records_put_of_ne hother]
      exact h other
  have hupgrade : ∀ front record back, history.records id = front ++ record :: back →
      Bare (front ++ Lifecycles.upgrade startedAt cgroup record :: back) := by
    intro front record back hsplit other hmem hprov
    rcases List.mem_append.mp hmem with hmem | hmem
    · exact h id other (by rw [hsplit]; exact List.mem_append_left _ hmem) hprov
    · rcases List.mem_cons.mp hmem with rfl | hmem
      · rw [Lifecycles.upgrade] at hprov
        split at hprov <;> cases hprov
      · exact h id other
          (by rw [hsplit]; exact List.mem_append_right _ (List.mem_cons_of_mem _ hmem)) hprov
  rcases Lifecycles.verify_eq history id startedAt cgroup now with
    ⟨front, record, back, hsplit, -, -, heq⟩ | ⟨-, ⟨front, record, back, hsplit, -, heq⟩ | heq⟩
  · rw [heq]
    exact hput _ (hupgrade front record back hsplit)
  · rw [heq]
    exact hput _ (hupgrade front record back hsplit)
  · rw [heq]
    refine hput _ fun record hmem hprov => ?_
    rcases List.mem_append.mp ((boundRecords_sublist _ _).subset hmem) with hmem | hmem
    · exact h id record hmem hprov
    · rw [List.mem_singleton.mp hmem] at hprov
      cases hprov

theorem bare_apply {scene : Scene} (h : AllBare scene.history) (act : Processor.Act) :
    AllBare (act.apply parse scene).history := by
  cases act with
  | dirs | set => exact h
  | provisional id now =>
    intro other record hmem hprov
    rcases Lifecycles.mem_provisional hmem with ⟨old, hold, hage, hstate⟩ | hnone
    · rw [LifecycleRecord.hasIdentity, hage.cgroup]
      exact h other old hold (hstate.symm.trans hprov)
    · rw [LifecycleRecord.hasIdentity, hnone]
      rfl
  | verify id startedAt cgroup now => exact bare_verify h id startedAt cgroup now
  | terminate => exact bare_of_ages h Lifecycles.ages_terminate
  | markTerminal => exact bare_of_ages h Lifecycles.ages_markTerminal
  | markRevoked => exact bare_of_ages h Lifecycles.ages_markRevoked
  | release => exact fun other record hmem => h other record (Lifecycles.mem_release.mp hmem).1

/-- The history after these acts of the processor. -/
def historyAfter (parse : String → Option Timestamp) (dirs : Dirs) (acts : List Processor.Act) :
    Lifecycles :=
  (acts.foldl (Processor.Act.apply parse) ⟨dirs, .new, []⟩).history

theorem bare_historyAfter (dirs : Dirs) (acts : List Processor.Act) :
    AllBare (historyAfter parse dirs acts) := by
  have hfold : ∀ scene : Scene, AllBare scene.history →
      AllBare (acts.foldl (Processor.Act.apply parse) scene).history := by
    induction acts with
    | nil => exact fun _ h => h
    | cons act acts ih => exact fun scene h => ih _ (bare_apply h act)
  exact hfold _ fun _ => nofun

end Histories

/-! ## The queue -/

/-- The end that a reservation hands to `next` after these events. -/
def queuedEnd (held : Reservation) (events : List Timestamp) : Option Timestamp :=
  (events.foldl (fun held eventTime => held.ask (some eventTime) true) held).terminateAt

/-- The cleanup of an iteration. -/
def terminateQueued (parse : String → Option Timestamp) (history : Lifecycles) (id : ContainerId) :
    Option Timestamp → Lifecycles
  | none => history
  | some eventTime => (history.terminate parse id eventTime).1

/-- A cleanup for each event. -/
def terminateEach (parse : String → Option Timestamp) (history : Lifecycles) (id : ContainerId)
    (events : List Timestamp) : Lifecycles :=
  events.foldl (fun history eventTime => (history.terminate parse id eventTime).1) history

/-- The latest of the events, if there is one. -/
def IsLatest (events : List Timestamp) : Option Timestamp → Prop
  | none => events = []
  | some last => last ∈ events ∧ ∀ eventTime ∈ events, eventTime ≤ last

/-- An event before another one is not the latest. -/
theorem IsLatest.add {kept dropped : Timestamp} {events more : List Timestamp}
    {result : Option Timestamp} (h : IsLatest (kept :: events) result) (hle : dropped ≤ kept)
    (hmore : ∀ time, time ∈ more ↔ time = dropped ∨ time ∈ kept :: events) :
    IsLatest more result := by
  cases result with
  | none => cases h
  | some last =>
    refine ⟨(hmore last).mpr (.inr h.1), fun time htime => ?_⟩
    rcases (hmore time).mp htime with rfl | htime
    · exact hle.trans (h.2 kept List.mem_cons_self)
    · exact h.2 time htime

/-- The reservation keeps the latest. -/
theorem queuedEnd_latest (events : List Timestamp) (held : Reservation) :
    IsLatest (held.terminateAt.toList ++ events) (queuedEnd held events) := by
  induction events generalizing held with
  | nil =>
    rw [queuedEnd, List.foldl_nil, List.append_nil]
    cases held.terminateAt with
    | none => exact rfl
    | some queued => exact ⟨List.mem_cons_self, List.forall_mem_singleton.mpr le_rfl⟩
  | cons event events ih =>
    have hnext := ih (held.ask (some event) true)
    rw [show queuedEnd (held.ask (some event) true) events = queuedEnd held
      (event :: events) from rfl] at hnext
    cases hqueued : held.terminateAt with
    | none => simpa [Reservation.ask, hqueued] using hnext
    | some queued =>
      by_cases hlt : queued < event
      · have hasked : (held.ask (some event) true).terminateAt = some event := by
          simp [Reservation.ask, hqueued, hlt]
        rw [hasked, Option.toList_some, List.singleton_append] at hnext
        exact hnext.add hlt.le fun time => List.mem_cons
      · have hasked : (held.ask (some event) true).terminateAt = some queued := by
          simp [Reservation.ask, hqueued, hlt]
        rw [hasked, Option.toList_some, List.singleton_append] at hnext
        refine hnext.add (not_lt.mp hlt) fun time => ?_
        rw [Option.toList_some, List.singleton_append, List.mem_cons, List.mem_cons, List.mem_cons,
          or_left_comm]

theorem terminateEach_records (parse : String → Option Timestamp) (history : Lifecycles)
    (id : ContainerId) (events : List Timestamp) :
    (terminateEach parse history id events).records id = events.foldl (endRecords parse)
    (history.records id) := by
  induction events generalizing history with
  | nil => rfl
  | cons event events ih =>
    rw [List.foldl_cons, ← terminate_records]
    exact ih _

/-! ## The theorem -/

/-- The latest event speaks for all: the run that an event ended has ended already, or no later run
started up to the latest event; and if an event came before every run, so did the latest, or there
is no provisional record. -/
def Coalesces (parse : String → Option Timestamp) (records : List LifecycleRecord)
    (events : List Timestamp) : Prop :=
  ∀ last ∈ events, (∀ eventTime ∈ events, eventTime ≤ last) → ∀ eventTime ∈ events,
    (∀ index, RunAt parse records eventTime index → EndedAt records index ∨
      RunAt parse records last index) ∧
      ((∀ index, ¬ RunAt parse records eventTime index) →
        (∃ record ∈ records, record.state = .provisional) →
        ∀ index, ¬ RunAt parse records last index)

theorem coalesces_iff {parse : String → Option Timestamp} {records : List LifecycleRecord}
    {eventTime last : Timestamp} :
    (∀ index, Marks parse records eventTime index → EndedAt records index ∨
      Marks parse records last index) ↔
      (∀ index, RunAt parse records eventTime index → EndedAt records index ∨
        RunAt parse records last index) ∧
        ((∀ index, ¬ RunAt parse records eventTime index) →
          (∃ record ∈ records, record.state = .provisional) →
          ∀ index, ¬ RunAt parse records last index) := by
  have hnotRun : ∀ {time index record}, records[index]? = some record →
    record.state = .provisional →
      ¬ RunAt parse records time index := by
    rintro time index record hget hprov ⟨record', start, hget', hrun, -⟩
    cases hget.symm.trans hget'
    exact hrun.1 hprov
  constructor
  · intro h
    refine ⟨fun index hrun => (h index (.inl hrun)).imp_right ?_, fun hnone ⟨record, hmem, hprov⟩ =>
      ?_⟩
    · rintro (hlast | ⟨-, record, hget, hprov⟩)
      · exact hlast
      · exact absurd hrun (hnotRun hget hprov)
    · obtain ⟨index, hget⟩ := List.mem_iff_getElem?.mp hmem
      rcases h index (.inr ⟨hnone, record, hget, hprov⟩) with ⟨record', hget',
        hended⟩ | hrun | ⟨hlast, -⟩
      · cases hget.symm.trans hget'
        exact absurd (hprov.symm.trans hended) nofun
      · exact absurd hrun (hnotRun hget hprov)
      · exact hlast
  · rintro ⟨hruns, hprovs⟩ index (hrun | ⟨hnone, record, hget, hprov⟩)
    · exact (hruns index hrun).imp_right .inl
    · exact .inr (.inr ⟨hprovs hnone ⟨record, List.mem_of_getElem? hget, hprov⟩, record,
        hget, hprov⟩)

/-- Whatever the history: the cleanup for the events that were queued between two calls of `next`
ends every record that a cleanup for each event would have ended, if and only if the latest event
speaks for all. -/
theorem coalesced_ends (parse : String → Option Timestamp) (dirs : Dirs) (acts : List Processor.Act)
    (id : ContainerId) (applyStart : Option Timestamp) (running reconcile : Bool)
    (events : List Timestamp) :
    (∀ index, EndedAt ((terminateEach parse (historyAfter parse dirs acts) id events).records id)
      index →
      EndedAt ((terminateQueued parse (historyAfter parse dirs acts) id
        (queuedEnd ⟨applyStart, running, reconcile, none⟩ events)).records id) index) ↔
      Coalesces parse ((historyAfter parse dirs acts).records id) events := by
  have hbare : Bare ((historyAfter parse dirs acts).records id) := bare_historyAfter dirs acts id
  have hlatest := queuedEnd_latest events ⟨applyStart, running, reconcile, none⟩
  cases hqueued : queuedEnd ⟨applyStart, running, reconcile, none⟩ events with
  | none =>
    obtain rfl : events = [] := by
      rw [hqueued] at hlatest
      exact hlatest
    exact iff_of_true (fun _ h => h) nofun
  | some last =>
    rw [hqueued] at hlatest
    obtain ⟨hlast, hall⟩ : last ∈ events ∧ ∀ eventTime ∈ events, eventTime ≤ last := hlatest
    rw [terminateEach_records, terminateQueued, terminate_records]
    simp only [endedAt_foldl events hbare, endedAt_endRecords]
    constructor
    · intro h other hother hall' eventTime hmem
      obtain rfl : other = last := le_antisymm (hall other hother) (hall' last hlast)
      exact coalesces_iff.mp fun index hmarks => h index (.inr ⟨eventTime, hmem, hmarks⟩)
    · rintro h index (hended | ⟨eventTime, hmem, hmarks⟩)
      · exact .inl hended
      · exact coalesces_iff.mpr (h last hlast hall eventTime hmem) index hmarks

/-- Two runs of one container, started at 1 and at 5. -/
def twoRuns : List Processor.Act :=
  [.verify "app" "1" ⟨⟨"/run1", 1⟩, .v2, false⟩ 2, .verify "app" "5" ⟨⟨"/run5", 2⟩, .v2, false⟩ 6]

def readStart (startedAt : String) : Option Timestamp :=
  if startedAt = "1" then some 1 else if startedAt = "5" then some 5 else none

/-- The runs ended at 3 and at 7. Queued together, the end of the first is lost. -/
theorem coalescing_loses_end :
    ((terminateEach readStart (historyAfter readStart noDirs twoRuns) "app" [3, 7]).records
      "app").map (·.state) =
        [.terminal, .terminal] ∧
      ((terminateQueued readStart (historyAfter readStart noDirs twoRuns) "app"
        (queuedEnd (.claim false 2) [3, 7])).records "app").map
        (·.state) = [.verified, .terminal] := by
  decide +kernel

end Daemon
end Sda
