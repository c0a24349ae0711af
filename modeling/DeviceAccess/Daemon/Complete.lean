import Mathlib.Data.List.Induction
import DeviceAccess.Daemon.Loop
import DeviceAccess.Daemon.Stamps

/-!
# Completion is not logged too early

A visit of a pass is a debt for the container: it is paid by a reconcile that begins after the
request, and until then it lies with the container's hold, in its reservation or in the pending map
(`Owed`). Completion is announced only where nothing of that is left, so the reconcile has been
made: `complete_not_early`.
-/

namespace Sda
namespace Daemon

open Processor (ContainerId Timestamp)

/-! ## A visited container -/

/-- The container was visited, and nothing was requested since. -/
def Visited (id : ContainerId) : List Entry → Prop :=
  Since Entry.isRequest fun entry _ => ∃ key, entry = .visited key id

/-- A reconcile begun under this request ended well, and no failed one was settled since. -/
def Served (id : ContainerId) (key : PassKey) : List Entry → Prop :=
  Since (· = .settled id .failed) fun entry earlier => ∃ outcome generation, outcome.good = true ∧
    key.generation ≤ generation ∧ entry = .ended id outcome ∧ Loaded id key generation earlier

/-- The iteration is still to begin its reconcile, or is in one that began under the latest request,
or in one that failed. -/
def HoldPc.Serves (id : ContainerId) (latest : PassKey) (log : List Entry) : HoldPc → Prop
  | .work reconcile _ | .terminating reconcile _ => reconcile = true
  | .cleaned | .keyed _ _ => True
  | .reconciling _ _ => Began id latest log
  | .loaded _ _ => ∃ generation, latest.generation ≤ generation ∧ Loaded id latest generation log
  | .reconciled _ _ outcome => outcome.good = false
  | _ => False

/-- Who has to reconcile a visited container, or that it is done. -/
inductive Owed (id : ContainerId) (place : Place) : Prop
  | served (h : Served id place.latest place.log)
  | pending (h : place.pending.isSome = true)
  | queued {held : Reservation} (isHeld : place.held = some held) (h : held.reconcile = true)
  | held {hold : Hold} (holds : place.hold = some hold)
    (h : hold.pc.Serves id place.latest place.log)

section Moves

variable {id : ContainerId} {place place' : Place} {key latest : PassKey} {entry : Entry}
  {log : List Entry}

theorem Visited.tail (h : Visited id (entry :: log)) (hentry : ∀ key, entry ≠ .visited key id) :
    Visited id log :=
  Since.tail h fun ⟨key, heq⟩ => hentry key heq

theorem Served.cons (h : Served id key log) (hentry : entry ≠ .settled id .failed) :
    Served id key (entry :: log) :=
  .inr ⟨hentry, h⟩

theorem served_append {entries : List Entry} (h : ∀ entry ∈ entries, entry.Foreign id) :
    Served id key (entries ++ log) ↔ Served id key log := by
  refine since_foreign (fun entry _ hentry => ?_) (fun entry hentry => ?_) h
  · obtain ⟨outcome, generation, -, -, rfl, -⟩ := hentry
    rfl
  · rw [hentry]
    rfl

theorem HoldPc.Serves.later {pc : HoldPc} (h : pc.Serves id latest log) {log' : List Entry}
    (hlog : ∀ mark, (∀ entry earlier, mark entry earlier → entry.subject = some id) →
      Since (Entry.restarts id) mark log → Since (Entry.restarts id) mark log') : pc.Serves id
      latest log' := by
  cases pc with
  | reconciling key started =>
    refine hlog _ ?_ h
    rintro _ _ ⟨wall, rfl⟩
    rfl
  | loaded key started =>
    obtain ⟨generation, hle, hlast⟩ := h
    refine ⟨generation, hle, hlog _ ?_ hlast⟩
    rintro _ _ ⟨rfl, -⟩
    rfl
  | _ => exact h

theorem HoldPc.Serves.cons {pc : HoldPc} (h : pc.Serves id latest log)
    (hentry : ¬ entry.restarts id) :
    pc.Serves id latest (entry :: log) := h.later fun _ _ hsince => .inr ⟨hentry, hsince⟩

private theorem begin_serves (terminateAt : Option Timestamp) :
    (HoldPc.begin true terminateAt).Serves id latest log := by
  cases terminateAt with
  | none => trivial
  | some eventTime => exact rfl

/-- What serves is the reconcile of an iteration. -/
theorem HoldPc.Serves.reconciles {pc : HoldPc} (h : pc.Serves id latest log) :
    pc.reconciles = some true := by
  cases pc with
  | work reconcile eventTime => exact congrArg some h
  | terminating reconcile eventTime => exact congrArg some h
  | settled | done => exact h.elim
  | _ => rfl

/-- A reconcile that ended well under the latest request has served it. -/
theorem Ended.served {generation : BitVec 64} {outcome : Outcome}
    (h : Ended id key generation outcome log) (hgood : outcome.good = true)
    (hle : key.generation ≤ generation) : Served id key log := by
  refine Since.mono h ?_ ?_
  · rintro _ rfl
    exact ⟨rfl, rfl⟩
  · rintro _ _ ⟨rfl, hloaded⟩
    exact ⟨outcome, generation, hgood, hle, rfl, hloaded⟩

/-- What is owed stays owed where nothing but entries about other work is added. -/
theorem Owed.cons (h : Owed id place) (hrestarts : ¬ entry.restarts id) :
    Owed id { place with log := entry :: place.log } := by
  cases h with
  | served h =>
    refine .served (h.cons ?_)
    rintro rfl
    exact hrestarts ⟨rfl, rfl⟩
  | pending h => exact .pending h
  | queued isHeld h => exact .queued isHeld h
  | held holds h => exact .held holds (h.cons hrestarts)

theorem Owed.of_processed (h : Owed id place) (processed : Option Inspected) :
    Owed id { place with processed := processed } := by
  cases h with
  | served h => exact .served h
  | pending h => exact .pending h
  | queued isHeld h => exact .queued isHeld h
  | held holds h => exact .held holds h

/-- A reservation that asks for no less. -/
theorem Owed.of_held (h : Owed id place) {held held' : Reservation}
    (isHeld : place.held = some held)
    (hreconcile : held.reconcile = true → held'.reconcile = true) :
    Owed id { place with held := some held' } := by
  cases h with
  | served h => exact .served h
  | pending h => exact .pending h
  | queued isHeld' h =>
    cases isHeld.symm.trans isHeld'
    exact .queued rfl (hreconcile h)
  | held holds h => exact .held holds h

/-- The hold moves on in its iteration. -/
theorem Owed.move (h : Owed id place) {hold hold' : Hold} {log : List Entry}
    (holds : place.hold = some hold)
    (hlog : Served id place.latest place.log → Served id place.latest log)
    (hpc : hold.pc.Serves id place.latest place.log → hold'.pc.Serves id place.latest log ∨
      Served id place.latest log) : Owed id { place with hold := some hold', log := log } := by
  cases h with
  | served h => exact .served (hlog h)
  | pending h => exact .pending h
  | queued isHeld h => exact .queued isHeld h
  | held holds' h =>
    cases holds.symm.trans holds'
    exact (hpc h).elim (fun h => .held rfl h) fun h => .served h

/-- Settling a reconcile that ended well leaves a pending entry, or it served the latest request. -/
theorem settle_owed (h : Owed id place) (hstamped : Stamped id place) (hfew : FewRequests place.log)
    (hpublished : FewPublished place.store) {hold : Hold} {started : Inspected}
    {outcome : Outcome} (now : Instant) (holds : place.hold = some hold)
    (pc : hold.pc = .reconciled key started outcome) :
    Owed id { place with
      pending := settleEntry place.latest key outcome.good now place.pending
      hold := some { hold with pc := .settled started outcome, failed := outcome ≠ .ok }
      log := .settled id outcome :: place.log } := by
  by_cases hgood : outcome.good = true
  · have hentry : Entry.settled id outcome ≠ .settled id .failed := by
      rintro ⟨⟩
      cases hgood
    cases h with
    | served h => exact .served (h.cons hentry)
    | queued isHeld h => exact .queued isHeld h
    | held holds' h =>
      cases holds.symm.trans holds'
      rw [pc] at h
      exact absurd (hgood.symm.trans h) nofun
    | pending h =>
      obtain ⟨before, hbefore⟩ := Option.isSome_iff_exists.mp h
      by_cases hkey : before.key = key
      · have hstands := hstamped.stands hfew hold holds
        rw [pc] at hstands
        obtain ⟨begun, generation, hbegun, hlatest, hle, hended⟩ := hstands hgood
        rw [← hkey, hstamped.tagged before hbefore] at hbegun
        rw [hbegun.eq_of_older hlatest] at hended hle
        exact .served ((hended.served hgood (hle hpublished)).cons hentry)
      · exact .pending (by simp [settleEntry, hbefore, hgood, hkey])
  · refine .pending ?_
    rw [Bool.not_eq_true] at hgood
    rw [hgood]
    cases place.pending with
    | none => rfl
    | some before => rfl

/-- A container that was visited since the last request stays owed until it is served. -/
theorem owed_moves (hkept : Kept id place) (hstamped : Stamped id place)
    (hfew : FewRequests place.log) (hpublished : FewPublished place.store)
    (hmove : Moves id place place') (h : Visited id place.log → Owed id place) :
    Visited id place'.log → Owed id place' := by
  intro hvisited
  cases hmove with
  | quiet entries store foreign le =>
    have hbefore : Visited id place.log := by
      refine (since_append_of_other fun entry hentry => ⟨?_, ?_⟩).mp hvisited
      · rintro _ ⟨key, rfl⟩
        exact (foreign _ hentry).1 rfl
      · intro hrequest
        cases entry with
        | requested key => exact (foreign _ hentry).2 key rfl
        | _ => exact hrequest
    cases h hbefore with
    | served h => exact .served ((served_append foreign).mpr h)
    | pending h => exact .pending h
    | queued isHeld h => exact .queued isHeld h
    | held holds h =>
      refine .held holds (h.later fun mark hmark hsince => ?_)
      exact (since_foreign hmark subject_of_restarts foreign).mpr hsince
  | request => exact absurd hvisited (not_since_cons trivial fun ⟨_, h⟩ => nomatch h)
  | claim eventTime terminal now free =>
    cases h (hvisited.tail nofun) with
    | served h => exact .served (h.cons nofun)
    | pending h => exact .pending h
    | queued isHeld => exact absurd (free.symm.trans isHeld) nofun
    | held holds => exact absurd holds (hkept.not_hold free)
  | ask eventTime isHeld =>
    exact ((h (hvisited.tail nofun)).of_held isHeld ask_reconcile).cons fun h => h
  | askEnd eventTime isHeld =>
    exact ((h (hvisited.tail nofun)).of_held isHeld ask_reconcile).cons fun h => h
  | visit key isHeld holds waits =>
    rcases waits with waits | waits
    · exact .queued isHeld waits
    · exact .held holds (by rw [waits]; trivial)
  | skip eventTime covered => exact ((h (hvisited.tail nofun)).of_processed none).cons fun h => h
  | forget => exact (h hvisited).of_processed none
  | beginTerminate holds pc =>
    refine (h (hvisited.tail nofun)).move holds (·.cons nofun) fun h => .inl ?_
    rw [pc] at h
    exact h
  | @endTerminate hold reconcile time holds pc =>
    refine (h (hvisited.tail nofun)).move holds (·.cons nofun) fun h => .inl ?_
    rw [pc] at h
    obtain rfl : reconcile = true := h
    trivial
  | readKey started holds pc =>
    exact (h (hvisited.tail nofun)).move holds (·.cons nofun) fun _ => .inl trivial
  | begin wall holds pc =>
    refine (h (hvisited.tail nofun)).move holds (·.cons nofun) fun _ => .inl ?_
    exact .inl ⟨wall, rfl⟩
  | load holds pc =>
    refine (h (hvisited.tail nofun)).move holds (·.cons nofun) fun h => .inl ?_
    rw [pc] at h
    exact ⟨_, hpublished.le_generationOf hstamped.published, .inl ⟨rfl, h⟩⟩
  | finish outcome holds pc =>
    refine (h (hvisited.tail nofun)).move holds (·.cons nofun) fun h => ?_
    by_cases hgood : outcome.good = true
    · rcases pc with pc | ⟨-, rfl⟩
      · rw [pc] at h
        obtain ⟨generation, hle, hloaded⟩ := h
        exact .inr (.inl ⟨outcome, generation, hgood, hle, rfl, hloaded⟩)
      · cases hgood
    · exact .inl (Bool.eq_false_iff.mpr hgood)
  | settle now holds pc =>
    exact settle_owed (h (hvisited.tail nofun)) hstamped hfew hpublished now holds pc
  | mark holds pc =>
    cases h hvisited with
    | served h => exact .served h
    | pending h => exact .pending h
    | queued isHeld h => exact .queued isHeld h
    | held holds' h =>
      cases holds.symm.trans holds'
      rw [pc] at h
      exact h.elim
  | resume now holds pc isHeld queued =>
    cases h (hvisited.tail nofun) with
    | served h => exact .served (h.cons nofun)
    | pending h => exact .pending h
    | queued isHeld' h =>
      cases isHeld.symm.trans isHeld'
      exact .held rfl (by rw [h]; exact begin_serves _)
    | held holds' h =>
      cases holds.symm.trans holds'
      rw [pc] at h
      exact h.elim
  | release holds pc isHeld queued =>
    cases h (hvisited.tail nofun) with
    | served h => exact .served (h.cons nofun)
    | pending h => exact .pending h
    | queued isHeld' h =>
      cases isHeld.symm.trans isHeld'
      simp [Reservation.queued, h] at queued
    | held holds' h =>
      cases holds.symm.trans holds'
      rw [pc] at h
      exact h.elim

end Moves

theorem run_owed (store : Nat) (acts : List Act) (id : ContainerId)
    (hfew : FewRequests ((System.new store).run acts).log)
    (hpublished : FewPublished ((System.new store).run acts).store) :
    Visited id ((System.new store).run acts).log →
    Owed id (((System.new store).run acts).place id) := by
  have hinv : ∀ {place : Place}, Reaches id ((System.new store).place id) place →
      Kept id place ∧ Stamped id place ∧ (FewRequests place.log → FewPublished place.store →
        Visited id place.log → Owed id place) := by
    intro place hreaches
    induction hreaches with
    | refl => exact ⟨kept_new store id, stamped_new store id, fun _ _ h => h.elim⟩
    | tail _ hmove ih =>
      obtain ⟨hkept, hstamped, howed⟩ := ih
      refine ⟨hkept.moves hmove, hstamped.moves hmove, fun hfew hpublished => ?_⟩
      have hfew := hfew.before hmove
      have hpublished := hmove.store_le.trans_lt hpublished
      exact owed_moves hkept hstamped hfew hpublished hmove (howed hfew hpublished)
  exact (hinv (run_reaches store acts id)).2.2 hfew hpublished

/-! ## Passes -/

/-- What the pass has listed, and what it still has to visit. -/
def RunPc.tour : RunPc → Option (PassKey × List ContainerId × List ContainerId)
  | .visiting key listed rest => some (key, listed, rest)
  | .reserving key listed id rest => some (key, listed, id :: rest)
  | _ => none

/-- The pass that was taken last is for this request. -/
def Took (key : PassKey) : List Entry → Prop :=
  Since Entry.isTaken fun entry _ => entry = .taken key

/-- It has visited the container. -/
def Toured (key : PassKey) (id : ContainerId) : List Entry → Prop :=
  Since Entry.isTaken fun entry _ => entry = .visited key id

/-- A pass that was taken for the request has visited all containers it listed. -/
def Passed (key : PassKey) (ids : List ContainerId) (log : List Entry) : Prop :=
  ∃ later earlier, log = later ++ .passed key ids :: earlier ∧ Took key earlier ∧
    ∀ id ∈ ids, Toured key id earlier

/-- Where a pass is, it has visited what it has no more to visit; and a request that is not
incomplete has been passed for. -/
structure Loop.Tours (loop : Loop) : Prop where
  old : ∀ key, loop.pc.key = some key → key.Older loop.latest
  took : ∀ key, loop.pc.key = some key → Took key loop.log
  toured : ∀ key listed rest, loop.pc.tour = some (key, listed, rest) → ∀ id ∈ listed,
    id ∈ rest ∨ Toured key id loop.log ∧ (key = loop.latest → Visited id loop.log)
  passed : loop.incomplete = false → loop.latest = ⟨0, 0⟩ ∨
    ∃ ids, Passed loop.latest ids loop.log ∧ ∀ id ∈ ids, Visited id loop.log

section Tours

variable {loop loop' : Loop} {entries : List Entry}

theorem key_of_tour {pc : RunPc} {key : PassKey} {listed rest : List ContainerId}
    (h : pc.tour = some (key, listed, rest)) : pc.key = some key := by
  cases pc with
  | visiting => cases h; rfl
  | reserving => cases h; rfl
  | _ => cases h

theorem Passed.append {key : PassKey} {ids : List ContainerId} {log : List Entry}
    (h : Passed key ids log) (entries : List Entry) : Passed key ids (entries ++ log) := by
  obtain ⟨later, earlier, rfl, htook, htoured⟩ := h
  exact ⟨entries ++ later, earlier, by rw [List.append_assoc], htook, htoured⟩

/-- What has been passed for stays so until the next request. -/
theorem Loop.Tours.passed_append (h : loop.Tours) (hentries : ∀ entry ∈ entries, ¬ entry.isRequest)
    (hincomplete : loop.incomplete = false) : loop.latest = ⟨0, 0⟩ ∨
      ∃ ids, Passed loop.latest ids (entries ++ loop.log) ∧
      ∀ id ∈ ids, Visited id (entries ++ loop.log) := by
  refine (h.passed hincomplete).imp_right ?_
  rintro ⟨ids, hpassed, hvisited⟩
  exact ⟨ids, hpassed.append entries, fun id hid => Since.append (hvisited id hid) hentries⟩

/-- The loop is in no pass. -/
theorem Loop.Tours.outside (h : loop.Tours) (hkey : loop'.pc.key = none)
    (hlatest : loop'.latest = loop.latest) (hincomplete : loop'.incomplete = loop.incomplete)
    (hlog : loop'.log = entries ++ loop.log) (hcalls : Calls entries) : loop'.Tours where
  old key h := absurd (hkey.symm.trans h) nofun
  took key h := absurd (hkey.symm.trans h) nofun
  toured key listed rest h := absurd (hkey.symm.trans (key_of_tour h)) nofun
  passed hdone := by
    rw [hlatest, hlog]
    exact h.passed_append (fun entry hentry => (hcalls entry hentry).1) (hincomplete ▸ hdone)

/-- The loop goes on with its pass, and has visited what it leaves out. -/
theorem Loop.Tours.inside (h : loop.Tours) (hkey : loop'.pc.key = loop.pc.key)
    (hlatest : loop'.latest = loop.latest) (hincomplete : loop'.incomplete = loop.incomplete)
    (hlog : loop'.log = entries ++ loop.log) (hcalls : Calls entries)
    (htour : ∀ key listed rest, loop'.pc.tour = some (key, listed, rest) → ∀ id ∈ listed,
      id ∈ rest ∨ Toured key id loop'.log ∧ (key = loop.latest → Visited id loop'.log)) :
    loop'.Tours where
  old key h' := hlatest ▸ h.old key (hkey ▸ h')
  took key h' := by
    rw [hlog]
    exact Since.append (h.took key (hkey ▸ h')) fun entry hentry => (hcalls entry hentry).2
  toured := by
    rw [hlatest]
    exact htour
  passed hdone := by
    rw [hlatest, hlog]
    exact h.passed_append (fun entry hentry => (hcalls entry hentry).1) (hincomplete ▸ hdone)

theorem Loop.Tours.toured_append (h : loop.Tours) (hcalls : Calls entries) {key : PassKey}
    {listed rest : List ContainerId} (htour : loop.pc.tour = some (key, listed, rest))
    (id : ContainerId) (hid : id ∈ listed) : id ∈ rest ∨
      Toured key id (entries ++ loop.log) ∧
      (key = loop.latest → Visited id (entries ++ loop.log)) := by
  refine (h.toured key listed rest htour id hid).imp_right fun ⟨htoured, hvisited⟩ =>
    ⟨?_, fun hkey => ?_⟩
  · exact Since.append htoured fun entry hentry => (hcalls entry hentry).2
  · exact Since.append (hvisited hkey) fun entry hentry => (hcalls entry hentry).1

theorem tours_turns (h : loop.Tours) (hnumbered : Numbered loop.latest loop.log)
    (hfew : FewRequests loop'.log) (hturn : Turns loop loop') : loop'.Tours := by
  cases hturn with
  | other kept stays calls =>
    exact h.inside rfl rfl rfl rfl calls fun key listed rest htour => h.toured_append calls htour
  | notify => exact h.inside rfl rfl rfl (List.nil_append _).symm calls_nil h.toured
  | request generation =>
    -- the new request has an epoch that no pass before it has
    have hlt : ∀ key, loop.pc.key = some key → key.epoch < (loop.latest.request generation).epoch :=
      fun key hkey => (h.old key hkey).epoch_lt (hnumbered.epoch_lt_request generation hfew)
    refine ⟨fun key hkey => .inr (hlt key hkey), fun key hkey => ?_, ?_, nofun⟩
    · exact .inr ⟨fun h => h, h.took key hkey⟩
    · intro key listed rest htour id hid
      refine (h.toured key listed rest htour id hid).imp_right fun ⟨htoured, _⟩ =>
        ⟨.inr ⟨fun h => h, htoured⟩, ?_⟩
      rintro rfl
      exact absurd (hlt _ (key_of_tour htour)) (BitVec.lt_irrefl _)
  | check pc =>
    refine h.outside ?_ rfl rfl (List.nil_append _).symm calls_nil
    by_cases hcanceled : loop.canceled = true
    · simp [hcanceled, RunPc.key]
    · simp [hcanceled, RunPc.key]
  | take pc dirty =>
    refine ⟨?_, ?_, nofun, fun hdone => @Loop.Tours.passed_append loop
      [.taken loop.latest] h ?_ hdone⟩
    · rintro key ⟨⟩
      exact .refl
    · rintro key ⟨⟩
      exact .inl rfl
    · exact List.forall_mem_singleton.mpr fun h => h
  | rest pc | arm _ pc | sleep pc | wake pc | redo pc =>
    exact h.outside rfl rfl rfl (List.nil_append _).symm calls_nil
  | leave next pc target =>
    refine h.outside ?_ rfl rfl (List.nil_append _).symm calls_nil
    rcases target with rfl | ⟨ids, rfl⟩ | ⟨rfl, -⟩ <;> rfl
  | listed ids pc =>
    refine h.inside (by rw [pc]; rfl) rfl rfl (List.nil_append _).symm calls_nil ?_
    rintro key listed rest ⟨⟩ id hid
    exact .inl hid
  | listFailed deadline pc calls => exact h.outside rfl rfl rfl rfl calls
  | superseded pc why => exact h.outside rfl rfl rfl (List.nil_append _).symm calls_nil
  | visit pc =>
    refine h.inside (by rw [pc]; rfl) rfl rfl (List.nil_append _).symm calls_nil ?_
    rintro key listed rest ⟨⟩ id hid
    exact h.toured _ _ _ (by rw [pc]; rfl) id hid
  | @reserve key listed rest id entries pc calls =>
    have hcalls : Calls (.visited key id :: entries) :=
      List.forall_mem_cons.mpr ⟨⟨nofun, nofun⟩, calls⟩
    refine h.inside (by rw [pc]; rfl) rfl rfl (List.cons_append ..).symm hcalls ?_
    rintro _ _ _ ⟨⟩ other hother
    have htour : loop.pc.tour = some (key, listed, id :: rest) := by rw [pc]; rfl
    rcases h.toured_append hcalls htour other hother with hmem | htoured
    · rcases List.mem_cons.mp hmem with rfl | hrest
      · exact .inr ⟨.inl rfl, fun _ => .inl ⟨key, rfl⟩⟩
      · exact .inl hrest
    · exact .inr htoured
  | @finish key listed entries pc calls =>
    have hrequests : ∀ entry ∈ entries ++ [.passed key listed], ¬ Entry.isRequest entry :=
      List.forall_mem_append.mpr
        ⟨fun entry hentry => (calls entry hentry).1, List.forall_mem_singleton.mpr fun h => h⟩
    refine ⟨nofun, nofun, nofun, fun hdone => ?_⟩
    by_cases hkey : key = loop.latest
    · refine .inr ⟨listed, ⟨entries, loop.log, ?_, ?_, fun id hid => ?_⟩, fun id hid => ?_⟩
      · rw [hkey]
      · rw [← hkey]
        exact h.took key (by rw [pc]; rfl)
      · rw [← hkey]
        exact ((h.toured key listed [] (by rw [pc]; rfl) id hid).resolve_left List.not_mem_nil).1
      · have hvisited :=
          ((h.toured key listed [] (by rw [pc]; rfl) id hid).resolve_left List.not_mem_nil).2 hkey
        have := Since.append hvisited hrequests
        rwa [List.append_assoc] at this
    · have := h.passed_append hrequests (by simpa [hkey] using hdone)
      rwa [List.append_assoc] at this
  | retry next pc target calls =>
    refine h.outside ?_ rfl rfl rfl calls
    rcases target with rfl | ⟨ids, rfl⟩ <;> rfl

theorem tours_new (store : Nat) : (System.new store).loop.Tours :=
  ⟨nofun, nofun, nofun, fun _ => .inl rfl⟩

theorem run_tours (store : Nat) (acts : List Act)
    (hfew : FewRequests ((System.new store).run acts).log) :
    ((System.new store).run acts).loop.Tours := by
  induction acts using List.reverseRecOn with
  | nil => exact tours_new store
  | append_singleton acts act ih =>
    rw [← run_step] at hfew ⊢
    have htours := ih hfew.front
    rw [System.step] at hfew ⊢
    split at hfew
    next henabled =>
      rw [if_pos henabled]
      exact tours_turns htours (run_numbered store acts) hfew (loop_step henabled)
    next hdisabled =>
      rw [if_neg hdisabled]
      exact htours

end Tours

/-! ## Announcements -/

/-- What `announce_locked` requires. -/
structure State.Complete (state : State) : Prop where
  announced : state.announced = state.latest
  passed : state.incomplete = false
  settled : ∀ id, state.pending.get id = none
  idle : ∀ id held, state.inFlight.get id = some held → held.running = false ∧
    held.reconcile = false

theorem announceLocked_complete (state : State) :
    state.announceLocked.announced = state.announced ∨ state.announceLocked.Complete := by
  rw [State.announceLocked]
  split
  next => exact .inl rfl
  next hopen =>
    simp only [Bool.or_eq_true, not_or, Bool.not_eq_true, Bool.not_eq_false',
      decide_eq_true_eq] at hopen
    obtain ⟨⟨hincomplete, hempty⟩, -⟩ := hopen
    split
    next => exact .inl rfl
    next hidle =>
      refine .inr ⟨rfl, hincomplete, Table.isEmpty_iff.mp hempty, fun id held hheld => ?_⟩
      have := Table.any_eq_false.mp (Bool.not_eq_true _ ▸ hidle) id held hheld
      exact (Bool.or_eq_false_iff.mp this).symm

theorem reportLocked_complete (state : State) :
    state.reportLocked.announced = state.announced ∨ state.reportLocked.Complete := by
  rw [State.reportLocked]
  split
  · exact .inl rfl
  · exact announceLocked_complete state

private theorem finishPass_complete (state : State) (key : PassKey) :
    (state.finishPass key).announced = state.announced ∨ (state.finishPass key).Complete := by
  rw [State.finishPass]
  split
  · exact reportLocked_complete { state with incomplete := false }
  · exact reportLocked_complete state

section Announced

variable {sys : System}

theorem reserve_announced (id : ContainerId) (eventTime : Option Timestamp) (terminal : Bool)
    (now : Timestamp) :
    (sys.reserve id eventTime terminal now).state.announced = sys.state.announced := by
  rw [System.reserve]
  cases sys.state.inFlight.get id with
  | none => rfl
  | some held => rfl

theorem advance_announced (index : Nat) (hold : Hold) (act : HoldAct) :
    (sys.advance index hold act).state.announced = sys.state.announced ∨
      (sys.advance index hold act).state.Complete := by
  cases act with
  | beginTerminate | endTerminate | begin | load | mark =>
    rw [System.advance]
    split
    · exact .inl rfl
    · exact .inl rfl
  | readKey => exact .inl rfl
  | finish outcome =>
    rw [System.advance]
    split
    · exact .inl rfl
    · exact .inl rfl
    · exact .inl rfl
  | settle now =>
    rw [System.advance]
    split
    next key started outcome _ =>
      obtain ⟨pending, hrest⟩ := settle_rest sys.state hold.id key outcome.good now
      rw [hrest]
      exact .inl rfl
    next => exact .inl rfl
  | next now =>
    rw [System.advance]
    cases hheld : sys.state.inFlight.get hold.id with
    | none => exact .inl rfl
    | some held =>
      by_cases hqueued : held.queued = true
      · simp only [if_pos hqueued, true_or]
      · simp only [if_neg hqueued]
        exact announceLocked_complete { sys.state with
          inFlight := sys.state.inFlight.erase hold.id }

/-- An act that announces a completion finds everything complete. -/
theorem announced_step (sys : System) (act : Act) :
    (sys.apply act).state.announced = sys.state.announced ∨ (sys.apply act).state.Complete := by
  cases act with
  | publish | request | notify | cancel | eventNotify | eventDrop | check | nextDue | wake
  | listRetry | retryDue
  | prune | sweep | stop | superseded | retryCancel => exact .inl rfl
  | start | endRun => exact .inl (reserve_announced _ _ _ _)
  | skip id eventTime now =>
    rw [System.apply, State.skipEvent]
    cases sys.state.processed.get id with
    | none => exact .inl rfl
    | some inspected => exact .inl rfl
  | takeRequest | armPrune | listed | visit =>
    rw [System.apply]
    split
    · exact .inl rfl
    · exact .inl rfl
  | listFailed | retryDone => exact reportLocked_complete sys.state
  | reserveVisit | retryNext =>
    rw [System.apply]
    split
    · exact .inl (reserve_announced _ _ _ _)
    · exact .inl rfl
  | finishPass =>
    rw [System.apply]
    split
    next key listed rest _ => exact finishPass_complete sys.state key
    next => exact .inl rfl
  | hold index act =>
    rw [System.apply]
    cases sys.holds[index]? with
    | none => exact .inl rfl
    | some hold => exact advance_announced index hold act

theorem latest_turns {loop loop' : Loop} (h : Turns loop loop') :
    loop'.latest = loop.latest ∨ ∃ generation, loop'.latest = loop.latest.request generation ∧
      loop'.log = .requested (loop.latest.request generation) :: loop.log := by
  cases h with
  | request generation => exact .inr ⟨generation, rfl, rfl⟩
  | _ => exact .inl rfl

/-- While the epoch has not wrapped, the key of a request is not the one the state starts with. -/
theorem latest_step (store : Nat) (acts : List Act) (act : Act)
    (hfew : FewRequests (((System.new store).run acts).step act).log)
    (h : (((System.new store).run acts).step act).state.latest = ⟨0, 0⟩) :
    ((System.new store).run acts).state.latest = ⟨0, 0⟩ := by
  by_cases henabled : ((System.new store).run acts).enabled act = true
  · rw [System.step, if_pos henabled] at h hfew
    rcases latest_turns (loop_step henabled) with heq | ⟨generation, heq, hlog⟩
    · exact heq.symm.trans h
    · have hzero : ((System.new store).run acts).state.latest.request generation = ⟨0, 0⟩ :=
        heq.symm.trans h
      have hlt := (run_numbered store acts).epoch_lt_request generation (hlog ▸ hfew)
      rw [hzero] at hlt
      exact absurd hlt BitVec.not_lt_zero
  · rwa [System.step, if_neg henabled] at h

theorem announced_complete (sys : System) (act : Act) :
    (sys.step act).state.announced = sys.state.announced ∨ (sys.step act).state.Complete := by
  rw [System.step]
  split
  · exact announced_step sys act
  · exact .inl rfl

/-- Without a request nothing was announced. -/
theorem run_announced (store : Nat) (acts : List Act)
    (hfew : FewRequests ((System.new store).run acts).log)
    (h : ((System.new store).run acts).state.latest = ⟨0, 0⟩) :
    ((System.new store).run acts).state.announced = ⟨0, 0⟩ := by
  induction acts using List.reverseRecOn with
  | nil => rfl
  | append_singleton acts act ih =>
    rw [← run_step] at hfew h ⊢
    rcases announced_complete ((System.new store).run acts) act with hsame | hcomplete
    · rw [hsame]
      exact ih hfew.front (latest_step store acts act hfew h)
    · rw [hcomplete.announced, h]

end Announced

/-! ## The theorem -/

/-- The log has a reconcile of the container that began after the request, loaded a config of its
generation or a newer one and ended well, and no failed one that was settled after it. -/
def ReconciledFor (id : ContainerId) (key : PassKey) (log : List Entry) : Prop :=
  ∃ after outcome between generation front wall before,
    log = after ++ .ended id outcome ::
      (between ++ .loaded id generation :: (front ++ .began id key wall :: before)) ∧
      outcome.good = true ∧ key.generation ≤ generation ∧ .requested key ∈ before ∧
      (∀ entry ∈ between ++ front, ¬ entry.begins id) ∧ .settled id .failed ∉ after

theorem Served.reconciledFor {id : ContainerId} {key : PassKey} {log : List Entry}
    (h : Served id key log) (hbegins : Orderly (AfterRequest id) log) (hkey : key ≠ ⟨0, 0⟩) :
    ReconciledFor id key log := by
  have hnone : ∀ {entries : List Entry}, (∀ entry ∈ entries, ¬ entry.restarts id) →
      ∀ entry ∈ entries, ¬ entry.begins id := by
    intro entries hentries entry hentry hbegins
    cases entry with
    | began => exact hentries _ hentry hbegins
    | _ => exact hbegins
  obtain ⟨after, _, earlier, rfl, ⟨outcome, generation, hgood, hle, rfl, hloaded⟩, hafter⟩ :=
    since_iff.mp h
  obtain ⟨between, _, earlier, rfl, ⟨rfl, hbegan⟩, hbetween⟩ := since_iff.mp hloaded
  obtain ⟨front, _, before, rfl, ⟨wall, rfl⟩, hfront⟩ := since_iff.mp hbegan
  refine ⟨after, outcome, between, generation, front, wall, before, rfl, hgood, hle, ?_, ?_, ?_⟩
  · have hrequest := orderly_iff.mp hbegins
      (after ++ .ended id outcome :: (between ++ .loaded id generation :: front))
      (.began id key wall) before (by simp)
    exact (hrequest key wall rfl).resolve_left hkey
  · exact List.forall_mem_append.mpr ⟨hnone hbetween, hnone hfront⟩
  · exact fun hmem => hafter _ hmem rfl

/-- Whatever the order of the acts, as long as they make fewer than `2 ^ 64` requests and publish
fewer than `2 ^ 64` configs: an act that announces a completion announces the latest request. A pass
taken for it has visited every container it listed, nothing is pending, no reservation has a
reconcile, and each of these containers was reconciled for the request. -/
theorem complete_not_early (store : Nat) (acts : List Act) (act : Act)
    (hfew : FewRequests (((System.new store).run acts).step act).log)
    (hpublished : FewPublished (((System.new store).run acts).step act).store)
    (h : (((System.new store).run acts).step act).state.announced ≠
      ((System.new store).run acts).state.announced) :
    (((System.new store).run acts).step act).state.Complete ∧
      ∃ ids, Passed (((System.new store).run acts).step act).state.latest ids
          (((System.new store).run acts).step act).log ∧
        ∀ id ∈ ids, ReconciledFor id (((System.new store).run acts).step act).state.latest
          (((System.new store).run acts).step act).log := by
  have hcomplete : (((System.new store).run acts).step act).state.Complete :=
    (announced_complete _ act).resolve_left h
  refine ⟨hcomplete, ?_⟩
  have hlatest : (((System.new store).run acts).step act).state.latest ≠ ⟨0, 0⟩ := by
    intro hlatest
    have hbefore := latest_step store acts act hfew hlatest
    rw [hcomplete.announced, hlatest, run_announced store acts hfew.front hbefore] at h
    exact h rfl
  rw [run_step] at hfew hpublished hcomplete hlatest ⊢
  obtain ⟨ids, hpassed, hvisited⟩ :=
    ((run_tours store (acts ++ [act]) hfew).passed hcomplete.passed).resolve_left hlatest
  refine ⟨ids, hpassed, fun id hid => ?_⟩
  have hserved : Served id ((System.new store).run (acts ++ [act])).state.latest
      ((System.new store).run (acts ++ [act])).log := by
    cases run_owed store (acts ++ [act]) id hfew hpublished (hvisited id hid) with
    | served h => exact h
    | pending h =>
      have := hcomplete.settled id
      simp [System.place, this] at h
    | queued isHeld h =>
      exact absurd (h.symm.trans (hcomplete.idle id _ isHeld).2) Bool.false_ne_true.symm
    | @held hold holds h =>
      have hkept := run_kept store (acts ++ [act]) id
      obtain ⟨held, hheld⟩ := Option.isSome_iff_exists.mp (hkept.matched.trans (by rw [holds]; rfl))
      have hrunning := (hkept.tells held hold hheld holds).2 true h.reconciles
      exact absurd (hrunning.symm.trans (hcomplete.idle id held hheld).1) Bool.false_ne_true.symm
  exact hserved.reconciledFor (run_stamped store (acts ++ [act]) id).begins hlatest

/-- A reload with one running container, up to the end of its pass. -/
def reloadActs : List Act :=
  [.request 1, .notify, .check, .takeRequest, .listed ["app"], .visit, .reserveVisit 5,
    .hold 0 (.readKey ⟨6, 6⟩),
    .hold 0 (.begin 7), .hold 0 .load, .hold 0 (.finish .ok), .hold 0 (.settle 8), .hold 0 .mark,
      .hold 0 (.next 9)]

theorem complete_not_early_reload :
    (((System.new 1).run reloadActs).step .finishPass).state.Complete ∧
      ∃ ids, Passed ⟨1, 1⟩ ids (((System.new 1).run reloadActs).step .finishPass).log ∧
        ∀ id ∈ ids, ReconciledFor id ⟨1, 1⟩
        (((System.new 1).run reloadActs).step .finishPass).log := by
  have hlatest : (((System.new 1).run reloadActs).step .finishPass).state.latest = ⟨1, 1⟩ := by
    decide +kernel
  rw [← hlatest]
  exact complete_not_early 1 reloadActs .finishPass (show _ < 2 ^ 64 by decide +kernel)
    (show _ < 2 ^ 64 by decide +kernel) (by decide +kernel)

end Daemon
end Sda
