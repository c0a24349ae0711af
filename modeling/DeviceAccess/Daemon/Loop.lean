import DeviceAccess.Daemon.Places

/-!
# The run loop of the coordinator

`System.loop` is what the system shows of its run loop: the requests, the wake permit, the list
retry and where the loop is. Whatever act is made anywhere, it changes by one turn (`loop_step`);
what the holds and the callers do to it is the turn `other`.
-/

namespace Sda
namespace Daemon

open Processor (ContainerId Timestamp)

/-- What the system shows of its run loop. -/
structure Loop where
  latest : PassKey
  dirty : Bool
  incomplete : Bool
  permit : Bool
  requesting : Nat
  canceled : Bool
  pc : RunPc
  listRetry : Option Instant
  log : List Entry

def System.loop (sys : System) : Loop :=
  ⟨sys.state.latest, sys.state.dirty, sys.state.incomplete, sys.permit, sys.requesting,
    sys.canceled, sys.pc, sys.listRetry, sys.log⟩

/-- The entry is a request. -/
def Entry.isRequest : Entry → Prop
  | .requested _ => True
  | _ => False

/-- The entry is the start of a pass. -/
def Entry.isTaken : Entry → Prop
  | .taken _ => True
  | _ => False

/-- The entries have no request and start no pass. -/
def Calls (entries : List Entry) : Prop := ∀ entry ∈ entries, ¬ entry.isRequest ∧ ¬ entry.isTaken

/-- The request the pass is for. -/
def RunPc.key : RunPc → Option PassKey
  | .listing key | .visiting key _ _ | .reserving key _ _ _ => some key
  | _ => none

/-- How the run loop changes. -/
inductive Turns : Loop → Loop → Prop
  | other {loop : Loop} {permit canceled : Bool} {entries : List Entry} (kept : loop.permit = true →
    permit = true)
    (stays : loop.canceled = true → canceled = true) (calls : Calls entries) :
    Turns loop { loop with permit := permit, canceled := canceled, log := entries ++ loop.log }
  | request {loop : Loop} (generation : BitVec 64) :
    Turns loop { loop with
      latest := loop.latest.request generation
      dirty := true
      incomplete := true
      requesting := loop.requesting + 1
      log := .requested (loop.latest.request generation) :: loop.log }
  | notify {loop : Loop} : Turns loop { loop with
    permit := true, requesting := loop.requesting - 1 }
  | check {loop : Loop} (pc : loop.pc = .top) :
    Turns loop { loop with pc := if loop.canceled then .stopped else .ready }
  | take {loop : Loop} (pc : loop.pc = .ready) (dirty : loop.dirty = true) :
    Turns loop { loop with
      dirty := false, pc := .listing loop.latest, log := .taken loop.latest :: loop.log }
  | rest {loop : Loop} (pc : loop.pc = .ready) (clean : loop.dirty = false) :
    Turns loop { loop with pc := .idle }
  | arm {loop : Loop} (retry : Option Instant) (pc : loop.pc = .idle) :
    Turns loop { loop with pc := .armed retry }
  | sleep {loop : Loop} {retry : Option Instant} (pc : loop.pc = .armed retry) :
    Turns loop { loop with pc := .waiting retry }
  | wake {loop : Loop} {retry : Option Instant} (pc : loop.pc = .waiting retry) :
    Turns loop { loop with permit := false, pc := .top }
  | redo {loop : Loop} {retry : Option Instant} (pc : loop.pc = .waiting retry) :
    Turns loop { loop with dirty := true, listRetry := none, pc := .top }
  | leave {loop : Loop} {retry : Option Instant} (next : RunPc) (pc : loop.pc = .waiting retry)
    (target : next = .top ∨ (∃ ids, next = .retrying ids) ∨ next = .stopped ∧
      loop.canceled = true) :
    Turns loop { loop with pc := next }
  | listed {loop : Loop} {key : PassKey} (ids : List ContainerId) (pc : loop.pc = .listing key) :
    Turns loop { loop with pc := .visiting key ids ids }
  | listFailed {loop : Loop} {key : PassKey} {entries : List Entry} (deadline : Instant)
    (pc : loop.pc = .listing key) (calls : Calls entries) :
    Turns loop { loop with listRetry := some deadline, pc := .top, log := entries ++ loop.log }
  | superseded {loop : Loop} {key : PassKey} {listed rest : List ContainerId}
    (pc : loop.pc = .visiting key listed rest)
    (why : loop.canceled = true ∨ loop.latest ≠ key) : Turns loop { loop with pc := .top }
  | visit {loop : Loop} {key : PassKey} {listed rest : List ContainerId} {id : ContainerId}
    (pc : loop.pc = .visiting key listed (id :: rest)) :
      Turns loop { loop with pc := .reserving key listed id rest }
  | reserve {loop : Loop} {key : PassKey} {listed rest : List ContainerId} {id : ContainerId}
    {entries : List Entry}
    (pc : loop.pc = .reserving key listed id rest) (calls : Calls entries) :
    Turns loop { loop with
      pc := .visiting key listed rest, log := .visited key id :: (entries ++ loop.log) }
  | finish {loop : Loop} {key : PassKey} {listed : List ContainerId} {entries : List Entry}
    (pc : loop.pc = .visiting key listed []) (calls : Calls entries) :
    Turns loop { loop with
      incomplete := if key = loop.latest then false else loop.incomplete
      listRetry := none
      pc := .top
      log := entries ++ .passed key listed :: loop.log }
  | retry {loop : Loop} {ids : List ContainerId} {entries : List Entry} (next : RunPc)
    (pc : loop.pc = .retrying ids)
    (target : next = .top ∨ ∃ ids, next = .retrying ids) (calls : Calls entries) :
    Turns loop { loop with pc := next, log := entries ++ loop.log }

section Step

variable {sys : System} {act : Act}

theorem calls_nil : Calls [] := nofun

theorem calls_single {entry : Entry} (h : ¬ entry.isRequest ∧ ¬ entry.isTaken) : Calls [entry] :=
  List.forall_mem_singleton.mpr h

theorem put_calls (sys : System) (state : State) :
    ∃ entries, (sys.put state).log = entries ++ sys.log ∧ Calls entries := by
  rw [System.put]
  by_cases h : state.announced = sys.state.announced
  · exact ⟨[], by simp [h], calls_nil⟩
  · exact ⟨[.announced state.announced], by simp [h], calls_single ⟨not_false, not_false⟩⟩

theorem reserve_loop (sys : System) (id : ContainerId) (eventTime : Option Timestamp)
    (terminal : Bool) (now : Timestamp) : ∃ entry : Entry, (¬ entry.isRequest ∧ ¬ entry.isTaken) ∧
      (sys.reserve id eventTime terminal now).loop = { sys.loop with log := entry :: sys.log } := by
  rw [System.reserve]
  cases sys.state.inFlight.get id with
  | none =>
    exact ⟨.claimed id (!terminal) (if terminal then eventTime else none) now,
      ⟨not_false, not_false⟩, rfl⟩
  | some held =>
    cases terminal with
    | false => exact ⟨.asked id eventTime held.applyStart, ⟨not_false, not_false⟩, rfl⟩
    | true =>
      cases eventTime with
      | none => exact ⟨.asked id none held.applyStart, ⟨not_false, not_false⟩, rfl⟩
      | some eventTime => exact ⟨.askedEnd id eventTime, ⟨not_false, not_false⟩, rfl⟩

private theorem turns_same {sys' : System} {entries : List Entry} (calls : Calls entries)
    (h : sys'.loop = { sys.loop with log := entries ++ sys.log }) : Turns sys.loop sys'.loop := by
  rw [h]
  exact @Turns.other sys.loop _ _ _ (fun h => h) (fun h => h) calls

/-- Nothing changed but perhaps the wake permit and the log. -/
def Loop.Aside (loop loop' : Loop) : Prop :=
  ∃ permit entries, (loop.permit = true → permit = true) ∧ Calls entries ∧
    loop' = { loop with permit := permit, log := entries ++ loop.log }

/-- What a hold does is no matter of the run loop, but it may wake it. -/
theorem advance_aside (sys : System) (index : Nat) (hold : Hold) (act : HoldAct) :
    sys.loop.Aside (sys.advance index hold act).loop := by
  have hsame : sys.loop.Aside sys.loop := ⟨sys.permit, [], fun h => h, calls_nil, rfl⟩
  have hone : ∀ {sys' : System} (entry : Entry), sys'.loop = { sys.loop with
    log := entry :: sys.log } →
      ¬ entry.isRequest ∧ ¬ entry.isTaken → sys.loop.Aside sys'.loop :=
    fun entry h hentry => ⟨sys.permit, [entry], fun h => h, calls_single hentry, h⟩
  cases act with
  | beginTerminate | endTerminate | begin | load =>
    rw [System.advance]
    split
    · exact hone _ rfl ⟨not_false, not_false⟩
    · exact hsame
  | readKey => exact hone _ rfl ⟨not_false, not_false⟩
  | finish outcome =>
    rw [System.advance]
    split
    · exact hone _ rfl ⟨not_false, not_false⟩
    · exact hone _ rfl ⟨not_false, not_false⟩
    · exact hsame
  | settle now =>
    rw [System.advance]
    split
    next key started outcome _ =>
      obtain ⟨pending, hrest⟩ := settle_rest sys.state hold.id key outcome.good now
      rw [hrest]
      exact hone (.settled hold.id outcome) rfl ⟨not_false, not_false⟩
    next => exact hsame
  | mark =>
    rw [System.advance]
    split
    · exact hsame
    · exact hsame
  | next now =>
    rw [System.advance]
    cases hheld : sys.state.inFlight.get hold.id with
    | none => exact hsame
    | some held =>
      by_cases hqueued : held.queued = true
      · simp only [if_pos hqueued]
        exact hone (.resumed hold.id held.reconcile held.terminateAt now) rfl ⟨not_false, not_false⟩
      · simp only [if_neg hqueued]
        obtain ⟨announced, hrest⟩ :=
          announceLocked_rest { sys.state with inFlight := sys.state.inFlight.erase hold.id }
        obtain ⟨entries, hlog, hcalls⟩ :=
            put_calls { sys with log := .released hold.id held :: sys.log }
          { sys.state with inFlight := sys.state.inFlight.erase hold.id, announced := announced }
        have hloop : (sys.release index hold held).loop =
            { sys.loop with
              permit := sys.permit || (sys.state.pending.get hold.id).isSome
              log := (entries ++ [.released hold.id held]) ++ sys.log } := by
          simp only [System.release, hrest, System.loop, List.append_assoc, hlog]
          rfl
        refine ⟨_, entries ++ [.released hold.id held], fun h => ?_, ?_, hloop⟩
        · rw [show sys.permit = true from h]
          rfl
        · exact List.forall_mem_append.mpr ⟨hcalls, calls_single ⟨not_false, not_false⟩⟩

private theorem retry_some {pc : RunPc} (h : pc.retry.isSome = true) :
    ∃ retry, pc = .waiting retry := by
  cases pc with
  | waiting retry => exact ⟨retry, rfl⟩
  | _ => cases h

/-- Whatever is done anywhere, the run loop changes by one turn. -/
theorem loop_step (henabled : sys.enabled act = true) : Turns sys.loop (sys.apply act).loop := by
  have hsame : Turns sys.loop sys.loop := turns_same calls_nil rfl
  have hwaiting : ∀ {fits : Bool}, (sys.pc.retry.isSome && fits) = true →
      ∃ retry, sys.pc = .waiting retry :=
    fun h => retry_some (Bool.and_eq_true_iff.mp h).1
  have hreserve : ∀ id eventTime terminal now,
      Turns sys.loop (sys.reserve id eventTime terminal now).loop := by
    intro id eventTime terminal now
    obtain ⟨entry, hentry, hloop⟩ := reserve_loop sys id eventTime terminal now
    exact turns_same (calls_single hentry) hloop
  cases act with
  | publish => exact hsame
  | request number => exact @Turns.request sys.loop (generationOf number)
  | notify => exact @Turns.notify sys.loop
  | cancel => exact @Turns.other sys.loop _ _ [] (fun h => h) (fun _ => rfl) calls_nil
  | start id eventTime now => exact hreserve id (some eventTime) false now
  | endRun id eventTime now => exact hreserve id (some eventTime) true now
  | skip id eventTime now =>
    rw [System.apply, State.skipEvent]
    cases sys.state.processed.get id with
    | none => exact hsame
    | some inspected =>
      by_cases hcovered :
        (!State.expired now inspected && decide (eventTime ≤ inspected.wall)) = true
      · refine turns_same
          (calls_single (⟨not_false, not_false⟩ : ¬ (Entry.skipped id eventTime).isRequest ∧ _)) ?_
        simp [System.loop, hcovered]
      · refine turns_same calls_nil ?_
        simp [System.loop, hcovered]
  | eventNotify => exact @Turns.other sys.loop _ _ [] (fun _ => rfl) (fun h => h) calls_nil
  | eventDrop => exact hsame
  | check => exact @Turns.check sys.loop (of_decide_eq_true henabled)
  | takeRequest =>
    have hpc : sys.pc = .ready := of_decide_eq_true henabled
    rw [System.apply]
    split
    next hdirty => exact @Turns.take sys.loop hpc hdirty
    next hclean => exact @Turns.rest sys.loop hpc (Bool.eq_false_iff.mpr hclean)
  | nextDue => exact @Turns.arm sys.loop _ (of_decide_eq_true henabled)
  | armPrune now =>
    rw [System.apply]
    split
    next retry hpc => exact @Turns.sleep sys.loop _ hpc
    next => exact hsame
  | wake =>
    obtain ⟨retry, hpc⟩ := hwaiting henabled
    exact @Turns.wake sys.loop _ hpc
  | listRetry now =>
    obtain ⟨retry, hpc⟩ := hwaiting henabled
    exact @Turns.redo sys.loop _ hpc
  | retryDue now =>
    have hsome : sys.pc.retry.isSome = true := by
      cases hretry : sys.pc.retry with
      | some retry => rfl
      | none => simp [System.enabled, hretry] at henabled
    obtain ⟨retry, hpc⟩ := retry_some hsome
    exact @Turns.leave sys.loop _ _ hpc (.inr (.inl ⟨_, rfl⟩))
  | prune now =>
    obtain ⟨retry, hpc⟩ := hwaiting henabled
    exact @Turns.leave sys.loop _ _ hpc (.inl rfl)
  | sweep =>
    obtain ⟨retry, hpc⟩ := retry_some henabled
    exact @Turns.leave sys.loop _ _ hpc (.inl rfl)
  | stop =>
    obtain ⟨retry, hpc⟩ := hwaiting henabled
    exact @Turns.leave sys.loop _ _ hpc (.inr (.inr ⟨rfl, (Bool.and_eq_true_iff.mp henabled).2⟩))
  | listed ids =>
    rw [System.apply]
    split
    next key hpc => exact @Turns.listed sys.loop _ ids hpc
    next => exact hsame
  | listFailed now =>
    obtain ⟨key, hpc⟩ : ∃ key, sys.pc = .listing key := by
      cases hpc : sys.pc with
      | listing key => exact ⟨key, rfl⟩
      | _ => simp [System.enabled, hpc] at henabled
    obtain ⟨announced, hrest⟩ := reportLocked_rest sys.state
    obtain ⟨entries, hlog, hcalls⟩ := put_calls sys { sys.state with announced := announced }
    have h := @Turns.listFailed sys.loop _ _ (now + sys.listBackoff) hpc hcalls
    rw [System.apply, hrest]
    convert h using 1
    simp only [System.loop, hlog]
    rfl
  | superseded =>
    cases hpc : sys.pc with
    | visiting key listed rest =>
      have hwhy : sys.canceled = true ∨ sys.state.latest ≠ key := by
        cases rest with
        | nil => simp [System.enabled, hpc] at henabled
        | cons id rest => simpa [System.enabled, hpc] using henabled
      exact @Turns.superseded sys.loop _ _ _ hpc hwhy
    | _ => simp [System.enabled, hpc] at henabled
  | visit =>
    rw [System.apply]
    split
    next key listed id rest hpc => exact @Turns.visit sys.loop _ _ _ _ hpc
    next => exact hsame
  | reserveVisit now =>
    rw [System.apply]
    split
    next key listed id rest hpc =>
      obtain ⟨entry, hentry, hloop⟩ := reserve_loop sys id none false now
      have hlog : (sys.reserve id none false now).log = entry :: sys.log := congrArg Loop.log hloop
      have h := @Turns.reserve sys.loop _ _ _ _ _ hpc (calls_single hentry)
      convert h using 1
      simp only [System.loop] at hloop ⊢
      injection hloop
      simp_all
    next => exact hsame
  | finishPass =>
    rw [System.apply]
    split
    next key listed rest hpc =>
      obtain rfl : rest = [] := by
        cases rest with
        | nil => rfl
        | cons id rest => simp [System.enabled, hpc] at henabled
      obtain ⟨announced, hrest⟩ := finishPass_rest sys.state key
      obtain ⟨entries, hlog, hcalls⟩ := put_calls { sys with log := .passed key listed :: sys.log }
        { sys.state with
          incomplete := if key = sys.state.latest then false else sys.state.incomplete
          announced := announced }
      have h := @Turns.finish sys.loop _ _ _ hpc hcalls
      rw [hrest]
      convert h using 1
      simp only [System.loop, hlog]
      rfl
    next => exact hsame
  | retryNext now =>
    rw [System.apply]
    split
    next id ids hpc =>
      obtain ⟨entry, hentry, hloop⟩ := reserve_loop sys id none false now
      have h := @Turns.retry sys.loop _ _ (.retrying ids) hpc (.inr ⟨ids, rfl⟩)
        (calls_single hentry)
      convert h using 1
      simp only [System.loop] at hloop ⊢
      injection hloop
      simp_all
    next => exact hsame
  | retryDone =>
    have hpc : sys.pc = .retrying [] := of_decide_eq_true henabled
    obtain ⟨announced, hrest⟩ := reportLocked_rest sys.state
    obtain ⟨entries, hlog, hcalls⟩ := put_calls sys { sys.state with announced := announced }
    have h := @Turns.retry sys.loop _ _ .top hpc (.inl rfl) hcalls
    rw [System.apply, hrest]
    convert h using 1
    simp only [System.loop, hlog]
    rfl
  | retryCancel =>
    cases hpc : sys.pc with
    | retrying ids => exact @Turns.retry sys.loop _ _ .top hpc (.inl rfl) calls_nil
    | _ => simp [System.enabled, hpc] at henabled
  | hold index act =>
    rw [System.apply]
    cases sys.holds[index]? with
    | none => exact hsame
    | some hold =>
      obtain ⟨permit, entries, hpermit, hcalls, hloop⟩ := advance_aside sys index hold act
      simp only [hloop]
      exact .other hpermit (fun h => h) hcalls

end Step

end Daemon
end Sda
