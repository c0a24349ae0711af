import DeviceAccess.Daemon.OneHolder

/-!
# Which request a reconcile was begun for

A reconcile reads the latest request, then begins, then loads the config. `Began`, `Loaded` and
`Ended` follow it in the log; `Stamped` says how what it read relates to what the log shows, and
that a pending entry carries the latest request.

The trigger epoch is the number of requests modulo `2 ^ 64` (`Numbered`). Which of two requests was
made first can be told from their keys only while it has not wrapped (`FewRequests`). A generation
is the number of a published config modulo `2 ^ 64`, and says which of two is newer only while it
has not wrapped (`FewPublished`).
-/

namespace Sda
namespace Daemon

open Processor (ContainerId Timestamp)

/-! ## Counting requests -/

/-- The entry is a request. -/
def Entry.requests : Entry → Bool
  | .requested _ => true
  | _ => false

/-- How many requests were made. -/
def requestsIn (log : List Entry) : Nat := log.countP Entry.requests

/-- No more requests were made than the trigger epoch can tell apart. -/
def FewRequests (log : List Entry) : Prop := requestsIn log < 2 ^ 64

/-- The trigger epoch counts the requests, and wraps. -/
def Numbered (latest : PassKey) (log : List Entry) : Prop :=
  latest.epoch = BitVec.ofNat 64 (requestsIn log)

/-- The same request, or one with a lower trigger epoch. -/
def PassKey.Older (key other : PassKey) : Prop := key = other ∨ key.epoch < other.epoch

section Keys

variable {key other latest : PassKey} {entries log : List Entry}

theorem FewRequests.tail (h : FewRequests (entries ++ log)) : FewRequests log := by
  rw [FewRequests, requestsIn, List.countP_append] at h
  exact Nat.lt_of_le_of_lt (Nat.le_add_left _ _) h

theorem Numbered.append (h : Numbered latest log)
    (hentries : ∀ entry ∈ entries, entry.requests = false) :
    Numbered latest (entries ++ log) := by
  have hnone : entries.countP Entry.requests = 0 :=
    List.countP_eq_zero.mpr fun entry hentry => by simp [hentries entry hentry]
  rw [Numbered, requestsIn, List.countP_append, hnone, Nat.zero_add]
  exact h

theorem Numbered.request (h : Numbered latest log) (generation : BitVec 64) :
    Numbered (latest.request generation) (.requested (latest.request generation) :: log) := by
  rw [Numbered, requestsIn, List.countP_cons_of_pos rfl, BitVec.ofNat_add]
  exact congrArg (· + 1) h

theorem Numbered.toNat_epoch (h : Numbered latest log) (hfew : FewRequests log) :
    latest.epoch.toNat = requestsIn log := by
  rw [h, BitVec.toNat_ofNat, Nat.mod_eq_of_lt hfew]

theorem PassKey.Older.refl : key.Older key := .inl rfl

/-- While the epoch does not wrap, a request has a higher one than all before it. -/
theorem Numbered.epoch_lt_request (h : Numbered latest log) (generation : BitVec 64)
    (hfew : FewRequests (.requested (latest.request generation) :: log)) :
    latest.epoch < (latest.request generation).epoch := by
  rw [BitVec.lt_def, h.toNat_epoch (FewRequests.tail (List.singleton_append ▸ hfew)),
    (h.request generation).toNat_epoch hfew, requestsIn, requestsIn, List.countP_cons_of_pos rfl]
  exact Nat.lt_succ_self _

theorem PassKey.Older.epoch_lt (h : key.Older latest) (hlt : latest.epoch < other.epoch) :
    key.epoch < other.epoch := by
  rcases h with rfl | h
  · exact hlt
  · exact BitVec.lt_trans h hlt

/-- Nothing was requested in between. -/
theorem PassKey.Older.eq_of_older (h : key.Older other) (h' : other.Older key) : other = key := by
  rcases h with rfl | h
  · rfl
  · rcases h' with rfl | h'
    · rfl
    · exact absurd (BitVec.lt_trans h h') (BitVec.lt_irrefl _)

end Keys

/-! ## Counting configs -/

/-- No more configs were published than the generation can tell apart. -/
def FewPublished (store : Nat) : Prop := store < 2 ^ 64

/-- While the generation does not wrap, the config in force has the highest one. -/
theorem FewPublished.le_generationOf {store : Nat} (hfew : FewPublished store)
    {generation : BitVec 64} (h : generation.toNat ≤ store) : generation ≤ generationOf store := by
  rw [generationOf, BitVec.le_def, BitVec.toNat_ofNat, Nat.mod_eq_of_lt hfew]
  exact h

/-! ## Reconciles in the log -/

/-- A reconcile of the container began, or a failed one was settled. -/
def Entry.restarts (id : ContainerId) : Entry → Prop
  | .began other _ _ => other = id
  | .settled other outcome => other = id ∧ outcome = .failed
  | _ => False

/-- The last reconcile of the container began when `begun` was the latest request. -/
def Began (id : ContainerId) (begun : PassKey) : List Entry → Prop :=
  Since (Entry.restarts id) fun entry _ => ∃ wall, entry = .began id begun wall

/-- It has loaded the config. -/
def Loaded (id : ContainerId) (begun : PassKey) (generation : BitVec 64) : List Entry → Prop :=
  Since (Entry.restarts id) fun entry earlier => entry = .loaded id generation ∧
    Began id begun earlier

/-- It has ended. -/
def Ended (id : ContainerId) (begun : PassKey) (generation : BitVec 64) (outcome : Outcome) :
    List Entry → Prop :=
  Since (Entry.restarts id) fun entry earlier => entry = .ended id outcome ∧
    Loaded id begun generation earlier

theorem subject_of_restarts {id : ContainerId} (entry : Entry) (h : entry.restarts id) :
    entry.subject = some id := by
  cases entry with
  | began other latest wall => exact congrArg some h
  | settled other outcome => exact congrArg some h.1
  | _ => exact h.elim

/-! ## The invariant -/

/-- Where a hold stands in a reconcile, it stands in the log. -/
def HoldPc.Stands (id : ContainerId) (latest : PassKey) (store : Nat) (log : List Entry) :
    HoldPc → Prop
  | .keyed key _ => key.Older latest
  | .reconciling key _ =>
    ∃ begun, key.Older begun ∧ begun.Older latest ∧ begun.generation.toNat ≤ store ∧
      Began id begun log
  | .loaded key _ =>
    ∃ begun generation, key.Older begun ∧ begun.Older latest ∧
      (FewPublished store → begun.generation ≤ generation) ∧ Loaded id begun generation log
  | .reconciled key _ outcome =>
    outcome.good = true → ∃ begun generation, key.Older begun ∧ begun.Older latest ∧
      (FewPublished store → begun.generation ≤ generation) ∧
      Ended id begun generation outcome log
  | _ => True

/-- A reconcile begins for a request that was made. -/
def AfterRequest (id : ContainerId) (entry : Entry) (earlier : List Entry) : Prop :=
  ∀ begun wall, entry = .began id begun wall → begun = ⟨0, 0⟩ ∨ .requested begun ∈ earlier

/-- How a container's entries and its hold relate to the requests. -/
structure Stamped (id : ContainerId) (place : Place) : Prop where
  tagged : ∀ entry, place.pending = some entry → entry.key = place.latest
  published : place.latest.generation.toNat ≤ place.store
  numbered : Numbered place.latest place.log
  stands : FewRequests place.log → ∀ hold, place.hold = some hold →
    hold.pc.Stands id place.latest place.store place.log
  requested : place.latest = ⟨0, 0⟩ ∨ .requested place.latest ∈ place.log
  begins : Orderly (AfterRequest id) place.log

section Moves

variable {id : ContainerId} {place place' : Place} {latest : PassKey} {store : Nat}
  {log : List Entry} {pc : HoldPc}

/-- A later moment of the same reconcile: entries were logged that begin none, and requests were
made. -/
theorem HoldPc.Stands.later (h : pc.Stands id latest store log) {latest' : PassKey} {store' : Nat}
    {log' : List Entry} (hlatest : ∀ key : PassKey, key.Older latest → key.Older latest')
    (hstore : store ≤ store')
    (hlog : ∀ mark, (∀ entry earlier, mark entry earlier → entry.subject = some id) →
      Since (Entry.restarts id) mark log → Since (Entry.restarts id) mark log') : pc.Stands id
      latest' store' log' := by
  cases pc with
  | keyed key started => exact hlatest key h
  | reconciling key started =>
    obtain ⟨begun, hkey, hbegun, hgeneration, hlast⟩ := h
    refine ⟨begun, hkey, hlatest begun hbegun, hgeneration.trans hstore, hlog _ ?_ hlast⟩
    rintro _ _ ⟨wall, rfl⟩
    rfl
  | loaded key started =>
    obtain ⟨begun, generation, hkey, hbegun, hgeneration, hlast⟩ := h
    refine ⟨begun, generation, hkey, hlatest begun hbegun,
      fun hfew => hgeneration (hstore.trans_lt hfew), hlog _ ?_ hlast⟩
    rintro _ _ ⟨rfl, -⟩
    rfl
  | reconciled key started outcome =>
    intro hgood
    obtain ⟨begun, generation, hkey, hbegun, hgeneration, hlast⟩ := h hgood
    refine ⟨begun, generation, hkey, hlatest begun hbegun,
      fun hfew => hgeneration (hstore.trans_lt hfew), hlog _ ?_ hlast⟩
    rintro _ _ ⟨rfl, -⟩
    rfl
  | _ => trivial

theorem HoldPc.Stands.cons (h : pc.Stands id latest store log) {entry : Entry}
    (hentry : ¬ entry.restarts id) :
    pc.Stands id latest store (entry :: log) :=
  h.later (fun _ h => h) le_rfl fun _ _ hsince => .inr ⟨hentry, hsince⟩

private theorem begin_stands (reconcile : Bool) (terminateAt : Option Timestamp) :
    (HoldPc.begin reconcile terminateAt).Stands id latest store log := by
  cases terminateAt with
  | some eventTime => trivial
  | none => cases reconcile <;> trivial

/-- A move only adds to the log. -/
theorem Moves.extends_log (h : Moves id place place') :
    ∃ entries, place'.log = entries ++ place.log := by
  cases h with
  | quiet entries => exact ⟨entries, rfl⟩
  | forget | mark => exact ⟨[], rfl⟩
  | _ => exact ⟨[_], rfl⟩

theorem FewRequests.before (h : FewRequests place'.log) (hmove : Moves id place place') :
    FewRequests place.log := by
  obtain ⟨entries, hlog⟩ := hmove.extends_log
  rw [hlog] at h
  exact h.tail

theorem Moves.store_le (h : Moves id place place') : place.store ≤ place'.store := by
  cases h with
  | quiet entries store foreign le => exact le
  | _ => exact le_rfl

theorem FewRequests.earlier (h : FewRequests place'.log) (hreaches : Reaches id place place') :
    FewRequests place.log := by
  induction hreaches with
  | refl => exact h
  | tail _ hmove ih => exact ih (h.before hmove)

theorem numbered_moves (h : Numbered place.latest place.log) (hmove : Moves id place place') :
    Numbered place'.latest place'.log := by
  cases hmove with
  | quiet entries store foreign =>
    refine h.append fun entry hentry => ?_
    cases entry with
    | requested key => exact absurd rfl ((foreign _ hentry).2 key)
    | _ => rfl
  | request generation => exact h.request generation
  | _ => exact h

theorem stands_moves (h : Stamped id place) (hmove : Moves id place place')
    (hfew : FewRequests place'.log) (hold : Hold) :
    place'.hold = some hold → hold.pc.Stands id place'.latest place'.store place'.log := by
  intro hhold
  have hstands := h.stands (hfew.before hmove)
  cases hmove with
  | quiet entries store foreign le =>
    refine (hstands hold hhold).later (fun _ h => h) le fun mark hmark hsince => ?_
    exact (since_foreign hmark subject_of_restarts foreign).mpr hsince
  | request generation =>
    have hlt := h.numbered.epoch_lt_request generation hfew
    exact (hstands hold hhold).later (fun _ h => .inr (h.epoch_lt hlt)) le_rfl fun _ _ hsince =>
      .inr ⟨fun h => h, hsince⟩
  | claim eventTime terminal now free =>
    cases hhold
    exact begin_stands _ _
  | ask | askEnd | visit | skip => exact (hstands hold hhold).cons fun h => h
  | forget => exact hstands hold hhold
  | beginTerminate =>
    cases hhold
    trivial
  | @endTerminate hold' reconcile =>
    cases hhold
    cases reconcile <;> trivial
  | readKey started =>
    cases hhold
    exact PassKey.Older.refl
  | begin wall holds pc =>
    cases hhold
    have hkey := hstands _ holds
    rw [pc] at hkey
    exact ⟨place.latest, hkey, .refl, h.published, .inl ⟨wall, rfl⟩⟩
  | load holds pc =>
    cases hhold
    have hlast := hstands _ holds
    rw [pc] at hlast
    obtain ⟨begun, hkey, hbegun, hgeneration, hlast⟩ := hlast
    exact ⟨begun, generationOf place.store, hkey, hbegun, (·.le_generationOf hgeneration),
      .inl ⟨rfl, hlast⟩⟩
  | finish outcome holds pc =>
    cases hhold
    intro hgood
    rcases pc with pc | ⟨-, rfl⟩
    · have hlast := hstands _ holds
      rw [pc] at hlast
      obtain ⟨begun, generation, hkey, hbegun, hgeneration, hlast⟩ := hlast
      exact ⟨begun, generation, hkey, hbegun, hgeneration, .inl ⟨rfl, hlast⟩⟩
    · cases hgood
  | settle | mark =>
    cases hhold
    trivial
  | resume =>
    cases hhold
    exact begin_stands _ _
  | release => cases hhold

/-- A pending entry that `settle` leaves carries the latest request. -/
theorem settleEntry_tagged {latest key : PassKey} {good : Bool} {now : Instant}
    {pending : Option PendingEntry} (h : ∀ entry, pending = some entry → entry.key = latest)
    (entry : PendingEntry) (hentry : settleEntry latest key good now pending = some entry) :
    entry.key = latest := by
  cases pending with
  | none =>
    cases good with
    | true => cases hentry
    | false =>
      cases hentry
      rfl
  | some before =>
    have hbefore := h before rfl
    cases good with
    | true =>
      by_cases hkey : before.key = key
      · simp [settleEntry, hkey] at hentry
      · simp only [settleEntry, if_true, if_neg hkey, Option.some.injEq] at hentry
        rw [← hentry]
        exact hbefore
    | false =>
      cases hentry
      exact hbefore

private theorem orderly_afterRequest (h : Orderly (AfterRequest id) place.log) {entry : Entry}
    (hentry : ¬ entry.begins id) :
    Orderly (AfterRequest id) (entry :: place.log) := by
  refine ⟨?_, h⟩
  rintro begun wall rfl
  exact absurd rfl hentry

theorem Stamped.moves (h : Stamped id place) (hmove : Moves id place place') :
    Stamped id place' where
  numbered := numbered_moves h.numbered hmove
  stands := stands_moves h hmove
  tagged := by
    intro entry hentry
    cases hmove with
    | request generation =>
      obtain ⟨before, -, rfl⟩ := Option.map_eq_some_iff.mp hentry
      rfl
    | settle now holds pc => exact settleEntry_tagged h.tagged entry hentry
    | _ => exact h.tagged entry hentry
  published := by
    cases hmove with
    | quiet entries store foreign le => exact h.published.trans le
    | request generation le =>
      rw [PassKey.request]
      split
      · exact le
      · exact h.published
    | _ => exact h.published
  requested := by
    cases hmove with
    | quiet entries store foreign le => exact h.requested.imp_right (List.mem_append_right entries)
    | request => exact .inr List.mem_cons_self
    | forget | mark => exact h.requested
    | _ => exact h.requested.imp_right (List.mem_cons_of_mem _)
  begins := by
    cases hmove with
    | quiet entries store foreign le =>
      refine h.begins.append fun entry hentry earlier begun wall heq => ?_
      exact absurd (congrArg Entry.subject heq) (foreign entry hentry).1
    | forget | mark => exact h.begins
    | begin wall =>
      refine ⟨?_, h.begins⟩
      rintro begun wall ⟨⟩
      exact h.requested
    | _ => exact orderly_afterRequest h.begins fun h => h

theorem stamped_new (store : Nat) (id : ContainerId) :
    Stamped id ((System.new store).place id) := by
  rw [place_new]
  refine ⟨?_, Nat.zero_le _, rfl, ?_, .inl rfl, trivial⟩
  · intro entry h
    cases h
  · intro _ hold h
    cases h

theorem Stamped.reaches (h : Stamped id place) (hreaches : Reaches id place place') :
    Stamped id place' := by
  induction hreaches with
  | refl => exact h
  | tail _ hmove ih => exact ih.moves hmove

theorem run_stamped (store : Nat) (acts : List Act) (id : ContainerId) :
    Stamped id (((System.new store).run acts).place id) :=
  (stamped_new store id).reaches (run_reaches store acts id)

theorem run_numbered (store : Nat) (acts : List Act) :
    Numbered ((System.new store).run acts).state.latest ((System.new store).run acts).log :=
  (run_stamped store acts "").numbered

theorem FewRequests.front {store : Nat} {acts : List Act} {act : Act}
    (h : FewRequests (((System.new store).run acts).step act).log) :
    FewRequests ((System.new store).run acts).log := by
  rw [System.step] at h
  split at h
  next henabled =>
    have hreaches := (place_step (run_single store acts) henabled "").reaches
    exact FewRequests.earlier h hreaches
  next => exact h

end Moves

end Daemon
end Sda
