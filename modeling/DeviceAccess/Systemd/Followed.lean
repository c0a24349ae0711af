import DeviceAccess.Systemd.Watch

/-!
# Every completed reload is followed by a re-apply

`Coherent` is what the lock protects: the workers whose handle was replaced make no further run, and
`running` is set while the last one does, or is about to be spawned. From it, over every
interleaving:

* a run is only triggered by a completed reload that the owner of systemd's name reports
  (`triggers_iff`);
* at most one run is in progress, and there are never more runs than triggers;
* a trigger is owed a run, or in one that began after it, or followed by a complete one (`Fate`);
* if the threads are scheduled and `on_reload` returns, the run that is owed begins (`owed_begins`).
-/

namespace Sda
namespace Systemd

open Watch

/-! ## One act -/

/-- A worker that makes no further run. -/
def Stage.Done (stage : Stage) : Prop := stage = .leaving ∨ stage = .finished

/-- What the lock protects. -/
structure Coherent (watch : Watch) : Prop where
  older : ∀ stage ∈ watch.older, stage.Done
  /-- A worker is only spawned when the last one makes no further run. -/
  spawning : watch.phase = .spawning →
    watch.flags = ⟨true, false⟩ ∧ ∀ stage ∈ watch.task, stage.Done
  running : watch.phase ≠ .spawning →
    (watch.flags.running = true ↔ ∃ stage ∈ watch.task, ¬ stage.Done)
  pending : watch.flags.pending = true → watch.flags.running = true
  returned : watch.phase = .returned → ∀ stage ∈ watch.task, stage = .finished

/-- What an act can do. -/
inductive Change (watch : Watch) : Act → Watch → Prop
  | owner {signal : Signal} {newOwner : String} (hphase : watch.phase = .looping)
      (hchange : ownerChange signal = some newOwner) :
      Change watch (.receive signal) { watch with owner := newOwner }
  | ignore {signal : Signal} (hphase : watch.phase = .looping) (hchange : ownerChange signal = none)
      (htrigger : triggers (watch, .receive signal) = false) : Change watch (.receive signal) watch
  | absorb {signal : Signal} (hphase : watch.phase = .looping) (hchange : ownerChange signal = none)
      (htrigger : triggers (watch, .receive signal) = true)
      (hrunning : watch.flags.running = true) :
      Change watch (.receive signal) { watch with flags := ⟨true, true⟩ }
  | launch {signal : Signal} (hphase : watch.phase = .looping) (hchange : ownerChange signal = none)
      (htrigger : triggers (watch, .receive signal) = true)
      (hflags : watch.flags = ⟨false, false⟩) :
      Change watch (.receive signal) { watch with flags := ⟨true, false⟩, phase := .spawning }
  | spawn (hphase : watch.phase = .spawning) : Change watch .spawn
      { watch with
        phase := .looping, task := some .queued, older := watch.task.toList ++ watch.older }
  | stop (hphase : watch.phase = .looping) : Change watch .stop { watch with phase := .waiting }
  | returns (hphase : watch.phase = .waiting) (htask : ∀ stage ∈ watch.task, stage = .finished) :
      Change watch .returns { watch with phase := .returned }
  | enter (htask : watch.task = some .queued) :
      Change watch .task { watch with task := some .inRun }
  | exit (htask : watch.task = some .inRun) : Change watch .task { watch with task := some .ended }
  | again (htask : watch.task = some .ended) (hpending : watch.flags.pending = true) :
      Change watch .task
      { watch with task := some .queued, flags := { watch.flags with pending := false } }
  | clear (htask : watch.task = some .ended) (hpending : watch.flags.pending = false) :
      Change watch .task
      { watch with task := some .leaving, flags := { watch.flags with running := false } }
  | leave (htask : watch.task = some .leaving) :
      Change watch .task { watch with task := some .finished }
  | older {index : Nat} (hstage : watch.older[index]? = some .leaving) :
      Change watch (.older index) { watch with older := watch.older.set index .finished }

section Act

variable {watch watch' : Watch} {act : Act}

theorem Coherent.flags_eq (h : Coherent watch) (hrunning : watch.flags.running = false) :
    watch.flags = ⟨false, false⟩ := by
  have hpending : watch.flags.pending = false := by
    cases hp : watch.flags.pending with
    | false => rfl
    | true => rw [h.pending hp] at hrunning; cases hrunning
  rcases hflags : watch.flags with ⟨running, pending⟩
  rw [hflags] at hrunning hpending
  cases hrunning
  cases hpending
  rfl

theorem triggers_receive {signal : Signal} : triggers (watch, .receive signal) =
    ((ownerChange signal).isNone && (fromSystemd signal watch.owner && isReloadCompleted signal)) :=
  Bool.and_assoc ..

theorem change_receive (h : Coherent watch) {signal : Signal} (hphase : watch.phase = .looping) :
    Change watch (.receive signal) (watch.receive signal) := by
  unfold Watch.receive
  cases hchange : ownerChange signal with
  | some newOwner => exact .owner hphase hchange
  | none =>
    have htriggers : triggers (watch, .receive signal) =
        !(!fromSystemd signal watch.owner || !isReloadCompleted signal) := by
      rw [triggers_receive, hchange, ← Bool.not_and, Bool.not_not]
      rfl
    dsimp only
    split
    next hnot => exact .ignore hphase hchange (by rw [htriggers, hnot]; rfl)
    next hnot =>
      have htrigger : triggers (watch, .receive signal) = true := by
        rw [htriggers, Bool.not_eq_true']
        exact Bool.eq_false_iff.mpr hnot
      unfold Watch.trigger
      split
      next hrunning =>
        rw [show (⟨watch.flags.running, true⟩ : Flags) = ⟨true, true⟩ by rw [hrunning]]
        exact .absorb hphase hchange htrigger hrunning
      next hrunning =>
        have hflags := h.flags_eq (Bool.eq_false_iff.mpr hrunning)
        rw [show (⟨true, watch.flags.pending⟩ : Flags) = ⟨true, false⟩ by rw [hflags]]
        exact .launch hphase hchange htrigger hflags

/-- An act does what it can do. -/
theorem Coherent.change (h : Coherent watch) (henabled : watch.Enabled act) :
    Change watch act (watch.step act) := by
  cases act with
  | receive signal => exact change_receive h henabled
  | spawn => exact .spawn henabled
  | stop => exact .stop henabled
  | returns => exact .returns henabled.1 henabled.2
  | task =>
    obtain ⟨stage, hstage, hunfinished⟩ := henabled
    have htask : watch.task = some stage := hstage
    rw [Watch.step, htask]
    dsimp only
    cases stage with
    | queued => exact .enter htask
    | inRun => exact .exit htask
    | ended =>
      rw [Stage.step]
      split
      next hpending => exact .again htask hpending
      next hpending => exact .clear htask (Bool.eq_false_iff.mpr hpending)
    | leaving => exact .leave htask
    | finished => exact absurd rfl hunfinished
  | older index =>
    obtain ⟨stage, hstage, hunfinished⟩ := henabled
    rw [Watch.step, hstage]
    dsimp only
    rcases h.older stage (List.mem_of_getElem? hstage) with rfl | rfl
    · exact .older hstage
    · exact absurd rfl hunfinished

/-- While the last worker works, the watcher is neither about to spawn one nor gone. -/
theorem Coherent.working (h : Coherent watch) {stage : Stage} (htask : watch.task = some stage)
    (hworks : ¬ stage.Done) : watch.phase ≠ .spawning ∧ watch.phase ≠ .returned ∧
    watch.flags.running = true := by
  have hspawning : watch.phase ≠ .spawning :=
    fun hphase => hworks ((h.spawning hphase).2 stage htask)
  refine ⟨hspawning, fun hphase => hworks (.inr (h.returned hphase stage htask)), ?_⟩
  exact (h.running hspawning).mpr ⟨stage, htask, hworks⟩

/-- A step of a worker that works. -/
theorem Coherent.work (h : Coherent watch) {stage next : Stage} {flags : Flags}
    (htask : watch.task = some stage) (hworks : ¬ stage.Done)
    (hrunning : flags.running = true ↔ ¬ next.Done)
    (hpending : flags.pending = true → flags.running = true) :
    Coherent { watch with task := some next, flags := flags } := by
  obtain ⟨hspawning, hreturned, -⟩ := h.working htask hworks
  refine ⟨h.older, fun hphase => absurd hphase hspawning, fun _ => ?_, hpending, fun hphase =>
    absurd hphase hreturned⟩
  rw [hrunning]
  exact ⟨fun hnot => ⟨next, rfl, hnot⟩, fun ⟨_, hstage, hnot⟩ => Option.some.inj hstage ▸ hnot⟩

theorem Coherent.next (h : Coherent watch) (hchange : Change watch act watch') :
    Coherent watch' := by
  cases hchange with
  | owner hphase hchange => exact ⟨h.older, h.spawning, h.running, h.pending, h.returned⟩
  | ignore => exact h
  | absorb hphase hchange htrigger hrunning =>
    refine ⟨h.older, fun hspawning => ?_, fun hnot => ?_, fun _ => rfl, h.returned⟩
    · rw [hphase] at hspawning
      cases hspawning
    · exact iff_of_true rfl ((h.running hnot).mp hrunning)
  | launch hphase hchange htrigger hflags =>
    refine ⟨h.older, fun _ => ⟨rfl, fun stage hstage => ?_⟩, fun hnot => absurd rfl hnot,
      nofun, nofun⟩
    by_contra hdone
    have hrunning := (h.running (by rw [hphase]; nofun)).mpr ⟨stage, hstage, hdone⟩
    rw [hflags] at hrunning
    cases hrunning
  | spawn hphase =>
    obtain ⟨hflags, hdone⟩ := h.spawning hphase
    refine ⟨fun stage hstage => ?_, nofun, fun _ => ?_, h.pending, nofun⟩
    · rcases List.mem_append.mp hstage with hstage | hstage
      · exact hdone stage (Option.mem_toList.mp hstage)
      · exact h.older stage hstage
    · exact iff_of_true (by rw [hflags]) ⟨.queued, rfl, nofun⟩
  | stop hphase =>
    exact ⟨h.older, nofun, fun _ => h.running (by rw [hphase]; nofun), h.pending, nofun⟩
  | returns hphase htask =>
    exact ⟨h.older, nofun, fun _ => h.running (by rw [hphase]; nofun), h.pending, fun _ => htask⟩
  | enter htask =>
    exact h.work htask nofun (iff_of_true (h.working htask nofun).2.2 nofun) h.pending
  | exit htask =>
    exact h.work htask nofun (iff_of_true (h.working htask nofun).2.2 nofun) h.pending
  | again htask hpending =>
    exact h.work htask nofun (iff_of_true (h.working htask nofun).2.2 nofun) nofun
  | clear htask hpending =>
    refine h.work htask nofun (iff_of_false nofun fun hnot => hnot (.inl rfl)) fun hp => ?_
    rw [hpending] at hp
    cases hp
  | leave htask =>
    refine ⟨h.older, fun hphase => ⟨(h.spawning hphase).1, fun _ hstage => ?_⟩, fun hphase =>
      ?_, h.pending, fun _ _ hstage => (Option.some.inj hstage).symm⟩
    · exact .inr (Option.some.inj hstage).symm
    · rw [h.running hphase]
      refine iff_of_false ?_ ?_
      · rintro ⟨stage, hstage, hnot⟩
        rw [htask] at hstage
        exact hnot (.inl (Option.some.inj hstage).symm)
      · rintro ⟨stage, hstage, hnot⟩
        exact hnot (.inr (Option.some.inj hstage).symm)
  | older hstage =>
    refine ⟨fun stage hmem => ?_, h.spawning, h.running, h.pending, h.returned⟩
    rcases List.mem_or_eq_of_mem_set hmem with hmem | rfl
    · exact h.older stage hmem
    · exact .inr rfl

end Act

/-! ## Runs and triggers -/

section Moments

variable {watch watch' : Watch} {act : Act} {stage : Stage}

theorem begins_task (htask : watch.task = some stage) :
    begins (watch, .task) = (stage == .queued) := by
  rw [begins, worker, htask]
  cases stage <;> rfl

private theorem ends_task (htask : watch.task = some stage) :
    ends (watch, .task) = (stage == .inRun) := by
  rw [ends, worker, htask]
  cases stage <;> rfl

theorem begins_older {index : Nat} (hstage : watch.older[index]? = some stage) :
    begins (watch, .older index) = (stage == .queued) := by
  rw [begins, worker]
  dsimp only
  rw [hstage]
  cases stage <;> rfl

/-- A run for the last trigger is still to begin. -/
def Watch.Owed (watch : Watch) : Prop :=
  watch.phase = .spawning ∨ watch.task = some .queued ∨
    watch.flags.pending = true ∧ (watch.task = some .inRun ∨ watch.task = some .ended)

/-- How many acts the run that is owed still takes. -/
def Watch.rank (watch : Watch) : Nat :=
  if watch.phase = .spawning then 2
  else
    match watch.task with
    | some .inRun => 3
    | some .ended => 2
    | _ => 1

/-- The act that brings it nearer. -/
def Watch.helper (watch : Watch) : Act := if watch.phase = .spawning then .spawn else .task

/-- What the owed run needs is as it was. -/
theorem Watch.Owed.still (howed : watch.Owed) (hact : act ≠ watch.helper)
    (hphase : watch'.phase = .spawning ↔ watch.phase = .spawning) (htask : watch'.task = watch.task)
    (hpending : watch.flags.pending = true → watch'.flags.pending = true) :
    watch'.Owed ∧ (watch'.rank < watch.rank ∨
      act ≠ watch.helper ∧ watch'.rank = watch.rank ∧ watch'.helper = watch.helper) := by
  refine ⟨?_, .inr ⟨hact, ?_, ?_⟩⟩
  · rcases howed with h | h | ⟨h, hstage⟩
    · exact .inl (hphase.mpr h)
    · exact .inr (.inl (htask ▸ h))
    · exact .inr (.inr ⟨hpending h, htask ▸ hstage⟩)
  · unfold Watch.rank
    rw [htask]
    simp only [hphase]
  · unfold Watch.helper
    simp only [hphase]

theorem Watch.helper_spawning (hphase : watch.phase = .spawning) : watch.helper = .spawn :=
  if_pos hphase

theorem Watch.ne_helper (hspawn : act ≠ .spawn) (htask : act ≠ .task) : act ≠ watch.helper := by
  unfold Watch.helper
  split
  · exact hspawn
  · exact htask

theorem Watch.Owed.working (howed : watch.Owed) (hphase : watch.phase ≠ .spawning) :
    ∃ stage ∈ watch.task, ¬ stage.Done := by
  rcases howed with hspawning | htask | ⟨-, htask | htask⟩
  · exact absurd hspawning hphase
  · exact ⟨_, htask, nofun⟩
  · exact ⟨_, htask, nofun⟩
  · exact ⟨_, htask, nofun⟩

/-- The owed run begins, or comes nearer when its helper acts, and gets no further away otherwise.
-/
theorem Coherent.owed (h : Coherent watch) (howed : watch.Owed)
    (hchange : Change watch act watch') :
    begins (watch, act) = true ∨ watch'.Owed ∧ (watch'.rank < watch.rank ∨
      act ≠ watch.helper ∧ watch'.rank = watch.rank ∧ watch'.helper = watch.helper) := by
  cases hchange with
  | owner => exact .inr (howed.still (ne_helper nofun nofun) Iff.rfl rfl id)
  | ignore => exact .inr (howed.still (ne_helper nofun nofun) Iff.rfl rfl id)
  | absorb => exact .inr (howed.still (ne_helper nofun nofun) Iff.rfl rfl fun _ => rfl)
  | launch hphase hchange htrigger hflags =>
    have hworks := (h.running (by rw [hphase]; nofun)).mpr (howed.working (by rw [hphase]; nofun))
    rw [hflags] at hworks
    cases hworks
  | spawn hphase =>
    refine .inr ⟨.inr (.inl rfl), .inl ?_⟩
    rw [show watch.rank = 2 from if_pos hphase]
    exact Nat.lt_succ_self 1
  | stop hphase =>
    exact .inr (howed.still (ne_helper nofun nofun) (by rw [hphase]; exact ⟨nofun, nofun⟩) rfl id)
  | returns hphase htask =>
    obtain ⟨stage, hstage, hworks⟩ := howed.working (by rw [hphase]; nofun)
    exact absurd (.inr (htask stage hstage)) hworks
  | enter htask => exact .inl (begins_task htask)
  | exit htask =>
    have hphase := (h.working htask nofun).1
    have hpending : watch.flags.pending = true := by
      rcases howed with hspawning | hqueued | ⟨hpending, -⟩
      · exact absurd hspawning hphase
      · rw [htask] at hqueued
        cases hqueued
      · exact hpending
    refine .inr ⟨.inr (.inr ⟨hpending, .inr rfl⟩), .inl ?_⟩
    simp [Watch.rank, hphase, htask]
  | again htask hpending =>
    have hphase := (h.working htask nofun).1
    refine .inr ⟨.inr (.inl rfl), .inl ?_⟩
    simp [Watch.rank, hphase, htask]
  | clear htask hpending =>
    rcases howed with hspawning | hqueued | ⟨howed, -⟩
    · exact absurd hspawning (h.working htask nofun).1
    · rw [htask] at hqueued
      cases hqueued
    · rw [hpending] at howed
      cases howed
  | leave htask =>
    -- The worker that leaves is not the one that is spawned.
    have hphase : watch.phase = .spawning := by
      by_contra hphase
      obtain ⟨stage, hstage, hworks⟩ := howed.working hphase
      rw [htask] at hstage
      exact hworks (.inl (Option.some.inj hstage).symm)
    refine .inr ⟨.inl hphase, .inr ⟨?_, ?_, ?_⟩⟩
    · rw [helper_spawning hphase]
      nofun
    · simp [Watch.rank, hphase]
    · simp [Watch.helper, hphase]
  | older => exact .inr (howed.still (ne_helper nofun nofun) Iff.rfl rfl id)

/-- A trigger is owed a run. -/
theorem Coherent.triggered (h : Coherent watch) (htrigger : triggers (watch, act) = true)
    (hchange : Change watch act watch') : watch'.Owed := by
  cases hchange with
  | owner hphase hchange => simp [triggers, hchange] at htrigger
  | ignore hphase hchange hnot =>
    rw [hnot] at htrigger
    cases htrigger
  | absorb hphase hchange htrigger hrunning =>
    obtain ⟨stage, hstage, hworks⟩ := (h.running (by rw [hphase]; nofun)).mp hrunning
    have htask : watch.task = some stage := hstage
    cases stage with
    | queued => exact .inr (.inl htask)
    | inRun => exact .inr (.inr ⟨rfl, .inl htask⟩)
    | ended => exact .inr (.inr ⟨rfl, .inr htask⟩)
    | leaving => exact absurd (.inl rfl) hworks
    | finished => exact absurd (.inr rfl) hworks
  | launch => exact .inl rfl
  | _ => cases htrigger

/-- The run that begins is in progress. -/
theorem Change.inRun (hchange : Change watch act watch') (hbegins : begins (watch, act) = true) :
    watch'.task = some .inRun := by
  cases hchange with
  | enter => rfl
  | exit htask | again htask | clear htask | leave htask =>
    rw [begins_task htask] at hbegins
    cases hbegins
  | older hstage =>
    rw [begins_older hstage] at hbegins
    cases hbegins
  | _ => cases hbegins

/-- A run goes on until it ends. -/
theorem Coherent.inRun (h : Coherent watch) (htask : watch.task = some .inRun)
    (hchange : Change watch act watch') :
    ends (watch, act) = true ∨ begins (watch, act) = false ∧ watch'.task = some .inRun := by
  cases hchange with
  | spawn hphase => exact absurd hphase (h.working htask nofun).1
  | exit => exact .inl (ends_task htask)
  | older hstage => exact .inr ⟨begins_older hstage, htask⟩
  | enter hstage | again hstage | clear hstage | leave hstage =>
    rw [htask] at hstage
    cases hstage
  | _ => exact .inr ⟨rfl, htask⟩

/-! ## At most one run, and no more runs than triggers -/

/-- Only the last worker can be in a run. -/
theorem Coherent.inProgress_eq (h : Coherent watch) :
    watch.inProgress = watch.task.toList.count .inRun := by
  have hnone : watch.older.count .inRun = 0 := by
    refine List.count_eq_zero.mpr fun hmem => ?_
    rcases h.older _ hmem with hstage | hstage <;> cases hstage
  rw [inProgress, List.count_append, hnone, Nat.add_zero]

theorem Coherent.inProgress_le (h : Coherent watch) : watch.inProgress ≤ 1 := by
  rw [h.inProgress_eq]
  cases watch.task with
  | none => exact Nat.zero_le 1
  | some stage => exact List.count_le_length

/-- The runs that are owed: one for a worker to be spawned, one for a worker that has not begun, one
that is pending. -/
def Watch.debt (watch : Watch) : Nat :=
  (if watch.phase = .spawning then 1 else 0) + (if watch.task = some .queued then 1 else 0) +
    watch.flags.pending.toNat

/-- A run that begins was owed, and only a trigger adds to what is owed. -/
theorem Change.debt (hchange : Change watch act watch') :
    (begins (watch, act)).toNat + watch'.debt ≤ watch.debt + (triggers (watch, act)).toNat := by
  have hrest (hbegins : begins (watch, act) = false)
      (hdebt : watch'.debt ≤ watch.debt + (triggers (watch, act)).toNat) :
      (begins (watch, act)).toNat + watch'.debt ≤ watch.debt + (triggers (watch, act)).toNat := by
    rw [hbegins]
    simpa using hdebt
  cases hchange with
  | owner | ignore => exact hrest rfl (Nat.le_add_right _ _)
  | absorb hphase hchange htrigger hrunning =>
    refine hrest rfl ?_
    rw [htrigger, Watch.debt, Watch.debt]
    simp only [Bool.toNat_true]
    omega
  | launch hphase hchange htrigger hflags =>
    refine hrest rfl ?_
    simp [Watch.debt, htrigger, hflags, hphase, Nat.add_comm]
  | spawn hphase =>
    refine hrest rfl (Nat.le_add_right_of_le ?_)
    simp [Watch.debt, hphase, Nat.add_comm]
  | stop hphase | returns hphase =>
    refine hrest rfl (Nat.le_add_right_of_le ?_)
    simp [Watch.debt, hphase]
  | enter htask =>
    rw [begins_task htask]
    simp [Watch.debt, htask]
    omega
  | exit htask | leave htask =>
    refine hrest (begins_task htask) (Nat.le_add_right_of_le ?_)
    simp [Watch.debt, htask]
  | again htask hpending | clear htask hpending =>
    refine hrest (begins_task htask) (Nat.le_add_right_of_le ?_)
    simp [Watch.debt, htask, hpending]
  | older hstage => exact hrest (begins_older hstage) (Nat.le_add_right _ _)

end Moments

/-! ## Who owns systemd's name -/

section Owner

variable {signal : Signal} {owner owner' newOwner initial : String} {signals : List Signal}

theorem ownerChange_eq_some_iff : ownerChange signal = some newOwner ↔
    OwnerChanged signal newOwner := by
  unfold ownerChange OwnerChanged
  constructor
  · intro h
    split at h
    next => cases h
    next hsource =>
      push Not at hsource
      obtain ⟨hname, hsender, hpath⟩ := hsource
      refine ⟨hname, hsender, hpath, ?_⟩
      split at h
      next name oldOwner _ hbody =>
        split at h
        next hsystemd =>
          cases h
          exact ⟨oldOwner, hsystemd ▸ hbody⟩
        next => cases h
      next => cases h
  · rintro ⟨hname, hsender, hpath, oldOwner, hbody⟩
    rw [if_neg (by simp [hname, hsender, hpath]), hbody]
    exact if_pos rfl

theorem ownerChange_eq_none_iff :
    ownerChange signal = none ↔ ∀ newOwner, ¬ OwnerChanged signal newOwner := by
  rw [Option.eq_none_iff_forall_ne_some]
  exact forall_congr' fun newOwner => not_congr ownerChange_eq_some_iff

theorem Owns.unique (h : Owns initial signals owner) (h' : Owns initial signals owner') :
    owner = owner' := by
  induction h with
  | initially =>
    cases h'
    rfl
  | changed hchange =>
    cases h' with
    | changed hchange' =>
      rw [← ownerChange_eq_some_iff] at hchange hchange'
      exact Option.some.inj (hchange.symm.trans hchange')
    | kept hkept => exact absurd hchange (hkept _)
  | kept hkept _ ih =>
    cases h' with
    | changed hchange => exact absurd hchange (hkept _)
    | kept _ hearlier => exact ih hearlier

/-- A signal that completes a reload changes no owner. -/
theorem CompletedReload.ownerChange (h : CompletedReload owner signal) :
    ownerChange signal = none := by
  refine ownerChange_eq_none_iff.mpr fun newOwner hchange => ?_
  have hname := h.name.symm.trans hchange.1
  revert hname
  decide

theorem completedReload_iff :
    (fromSystemd signal owner && isReloadCompleted signal) = true ↔
    CompletedReload owner signal := by
  simp only [fromSystemd, isReloadCompleted, Bool.and_eq_true, Bool.not_eq_true',
    String.isEmpty_eq_false_iff, beq_iff_eq]
  exact ⟨fun ⟨⟨⟨howned, hsender⟩, hpath⟩, hname, hargument⟩ =>
    ⟨hname, hargument, hpath, hsender, howned⟩,
    fun h => ⟨⟨⟨h.owned, h.sender⟩, h.path⟩, h.name, h.argument⟩⟩

theorem triggers_receive_iff {watch : Watch} :
    triggers (watch, .receive signal) = true ↔ CompletedReload watch.owner signal := by
  rw [triggers_receive, Bool.and_eq_true, completedReload_iff, Option.isNone_iff_eq_none]
  exact ⟨And.right, fun h => ⟨h.ownerChange, h⟩⟩

theorem receive_of_triggers {watch : Watch} (h : triggers (watch, .receive signal) = true) :
    watch.receive signal = watch.trigger := by
  have hreload := triggers_receive_iff.mp h
  rw [Watch.receive, hreload.ownerChange]
  refine if_neg ?_
  rw [← Bool.not_and, completedReload_iff.mpr hreload]
  nofun

/-- A signal that triggers no run changes the owner at most. -/
theorem receive_of_not_triggers {watch : Watch} (h : triggers (watch, .receive signal) = false) :
    watch.receive signal = { watch with owner := (ownerChange signal).getD watch.owner } := by
  rw [Watch.receive]
  cases hchange : ownerChange signal with
  | some newOwner => rfl
  | none =>
    rw [triggers_receive, hchange] at h
    refine if_pos ?_
    rw [← Bool.not_and, Bool.not_eq_true']
    exact h

theorem receive_owner {watch : Watch} :
    (watch.receive signal).owner = (ownerChange signal).getD watch.owner := by
  rw [Watch.receive]
  cases ownerChange signal with
  | some newOwner => rfl
  | none =>
    dsimp only
    split
    · rfl
    · rw [Watch.trigger]
      split <;> rfl

end Owner

/-! ## Whole runs -/

section Runs

variable {initial : String} {watch watch' state : Watch} {act : Act}
  {past later earlier : List (Watch × Act)}

theorem coherent_start : Coherent (Watch.start initial) :=
  ⟨nofun, nofun, fun _ => iff_of_false nofun (fun ⟨_, hstage, _⟩ => (nomatch hstage)), nofun, nofun⟩

theorem coherent_step (h : Coherent watch) (henabled : watch.Enabled act) :
    Coherent (watch.step act) :=
  h.next (h.change henabled)

theorem run_coherent (run : Run Watch.step Watch.Enabled (Watch.start initial) past watch) :
    Coherent watch :=
  (run.invariant Coherent (fun _ _ => coherent_step) coherent_start).1

/-- The watcher knows the owner. -/
theorem run_owns (run : Run Watch.step Watch.Enabled (Watch.start initial) past watch) :
    Owns initial (received past) watch.owner := by
  induction run with
  | nil => exact .initially
  | @cons state past act _ _ ih =>
    cases act with
    | receive signal =>
      change Owns initial (signal :: received past) (state.receive signal).owner
      rw [receive_owner]
      cases hchange : ownerChange signal with
      | some newOwner => exact .changed (ownerChange_eq_some_iff.mp hchange)
      | none => exact .kept (ownerChange_eq_none_iff.mp hchange) ih
    | task =>
      rw [Watch.step]
      split <;> exact ih
    | older index =>
      rw [Watch.step]
      split <;> exact ih
    | _ => exact ih

theorem triggers_iff
    (run : Run Watch.step Watch.Enabled (Watch.start initial)
      (later ++ (state, act) :: earlier) watch) :
    triggers (state, act) = true ↔
      ∃ signal owner, act = .receive signal ∧ Owns initial (received earlier) owner ∧
      CompletedReload owner signal := by
  have howns := run_owns run.upTo
  constructor
  · intro h
    cases act with
    | receive signal => exact ⟨signal, state.owner, rfl, howns, triggers_receive_iff.mp h⟩
    | _ => cases h
  · rintro ⟨signal, owner, rfl, howner, h⟩
    rw [triggers_receive_iff, howns.unique howner]
    exact h

theorem runs_le_triggers (run : Run Watch.step Watch.Enabled (Watch.start initial) past watch) :
    past.countP begins + watch.debt ≤ past.countP triggers := by
  induction run with
  | nil => exact Nat.le_refl 0
  | cons run henabled ih =>
    have hdebt := ((run_coherent run).change henabled).debt
    have hcount (b : Bool) : (if b = true then 1 else 0) = b.toNat := by cases b <;> rfl
    rw [List.countP_cons, List.countP_cons, hcount, hcount]
    omega

/-- What became of a trigger, by what happened after it. -/
inductive Fate (watch : Watch) (later : List (Watch × Act)) : Prop
  | owed (h : watch.Owed)
  /-- A run began after it and is in progress. -/
  | begun {during before : List (Watch × Act)} {start : Watch × Act}
    (hlater : later = during ++ start :: before)
    (hbegins : begins start = true) (hduring : ∀ moment ∈ during, begins moment = false)
    (htask : watch.task = some .inRun)
  | complete (h : CompleteRun later)

theorem Fate.next (h : Coherent watch) (hfate : Fate watch later)
    (hchange : Change watch act watch') :
    Fate watch' ((watch, act) :: later) := by
  cases hfate with
  | owed howed =>
    rcases h.owed howed hchange with hbegins | ⟨howed', -⟩
    · exact .begun (List.nil_append _).symm hbegins nofun (hchange.inRun hbegins)
    · exact .owed howed'
  | @begun during before start hlater hbegins hduring htask =>
    subst hlater
    rcases h.inRun htask hchange with hends | ⟨hnot, htask'⟩
    · exact .complete ⟨[], (watch, act), during, start, before, rfl, hbegins, hends, hduring⟩
    · exact .begun (List.cons_append ..).symm hbegins
        (List.forall_mem_cons.mpr ⟨hnot, hduring⟩) htask'
  | complete hrun =>
    obtain ⟨after, stop, during, start, before, rfl, hrest⟩ := hrun
    exact .complete ⟨(watch, act) :: after, stop, during, start, before, rfl, hrest⟩

theorem run_fate (run : Run Watch.step Watch.Enabled (Watch.start initial) past watch)
    (hpast : past = later ++ (state, act) :: earlier) (htrigger : triggers (state, act) = true) :
    Fate watch later := by
  induction run generalizing later with
  | nil => cases later <;> cases hpast
  | cons run henabled ih =>
    have hcoherent := run_coherent run
    have hchange := hcoherent.change henabled
    cases later with
    | nil =>
      cases hpast
      exact .owed (hcoherent.triggered htrigger hchange)
    | cons last later =>
      cases hpast
      exact (ih rfl).next hcoherent hchange

/-- When the watcher has returned, no run is owed or in progress. -/
theorem Coherent.idle (h : Coherent watch) (hphase : watch.phase = .returned) :
    ¬ watch.Owed ∧ watch.task ≠ some .inRun ∧ watch.inProgress = 0 := by
  have hfinished := h.returned hphase
  have hnot : watch.task ≠ some .inRun := fun htask => nomatch hfinished _ htask
  refine ⟨fun howed => ?_, hnot, ?_⟩
  · obtain ⟨stage, hstage, hworks⟩ := howed.working (by rw [hphase]; nofun)
    exact hworks (.inr (hfinished stage hstage))
  · rw [h.inProgress_eq, List.count_eq_zero, Option.mem_toList]
    exact hnot

end Runs

/-! ## Fair executions -/

section Executions

variable {initial : String} {exec : Execution Watch.step Watch.Enabled (Watch.start initial)}

theorem exec_coherent (n : Nat) : Coherent (exec.state n) := by
  induction n with
  | zero =>
    rw [exec.first]
    exact coherent_start
  | succ n ih =>
    rcases exec.next n with ⟨-, hsame⟩ | ⟨act, -, henabled, hnext⟩
    · rw [hsame]
      exact ih
    · rw [hnext]
      exact coherent_step ih henabled

theorem Watch.Owed.enabled {watch : Watch} (howed : watch.Owed) : watch.Enabled watch.helper := by
  unfold Watch.helper
  split
  next hphase => exact hphase
  next hphase =>
    obtain ⟨stage, hstage, hworks⟩ := howed.working hphase
    exact ⟨stage, hstage, fun hfinished => hworks (.inr hfinished)⟩

/-- If the threads are scheduled and `on_reload` returns, the run that is owed begins. -/
theorem owed_begins (hspawn : exec.WeaklyFair .spawn) (htask : exec.WeaklyFair .task) {n : Nat}
    (howed : (exec.state n).Owed) :
    ∃ m, n ≤ m ∧ exec.Meets (fun watch act => begins (watch, act) = true) m := by
  refine Execution.leadsTo (fun watch => Coherent watch ∧ watch.Owed) Watch.rank
    Watch.helper ?_ ?_ ?_
    ⟨exec_coherent n, howed⟩
  · rintro watch act ⟨hcoherent, howed⟩ henabled
    have hchange := hcoherent.change henabled
    refine (hcoherent.owed howed hchange).imp_right fun ⟨howed', hrank⟩ => ?_
    exact ⟨⟨hcoherent.next hchange, howed'⟩, hrank⟩
  · exact fun watch hwaiting => hwaiting.2.enabled
  · intro watch _
    unfold Watch.helper
    split
    · exact hspawn
    · exact htask

/-- **Every completed reload is followed by a re-apply.** Over every interleaving of the watcher
with the runs of `on_reload`: a run is triggered by a completed reload that the owner of systemd's
name reports, and by nothing else; at most one run is in progress; there are no more runs than
triggers; when the watcher has returned, no run is in progress and every trigger was followed by a
complete run. If the threads are scheduled and `on_reload` returns, a run begins after every
trigger. -/
theorem reloads_followed (initial : String) :
    (∀ past watch, Run Watch.step Watch.Enabled (Watch.start initial) past watch →
      (∀ later state act earlier, past = later ++ (state, act) :: earlier →
        (triggers (state, act) = true ↔ ∃ signal owner, act = .receive signal ∧
          Owns initial (received earlier) owner ∧ CompletedReload owner signal) ∧
        (triggers (state, act) = true → state.step act = state.trigger) ∧
        ∀ signal, act = .receive signal → triggers (state, act) = false →
          state.step act = { state with owner := (state.step act).owner }) ∧
      watch.inProgress ≤ 1 ∧
      past.countP begins ≤ past.countP triggers ∧
      (watch.phase = .returned → watch.inProgress = 0 ∧
        ∀ later trigger earlier, past = later ++ trigger :: earlier → triggers trigger = true →
          CompleteRun later)) ∧
    ∀ exec : Execution Watch.step Watch.Enabled (Watch.start initial),
      exec.WeaklyFair .spawn → exec.WeaklyFair .task →
      ∀ n, exec.Meets (fun watch act => triggers (watch, act) = true) n →
        ∃ m, n < m ∧ exec.Meets (fun watch act => begins (watch, act) = true) m := by
  refine ⟨fun past watch run => ⟨?_, ?_, ?_, ?_⟩, ?_⟩
  · rintro later state act earlier rfl
    refine ⟨triggers_iff run, fun htrigger => ?_, ?_⟩
    · obtain ⟨signal, -, rfl, -⟩ := (triggers_iff run).mp htrigger
      exact receive_of_triggers htrigger
    · rintro signal rfl hnot
      rw [Watch.step, receive_owner]
      exact receive_of_not_triggers hnot
  · exact (run_coherent run).inProgress_le
  · exact Nat.le_of_add_right_le (runs_le_triggers run)
  · intro hphase
    obtain ⟨howes, hrun, hprogress⟩ := (run_coherent run).idle hphase
    refine ⟨hprogress, ?_⟩
    rintro later ⟨state, act⟩ earlier hpast htrigger
    cases run_fate run hpast htrigger with
    | owed howed => exact absurd howed howes
    | begun _ _ _ htask => exact absurd htask hrun
    | complete hcomplete => exact hcomplete
  · rintro exec hspawn htask n ⟨act, hact, htrigger⟩
    rcases exec.next n with ⟨hnone, -⟩ | ⟨act', hact', henabled, hnext⟩
    · rw [hact] at hnone
      cases hnone
    · obtain rfl : act = act' := Option.some.inj (hact.symm.trans hact')
      have hcoherent : Coherent (exec.state n) := exec_coherent n
      have howed : (exec.state (n + 1)).Owed := by
        rw [hnext]
        exact hcoherent.triggered htrigger (hcoherent.change henabled)
      exact owed_begins hspawn htask howed

end Executions

end Systemd
end Sda
