import DeviceAccess.V2.Runs

/-!
# Passes that fail early

A pass makes its first change to a cgroup when everything it needs is planned and loaded. Whatever
fails before that, the attached programs are those the pass found: a failure while it looks or plans
(`Stopped`) leaves the cache as it was too, and a failing load leaves the lineages of the plan in
it.

The failures of a step, and only they, are `Error.change`; the theorem is about all others.
-/

namespace Sda
namespace V2

open Asm Sda.Filter Handover

variable {sha256 : Bytes → Vector Byte 32} {env : Env} {w w' : World sha256}

/-- The kernel calls that change which programs are attached. -/
def Event.edits : Event → Bool
  | .attach _ | .replace _ _ | .detach _ => true
  | _ => false

theorem Event.edits_of_reads {event : Event} (h : event.reads = true) : event.edits = false := by
  cases event with
  | query => rfl
  | instructions prog => rfl
  | _ => cases h

/-- A step of the plan failed. -/
def InStep (e : Error) : Prop := ∃ step steps source, e = .change step steps source

/-- The calls of loading. -/
def Point.Loads (attached : List Prog) (point : Point sha256) : Prop :=
  (∃ name, point.event = .load name) ∧ point.attached = attached

theorem Called.loads {name : String} (h : Called (.load name) w w')
    (hnow : w'.kernel.attached = w.kernel.attached) : Logged (Point.Loads w.kernel.attached) w w' :=
  .of_point h.log ⟨⟨name, rfl⟩, hnow⟩

/-- Loading makes no other call, and does not fail without one. -/
theorem loadAll_log {loads : List (Bytes × String)} {r : Except Error (List Prog)}
    (hc : env.CalmFrom w.calls) (hloads : ∀ load ∈ loads, CanonicalProgram load.1)
    (h : loadAll env loads w = (r, w')) :
    Logged (Point.Loads w.kernel.attached) w w' ∧ (w'.log = w.log → ∃ progs, r = .ok progs) := by
  induction loads generalizing w r with
  | nil =>
    cases h
    exact ⟨.refl _ _, fun _ => ⟨_, rfl⟩⟩
  | cons load loads ih =>
    have hraw := hloads load List.mem_cons_self
    rw [loadAll] at h
    rcases Action.bind_inv h with ⟨e, hone, rfl⟩ | ⟨prog, w₁, hone, h⟩
    · obtain ⟨hcalled, hnow, -⟩ := loadCanonical_inv (hc _ (Nat.le_refl _)) hraw hone
      refine ⟨hcalled.loads hnow, fun hlog => ?_⟩
      rw [hcalled.log] at hlog
      simp at hlog
    · obtain ⟨hcalled, hnow, -⟩ := loadCanonical_inv (hc _ (Nat.le_refl _)) hraw hone
      have hcalm : env.CalmFrom w₁.calls := hc.mono (by rw [hcalled.calls]; omega)
      have hmore := fun load hm => hloads load (List.mem_cons_of_mem _ hm)
      have hrest : Logged (Point.Loads w₁.kernel.attached) w₁ w' := by
        rcases Action.bind_inv h with ⟨e, hrest, rfl⟩ | ⟨progs, w₂, hrest, hend⟩
        · exact (ih hcalm hmore hrest).1
        · cases hend
          exact (ih hcalm hmore hrest).1
      rw [hnow] at hrest
      refine ⟨(hcalled.loads hnow).trans hrest, fun hlog => ?_⟩
      obtain ⟨points, hlog', -⟩ := hrest
      rw [hlog', hcalled.log] at hlog
      simp at hlog

/-- Once everything is loaded, only a step can fail. -/
theorem executeFrom_error {attached loaded : List Prog} {steps index : Nat} {plan : List Step}
    {todo : List (Edit Prog)} {e : Error}
    (hplan : List.Forall₂ (fun step e => step.edit attached loaded = some e) plan todo)
    (h : executeFrom env attached loaded steps index plan w = (.error e, w')) : InStep e := by
  induction hplan generalizing w index with
  | nil => cases h
  | cons hstep _ ih =>
    rw [executeFrom] at h
    simp only [hstep] at h
    rcases Action.bind_inv h with ⟨err, hstop, heq⟩ | ⟨u, w₁, -, h⟩
    · cases heq
      obtain ⟨cause, -, rfl⟩ := Action.mapErr_error_inv hstop
      exact ⟨_, _, _, rfl⟩
    · exact ih h

/-- What a failing load leaves. -/
theorem execute_unloaded {blocks : List (Block sha256)} {e : Error}
    (hs : Sound blocks w.kernel.attached.length) (hc : env.CalmFrom w.calls) (he : ¬ InStep e)
    (h : execute env w.kernel.attached (planOf blocks) w = (.error e, w')) :
    Logged (Point.Loads w.kernel.attached) w w' ∧ w'.log ≠ w.log ∧
      w'.kernel.attached = w.kernel.attached := by
  rw [execute, planOf_zip] at h
  rcases Action.bind_inv h with ⟨err, hload, -⟩ | ⟨loaded, w₁, hload, h⟩
  · obtain ⟨-, hnow, -⟩ := loadAll_inv hc hs.canonical hload
    obtain ⟨hlog, hcall⟩ := loadAll_log hc hs.canonical hload
    refine ⟨hlog, fun hsame => ?_, hnow⟩
    obtain ⟨progs, hok⟩ := hcall hsame
    cases hok
  · obtain ⟨-, -, -, ⟨hok, -⟩ | ⟨e', hno, -⟩⟩ := loadAll_inv hc hs.canonical hload
    · cases hok
      exact absurd (executeFrom_error (hs.steps w.kernel.nextId) h) he
    · cases hno

/-- A pass that commits and fails, but not in a step, has failed in a load. -/
theorem Commits.unloaded {id : Identity} {rules : List DeviceRule} {e : Error}
    {progs : List (AttachedProg sha256)} {blocks : List (Block sha256)} {w₁ : World sha256}
    (hc : env.CalmFrom w.calls) (he : ¬ InStep e)
    (h : Commits env id rules (.error e) w w' progs blocks w₁) :
    ∃ points, w'.log = w.log ++ points ∧
      (∀ point ∈ points, point.event.edits = false ∧ point.attached = w.kernel.attached) ∧
      (∃ point ∈ points, ∃ name, point.event = .load name) ∧
      w'.kernel.attached = w.kernel.attached := by
  have hk := h.looked.kernel
  have hrun := h.run
  rw [commit, Action.bind_of_ok (show remember id _ _ w₁ = (.ok (), w₁.record id _ .commit)
    from rfl)] at hrun
  generalize hw₂ : w₁.record id ⟨(planOf blocks).lineages, (planEntry w id).rebuilding⟩ .commit = w₂
    at hrun
  have hcalls : w₂.calls = w₁.calls := by rw [← hw₂]; rfl
  have hsame : w₂.kernel = w.kernel := by rw [← hw₂]; exact hk
  have hlog :
      w₂.log = w₁.log ++ [⟨.commit, w.kernel.attached, w₂.cache⟩] := by rw [← hk, ← hw₂]; rfl
  have hexec : execute env w₂.kernel.attached (planOf blocks) w₂ = (.error e, w') := by
    rw [hsame]
    rcases Action.bind_inv hrun with ⟨err, hx, heq⟩ | ⟨u, w₃, -, hend⟩
    · cases heq
      exact hx
    · cases hrebuild : (planEntry w id).rebuilding <;> (rw [hrebuild] at hend; cases hend)
  have hcalm : env.CalmFrom w₂.calls := hcalls ▸ hc.mono h.looked.calls
  obtain ⟨⟨loads, hloads, hpoints⟩, hne, hnow⟩ :=
    execute_unloaded (by rw [hsame]; exact h.planned.sound) hcalm he hexec
  obtain ⟨reads, hreads, hreading⟩ := h.looked.log
  rw [hsame] at hpoints hnow
  rw [hlog, hreads] at hloads
  refine ⟨reads ++ (⟨.commit, w.kernel.attached, w₂.cache⟩ : Point sha256) :: loads, ?_,
    fun point hp => ?_, ?_, hnow⟩
  · rw [hloads, List.append_assoc, List.append_assoc]
    rfl
  · rcases List.mem_append.mp hp with hp | hp
    · obtain ⟨hread, hat, -⟩ := hreading point hp
      exact ⟨Event.edits_of_reads hread, hat⟩
    · rcases List.mem_cons.mp hp with rfl | hp
      · exact ⟨rfl, rfl⟩
      · obtain ⟨⟨name, hev⟩, hat⟩ := hpoints point hp
        exact ⟨by rw [hev]; rfl, hat⟩
  · obtain ⟨point, hp⟩ := List.exists_mem_of_ne_nil loads fun hnil =>
      hne (by rw [hloads, hnil, List.append_nil, hlog, hreads])
    exact ⟨point, List.mem_append_right _ (List.mem_cons_of_mem _ hp), (hpoints point hp).1⟩

private theorem planEntry_rebuilding {id : Identity} : (planEntry w id).rebuilding = true ↔
    w.kernel.attached = [] ∨ (w.cache.get id).rebuilding = true := by
  unfold planEntry
  by_cases he : w.kernel.attached = []
  · simp [he]
  · simp [he]

/-- **A pass that fails before its first step changes nothing.** Only a failing load leaves a trace:
the entry of the cgroup then names what is attached and what a rebuild still has to attach. -/
theorem failed_before_steps {id : Identity} {rules : List DeviceRule} {e : Error}
    (hc : env.CalmFrom w.calls) (h : setRules env id rules w = (.error e, w')) (he : ¬ InStep e) :
    ∃ points, w'.log = w.log ++ points ∧
      (∀ point ∈ points, point.event.edits = false ∧ point.attached = w.kernel.attached) ∧
      w'.kernel.attached = w.kernel.attached ∧
      ((∀ point ∈ points, ∀ name, point.event ≠ .load name) → w'.cache = w.cache) ∧
      ((∃ point ∈ points, ∃ name, point.event = .load name) →
        (∀ original, Present sha256 original w.kernel.attached → (w'.cache.get id).Has original) ∧
        (w.kernel.attached = [] ∨ (w.cache.get id).rebuilding = true →
          ∀ original, (w.cache.get id).Has original → (w'.cache.get id).Has original) ∧
        ((w'.cache.get id).rebuilding = true ↔
          w.kernel.attached = [] ∨ (w.cache.get id).rebuilding = true) ∧
        ∀ other, other ≠ id → w'.cache other = w.cache other) := by
  rcases setRules_commits hc h with hstop | ⟨progs, blocks, w₁, hcommits⟩
  · obtain ⟨points, hlog, hpoints⟩ := hstop.looked.log
    refine ⟨points, hlog, fun point hp => ?_, by rw [hstop.looked.kernel], fun _ =>
      hstop.looked.cache, ?_⟩
    · obtain ⟨hread, hat, -⟩ := hpoints point hp
      exact ⟨Event.edits_of_reads hread, hat⟩
    · rintro ⟨point, hp, name, hev⟩
      have hread := (hpoints point hp).1
      rw [hev] at hread
      cases hread
  · obtain ⟨points, hlog, hpoints, ⟨point, hp, name, hev⟩, hnow⟩ := hcommits.unloaded hc he
    have hplan := hcommits.planned
    have hpassed : Passed env id blocks (planEntry w id).rebuilding w₁.drawn (.error e) w w' :=
      .of_commit hplan.sound hplan.multi hcommits.looked hc hcommits.run
    have hentry : w'.cache.get id = ⟨blocks.map Block.lineage, (planEntry w id).rebuilding⟩ := by
      rw [hpassed.cache, FilterCache.get_set]
      simp [Except.isOk, Except.toBool]
    have hhas : ∀ block ∈ blocks, (w'.cache.get id).Has block.lineage.original.raw := by
      intro block hb
      rw [hentry]
      exact ⟨_, List.mem_map_of_mem hb, rfl⟩
    refine ⟨points, hlog, hpoints, hnow, fun hno => absurd hev (hno point hp name), fun _ =>
      ⟨fun original hpresent => ?_, fun hrebuild original hnamed => ?_, ?_, fun other hne => ?_⟩⟩
    · obtain ⟨block, hb, rfl⟩ := hplan.block_of_present hpresent
      exact hhas block hb
    · obtain ⟨block, hb, rfl⟩ := hplan.exists_block (.inr (planEntry_has.mpr ⟨hnamed, hrebuild⟩))
      exact hhas block hb
    · rw [hentry]
      exact planEntry_rebuilding
    · rw [hpassed.cache]
      exact if_neg hne

/-- The first load, which follows the query and the one program to read, fails. -/
def unloadable : Env :=
  { quietEnv with fault := fun n => if n = 2 then some (.load (.attempts Errno.perm)) else none }

theorem failed_before_steps_load :
    ∃ e w', setRules unloadable sampleId [nullRule] denyWorld = (.error e, w') ∧ ¬ InStep e ∧
      w'.kernel.attached = [denyProg] ∧ (w'.cache.get sampleId).Has denyAll ∧
      (w'.cache.get sampleId).rebuilding = false := by
  obtain ⟨r, w', h⟩ := (setRules unloadable sampleId [nullRule]).exists_run denyWorld
  have hops : (match (setRules unloadable sampleId [nullRule] denyWorld).1 with
      | .error (.ops _) => true
      | _ => false) = true := by decide +kernel
  have hcached : ((setRules unloadable sampleId [nullRule] denyWorld).2.cache sampleId).isSome =
      true := by
    decide +kernel
  rw [h] at hops hcached
  obtain ⟨source, rfl⟩ : ∃ source, r = .error (.ops source) := by
    rcases r with e | u
    · cases e with
      | ops source => exact ⟨source, rfl⟩
      | _ => cases hops
    · cases hops
  have hstep : ¬ InStep (.ops source) := by
    rintro ⟨step, steps, cause, heq⟩
    cases heq
  obtain ⟨points, -, -, hnow, hquiet, hloaded⟩ := failed_before_steps (fun _ _ => rfl) h hstep
  by_cases hload : ∃ point ∈ points, ∃ name, point.event = .load name
  · obtain ⟨hpresent, -, hrebuild, -⟩ := hloaded hload
    refine ⟨_, w', h, hstep, hnow, hpresent denyAll ⟨denyProg, List.mem_singleton_self _, ?_⟩, ?_⟩
    · exact ⟨_, newProg_shows denyAll_canonical 0, .bare (denyAll_bare _)⟩
    · refine Bool.eq_false_iff.mpr fun htrue => ?_
      rcases hrebuild.mp htrue with hempty | hbefore
      · cases hempty
      · cases hbefore
  · have hsame := hquiet fun point hp name hev => hload ⟨point, hp, name, hev⟩
    rw [hsame] at hcached
    cases hcached

end V2
end Sda
