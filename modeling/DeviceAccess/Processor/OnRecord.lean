import DeviceAccess.Processor.Moves
import DeviceAccess.Processor.Narrow

/-!
# A grant is always on record

Whatever the containers, the directories and the cgroup controllers do: at every moment, a directory
that is still there and holds a grant is named by a record of its container (`grant_on_record`). So
there is always something through which the grant can be revoked.
-/

namespace Sda
namespace Processor

open V2 (Identity)

variable {σ ν : Type} {start world : World σ}

/-! ## The invariant -/

/-- Each directory that is there and holds a grant of a container is named by a record of it. -/
def OnRecord (scene : Scene) : Prop :=
  ∀ id identity, Granted scene.sets id identity → scene.dirs.Exists identity →
    scene.history.Named id identity

/-- What every act keeps. -/
structure Accounted (scene : Scene) : Prop where
  good : scene.Good
  onRecord : OnRecord scene
  granted_born : ∀ id identity, Granted scene.sets id identity → identity ∈ scene.dirs.born

theorem Accounted.apply {parse : String → Option Timestamp} {scene : Scene} {act : Act}
    (h : Accounted scene) (hsafe : Safe scene act) : Accounted (act.apply parse scene) := by
  refine ⟨h.good.apply hsafe, ?_, ?_⟩
  · intro id identity hgranted hexists
    cases act with
    | dirs changes =>
      -- A directory with a grant that is there now was there before: it is not a new one.
      refine h.onRecord id identity hgranted (by_contra fun hgone => ?_)
      have hdead : scene.dirs.Dead identity := ⟨h.granted_born id identity hgranted, hgone⟩
      exact (hdead.changeAll changes).2 hexists
    | provisional => exact (h.onRecord id identity hgranted hexists).provisional
    | verify id' startedAt cgroup now =>
      rcases (h.onRecord id identity hgranted hexists).verify h.good.tidy id' startedAt
        cgroup now with
        hnamed | ⟨rfl, hne, record, hlookup, hid⟩
      · exact hnamed
      · rcases hsafe.2.2 record identity hlookup hid hne with hleft | hdead
        · exact absurd hgranted hleft
        · exact absurd hexists hdead.2
    | terminate => exact (h.onRecord id identity hgranted hexists).ages Lifecycles.ages_terminate
    | markTerminal =>
      exact (h.onRecord id identity hgranted hexists).ages Lifecycles.ages_markTerminal
    | markRevoked =>
      exact (h.onRecord id identity hgranted hexists).ages Lifecycles.ages_markRevoked
    | release record =>
      rcases (h.onRecord id identity hgranted hexists).release hsafe.1 with hnamed | ⟨-, hid⟩
      · exact hnamed
      · exact absurd hexists (hsafe.2 identity hid)
    | set call =>
      rcases granted_cons.mp hgranted with ⟨rfl, rfl, hrules⟩ | ⟨hgranted, -⟩
      · exact hsafe hrules
      · exact h.onRecord id identity hgranted hexists
  · intro id identity hgranted
    cases act with
    | dirs changes => exact Dirs.born_changeAll changes (h.granted_born id identity hgranted)
    | set call =>
      rcases granted_cons.mp hgranted with ⟨rfl, rfl, hrules⟩ | ⟨hgranted, -⟩
      · exact h.good.known _ _ (hsafe hrules)
      · exact h.granted_born id identity hgranted
    | provisional | verify | terminate | markTerminal | markRevoked | release =>
      exact h.granted_born id identity hgranted

/-! ## Runs -/

theorem Recording.named {id : ContainerId} {startedAt : String} {cgroup : RunCgroup}
    (h : Recording id startedAt cgroup world) : world.scene.history.Named id cgroup.identity := by
  obtain ⟨scene, now, -, heq⟩ := h
  obtain ⟨record, hrecord, -, hcgroup⟩ :=
    Lifecycles.mem_verify_self scene.history id startedAt cgroup now
  exact ⟨record, heq ▸ hrecord, congrArg (Option.map _) hcgroup⟩

/-- Every act of an operation is safe. -/
theorem op_goes (host : Host σ ν) (hgood : start.scene.Good) (op : Op) :
    Goes host Safe start (Op.run host start op) := by
  cases op with
  | sweep config => exact (sweep_goes host hgood config).mono fun _ _ h => h.safe
  | terminate config id eventTime =>
    refine (terminate_goes host hgood config id eventTime).mono fun _ _ h => ?_
    rcases h with rfl | h
    · trivial
    · exact h.safe
  | reconcile config id =>
    rcases reconcile_goes host hgood config id with
      hgoes | ⟨before, call, info, state, cgroup, hbefore, -, -, hid, hidentity, hrecording,
        hscene, hpast⟩
    · exact hgoes.mono fun _ _ h => h.safe
    · have hsafe : Safe before.scene (.set call) := fun _ => hid ▸ hidentity ▸ hrecording.named
      exact ((hbefore.mono fun _ _ h => h.safe).perform hsafe).of_eq hscene hpast

theorem runOps_goes (host : Host σ ν) (hgood : start.scene.Good) (ops : List Op) :
    Goes host Safe start (runOps host start ops) := by
  induction ops generalizing start with
  | nil => exact .refl
  | cons op ops ih =>
    have hop := op_goes host hgood op
    exact hop.trans (ih (hop.good hgood))

/-- Every scene of a world, the present one first. -/
def World.moments (world : World σ) : List Scene := world.scene :: world.past.map Prod.fst

theorem good_new (dirs : Dirs) (dev : σ) : (World.new dirs dev).scene.Good :=
  ⟨Lifecycles.tidy_new, fun _ _ ⟨_, hrecord, _⟩ => nomatch hrecord⟩

theorem accounted_new (dirs : Dirs) (dev : σ) : Accounted (World.new dirs dev).scene :=
  have hnone : ∀ id identity, ¬ Granted (World.new dirs dev).scene.sets id identity := by
    rintro id identity ⟨later, call, earlier, hsplit, -⟩
    cases later <;> cases hsplit
  ⟨good_new dirs dev, fun id identity h => absurd h (hnone id identity),
    fun id identity h => absurd h (hnone id identity)⟩

/-- **A grant is always on record.** Whatever a new processor is asked to do and whatever the host
does meanwhile, at every moment every directory that is still there and holds a grant of a container
is named by a record of that container. -/
theorem grant_on_record (host : Host σ ν) (dirs : Dirs) (dev : σ) (ops : List Op) :
    ∀ scene ∈ (runOps host (World.new dirs dev) ops).moments, OnRecord scene := by
  obtain ⟨past, hrun, hpast⟩ := runOps_goes host (good_new dirs dev) ops
  obtain ⟨hnow, hthen⟩ := hrun.invariant Accounted (fun _ _ h hsafe => h.apply hsafe)
    (accounted_new dirs dev)
  intro scene hscene
  rcases List.mem_cons.mp hscene with rfl | hscene
  · exact hnow.onRecord
  · obtain ⟨moment, hmoment, rfl⟩ := List.mem_map.mp hscene
    rw [hpast] at hmoment
    exact (hthen moment (by simpa [World.new] using hmoment)).onRecord

/-- The container runs from time 1 on, and from the given call on as a run that started at time 5,
in the same cgroup directory all the time. -/
def restartHost (restart : Nat) : Host Unit Unit where
  changes call := if call = 0 then [.create "/sys/fs/cgroup/app" 7] else []
  inspect call _ := .ok
    ⟨some (if call < restart then ⟨true, 11, "1"⟩ else ⟨true, 12, "5"⟩), none, none,
      [⟨"bind", "/dev/net/tun".toList⟩]⟩
  canceled _ := false
  pin _ _ := .ok ()
  alive _ _ := .ok ()
  procCgroup _ _ := .ok ("/sys/fs/cgroup/app", .v2)
  openFault _ _ := none
  statFault _ _ := none
  hasProcess _ _ _ := .ok true
  setDeviceRules _ _ _ _ := .ok ()
  now _ := 0
  openDev := pure tunDev
  parse text := if text = "1" then some 1 else if text = "5" then some 5 else none
  started call id info state hinfo hstate _ := by
    cases hinfo
    cases hstate
    split <;> nofun
  openFault_found := nofun
  statFault_found := nofun

/-- No cgroup directories. -/
def noDirs : Dirs := ⟨fun _ => none, [], nofun⟩

def sampleConfig : Runtime :=
  ⟨⟨.all, none, none, Policy.validateGlobs_none, Policy.validateGlobs_none⟩, false⟩

/-- After the first reconcile the container's record names the directory its device was granted at.
-/
theorem grant_on_record_app :
    (runOps (restartHost 100) (World.new noDirs ())
      [.reconcile sampleConfig "app"]).scene.history.Named "app"
      ⟨"/sys/fs/cgroup/app", 7⟩ := by
  refine grant_on_record (restartHost 100) noDirs () [.reconcile sampleConfig "app"] _
    List.mem_cons_self "app" _ ?_
    (by decide +kernel)
  have hlast :
    ((runOps (restartHost 100) (World.new noDirs ())
    [.reconcile sampleConfig "app"]).scene.sets.head?.any
      fun call => call.id = "app" && call.identity = ⟨"/sys/fs/cgroup/app", 7⟩ &&
        !call.rules.isEmpty) = true := by
    decide +kernel
  generalize (runOps (restartHost 100) (World.new noDirs ())
    [.reconcile sampleConfig "app"]).scene.sets = sets at *
  cases sets with
  | nil => cases hlast
  | cons call sets =>
    simp only [List.head?_cons, Option.any_some, Bool.and_eq_true, decide_eq_true_eq] at hlast
    obtain ⟨⟨hid, hidentity⟩, hrules⟩ := hlast
    exact granted_cons.mpr (.inl ⟨hid, hidentity, by simpa using hrules⟩)

end Processor
end Sda
