import DeviceAccess.Daemon.Places
import DeviceAccess.Processor.Cleanup

/-!
# The event loop with the coordinator and the processor (`src/daemon/events.rs`)

`Node` puts the parts together: the event loop hands events and requests to the coordinator, and the
coordinator's holds and its run loop call the processor. The daemon is not in dry-run mode. The
backoff, the readiness flag and the wait of `handle_event` for its hold are left out, so there are
more interleavings than the code has.

A run of a container whose end events got lost is cleaned up if a later reconcile of the container
is answered with that run (`noticed_end_cleaned`). Docker lists running containers only, so nothing
makes that happen: `lost_end_kept`.
-/

namespace Sda
namespace Daemon

open Policy (Global)
open Processor (ContainerId Timestamp EndedRun Host Op Runtime World)

/-! ## Events -/

inductive EventAction where
  | start
  | unpause
  | die
  | destroy
  | other
  deriving DecidableEq, Repr

structure Event where
  action : EventAction
  id : ContainerId
  timeNano : Timestamp
  deriving DecidableEq, Repr

/-- The event ends a run. -/
def Event.ends (event : Event) : Bool := event.action = .die || event.action = .destroy

/-- What the event loop keeps. -/
structure Listener where
  initial : Timestamp
  lastEventNano : Timestamp
  /-- The `since` of the open stream. -/
  stream : Option Timestamp
  /-- An event that no pass covered, until its container is reserved. -/
  handling : Option Event

namespace Listener

/-- The listener with the subscription made before the startup enumeration. -/
def new (initial : Timestamp) : Listener := ⟨initial, 0, some initial, none⟩

/-- `resubscribe_since`. -/
def resubscribeSince (listener : Listener) : Timestamp :=
  if listener.lastEventNano = 0 then listener.initial else listener.lastEventNano + 1

/-- The clock in 64 bits. -/
def nanos (now : Timestamp) : Timestamp := if -2 ^ 63 ≤ now ∧ now < 2 ^ 63 then now else 2 ^ 63 - 1

end Listener

/-! ## The node -/

/-- The event loop, the coordinator and the processor. -/
structure Node (σ : Type) where
  listener : Listener
  system : System
  world : World σ

/-- What one of the parts does. The times are what its clock reads, the policy is the one in force.
-/
inductive NodeAct where
  /-- The stream is re-established. -/
  | subscribed
  | received (event : Event) (now : Timestamp) (instant : Instant)
  /-- The reservation for an event that no pass covered. -/
  | reserve (now : Timestamp)
  /-- The stream ends with a record that cannot be decoded. -/
  | undecodable (now : Timestamp)
  | disconnected
  /-- A section of the coordinator that does not call the processor. -/
  | coordinate (act : Act)
  | terminate (index : Nat) (policy : Global)
  | reconcile (index : Nat) (policy : Global)
  | sweep (policy : Global)

def Outcome.ofResult : Except Processor.Error Unit → Outcome
  | .ok () => .ok
  | .error error => if error.isContainerGone then .gone else .failed

namespace Node

variable {σ ν : Type} (host : Host σ ν) (node : Node σ)

def new (initial : Timestamp) (store : Nat) (world : World σ) : Node σ :=
  ⟨.new initial, .new store, world⟩

/-- The call of the processor. -/
def op : NodeAct → Option Op
  | .terminate index policy =>
    (node.system.holds[index]?).bind fun hold =>
      match hold.pc with
      | .terminating _ eventTime => some (.terminate ⟨policy, false⟩ hold.id eventTime)
      | _ => none
  | .reconcile index policy =>
    (node.system.holds[index]?).bind fun hold =>
      match hold.pc with
      | .loaded _ _ => some (.reconcile ⟨policy, false⟩ hold.id)
      | _ => none
  | .sweep policy => some (.sweep ⟨policy, false⟩)
  | _ => none

/-- How the reconcile of a hold ends. -/
def outcome (index : Nat) (policy : Global) : Outcome :=
  match node.system.holds[index]? with
  | some hold => .ofResult (Processor.reconcile host ⟨policy, false⟩ hold.id node.world).1
  | none => .failed

/-- The section of the coordinator. -/
def part : NodeAct → Option Act
  | .subscribed => some (.request 0)
  | .received event now instant =>
    some (if event.ends then .endRun event.id event.timeNano now
      else .skip event.id event.timeNano instant)
  | .reserve now => node.listener.handling.map fun event => .start event.id event.timeNano now
  | .undecodable _ | .disconnected => none
  | .coordinate act => some act
  | .terminate index _ => some (.hold index .endTerminate)
  | .reconcile index policy => some (.hold index (.finish (node.outcome host index policy)))
  | .sweep _ => some .sweep

/-- What the event loop keeps. -/
def listen : NodeAct → Listener
  | .subscribed => { node.listener with stream := some node.listener.resubscribeSince }
  | .received event _ instant =>
    { node.listener with
      lastEventNano := max node.listener.lastEventNano event.timeNano
      handling :=
        if event.ends || (node.system.state.skipEvent event.id event.timeNano instant).1 then none
        else some event }
  | .reserve _ => { node.listener with handling := none }
  | .undecodable now =>
    { node.listener with
      lastEventNano := max node.listener.lastEventNano (Listener.nanos now)
      stream := none }
  | .disconnected => { node.listener with stream := none }
  | _ => node.listener

/-- The section does not belong to an event or to a call of the processor. A reconcile can also fail
before the processor is at work. -/
def inner : Act → Bool
  | .start _ _ _ | .endRun _ _ _ | .skip _ _ _ | .sweep | .hold _ .endTerminate => false
  | .hold index (.finish _) =>
    (node.system.holds[index]?).any fun hold =>
      match hold.pc with | .reconciling _ _ => true | _ => false
  | _ => true

/-- The act can happen. Each event is handled before the next one is read. -/
def enabled (act : NodeAct) : Bool :=
  (match act with
  | .subscribed => node.listener.stream.isNone
  | .received _ _ _ | .undecodable _ | .disconnected =>
    node.listener.stream.isSome && node.listener.handling.isNone
  | .reserve _ => node.listener.handling.isSome
  | .coordinate act => node.inner act
  | .terminate _ _ | .reconcile _ _ => (node.op act).isSome
  | .sweep _ => true) &&
  (node.part host act).all node.system.enabled

/-- What an act does. One that cannot happen is left out. -/
def step (act : NodeAct) : Node σ :=
  if node.enabled host act then
    { listener := node.listen act
      system := (node.part host act).elim node.system node.system.apply
      world := (node.op act).elim node.world (Op.run host node.world) }
  else node

def run (acts : List NodeAct) : Node σ := acts.foldl (Node.step host) node

/-- At every act that happens. -/
def Always (P : Node σ → NodeAct → Prop) (acts : List NodeAct) : Prop :=
  ∀ front act back, acts = front ++ act :: back → (node.run host front).enabled host act = true →
    P (node.run host front) act

/-- At some act that happens. -/
def Once (P : Node σ → NodeAct → Prop) (acts : List NodeAct) : Prop :=
  ∃ front act back, acts = front ++ act :: back ∧ (node.run host front).enabled host act = true ∧
    P (node.run host front) act

variable {host node}

theorem step_of_enabled {act : NodeAct} (h : node.enabled host act = true) :
    (node.step host act).world = (node.op act).elim node.world (Op.run host node.world) := by
  rw [step, if_pos h]

private theorem step_of_disabled {act : NodeAct} (h : ¬ node.enabled host act = true) :
    node.step host act = node :=
  if_neg h

theorem run_append (front back : List NodeAct) :
    node.run host (front ++ back) = (node.run host front).run host back := List.foldl_append

theorem always_cons {P : Node σ → NodeAct → Prop} {act : NodeAct} {acts : List NodeAct} :
    node.Always host P (act :: acts) ↔
      (node.enabled host act = true → P node act) ∧ (node.step host act).Always host P acts := by
  refine ⟨fun h => ⟨h [] act acts rfl, fun front act' back heq => h (act :: front) act' back
    (by rw [heq]; rfl)⟩, ?_⟩
  rintro ⟨hfirst, hrest⟩ front act' back heq henabled
  cases front with
  | nil =>
    cases heq
    exact hfirst henabled
  | cons first front =>
    cases heq
    exact hrest front act' back rfl henabled

instance decidableAlways (P : Node σ → NodeAct → Prop) [∀ node act, Decidable (P node act)] :
    (node : Node σ) → (acts : List NodeAct) → Decidable (node.Always host P acts)
  | _, [] => isTrue fun front _ _ heq => absurd heq (by cases front <;> nofun)
  | node, act :: acts =>
    have := decidableAlways P (node.step host act) acts
    decidable_of_iff ((node.enabled host act = true → P node act) ∧
      (node.step host act).Always host P acts)
      always_cons.symm

/-! ## What an act keeps, a run keeps -/

theorem Always.front {P : Node σ → NodeAct → Prop} {front back : List NodeAct}
    (h : node.Always host P (front ++ back)) : node.Always host P front :=
  fun before act rest heq =>
  h before act (rest ++ back) (by rw [heq, List.append_assoc, List.cons_append])

theorem Always.back {P : Node σ → NodeAct → Prop} {front back : List NodeAct}
    (h : node.Always host P (front ++ back)) : (node.run host front).Always host P back := by
  intro before act rest heq henabled
  rw [← run_append] at henabled ⊢
  exact h (front ++ before) act rest (by rw [heq, List.append_assoc]) henabled

/-- What every call of the processor keeps holds after every run. -/
theorem run_invariant (I : World σ → Prop) {P : Node σ → NodeAct → Prop}
    (hstep : ∀ (node : Node σ) act op, node.op act = some op → P node act → I node.world →
      I (Op.run host node.world op))
    {acts : List NodeAct} (halways : node.Always host P acts) (h : I node.world) :
    I (node.run host acts).world := by
  induction acts using List.reverseRecOn with
  | nil => exact h
  | append_singleton front act ih =>
    have hfront := ih halways.front
    rw [run_append]
    show I ((node.run host front).step host act).world
    by_cases henabled : (node.run host front).enabled host act = true
    · rw [step_of_enabled henabled]
      cases hop : (node.run host front).op act with
      | none => exact hfront
      | some op => exact hstep _ act op hop (halways front act [] rfl henabled) hfront
    · rwa [step_of_disabled henabled]

/-- Every run keeps the history in order. -/
theorem good_run {world : World σ} (initial : Timestamp) (store : Nat) (hgood : world.scene.Good)
    (acts : List NodeAct) : ((Node.new initial store world).run host acts).world.scene.Good :=
  have hany : (Node.new initial store world).Always host (fun _ _ => True) acts :=
    fun _ _ _ _ _ => trivial
  run_invariant (fun world => world.scene.Good)
    (fun _ _ op _ _ h => (Processor.op_goes host h op).good h) hany hgood

end Node

/-! ## A run whose end events got lost -/

section LostEnd

variable {σ ν : Type} (host : Host σ ν) (run : EndedRun)

/-- No reconcile is answered that the run is running. -/
def Over (node : Node σ) (act : NodeAct) : Prop :=
  ∀ op, node.op act = some op → run.Unseen host node.world op

instance (node : Node σ) (act : NodeAct) : Decidable (Over host run node act) :=
  inferInstanceAs (Decidable (∀ op ∈ node.op act, run.Unseen host node.world op))

/-- The act is a reconcile that is answered with the ended run. -/
def Noticed (node : Node σ) (act : NodeAct) : Prop :=
  ∃ op, node.op act = some op ∧ EndedRun.Notices host run node.world op

instance (node : Node σ) (act : NodeAct) : Decidable (Noticed host run node act) :=
  inferInstanceAs (Decidable (∃ op ∈ node.op act, EndedRun.Notices host run node.world op))

/-- A run of a container is on record as verified when it ends. No event that ends a run of the
container is received, the stream is subscribed again, a pass taken after that is completed, and
then a sweep runs while the run's directory is still there and every cgroup call succeeds. -/
structure LostEnd (start : Node σ) (gap after : List NodeAct) (policy : Global) : Prop where
  recorded : ∃ record ∈ start.world.scene.history.records run.id, record.startedAt = run.startedAt ∧
    record.state = .verified ∧ record.identity = some run.identity
  before : run.before = start.world.scene.sets
  unseen : start.Always host (Over host run) (gap ++ .subscribed :: after)
  lost : ∀ event now instant, .received event now instant ∈ gap ++ .subscribed :: after →
    ¬ (event.ends = true ∧ event.id = run.id)
  subscribed : (start.run host gap).enabled host .subscribed = true
  passed : ∃ entries key ids, (start.run host (gap ++ .subscribed :: after)).system.log =
    entries ++ (start.run host (gap ++ [.subscribed])).system.log ∧
      [.passed key ids, .taken key].Sublist entries
  sweeps : (start.run host (gap ++ .subscribed :: after)).enabled host (.sweep policy) = true
  present :
    (start.run host (gap ++ .subscribed :: after ++ [.sweep policy])).world.scene.dirs.Exists
      run.identity
  succeeds : ∀ number, (start.run host (gap ++ .subscribed :: after)).world.calls ≤ number →
    number < (start.run host (gap ++ .subscribed :: after ++ [.sweep policy])).world.calls →
    ¬ EndedRun.Fault host number

/-- The run's record is marked as ended, and the empty set was applied at its directory after its
end. -/
def CleanedUp (world : World σ) : Prop :=
  (∃ record ∈ world.scene.history.records run.id, record.startedAt = run.startedAt ∧
    record.state = .terminal) ∧
    run.Emptied world.scene

variable {host run}

private theorem stands_run {start : Node σ} {marked : Bool} {acts : List NodeAct}
    (hover : start.Always host (Over host run) acts) (h : run.Stands marked start.world.scene) :
    run.Stands marked (start.run host acts).world.scene :=
  Node.run_invariant (fun world => run.Stands marked world.scene)
    (fun _ _ op hop hover h => h.op (hover op hop))
    hover h

/-- Once a reconcile was answered with the ended run, its record is marked. -/
theorem stands_noticed {start : Node σ} {acts : List NodeAct}
    (hover : start.Always host (Over host run) acts)
    (hnoticed : start.Once host (Noticed host run) acts) (h : run.Stands false start.world.scene) :
    run.Stands true (start.run host acts).world.scene := by
  obtain ⟨front, act, back, rfl, henabled, op, hop, hnotices⟩ := hnoticed
  have hmarked : run.Stands true (start.run host (front ++ [act])).world.scene := by
    have hfront := stands_run hover.front h
    rw [Node.run_append]
    show run.Stands true ((start.run host front).step host act).world.scene
    rw [Node.step_of_enabled henabled, hop]
    exact EndedRun.reconcile_marks hfront hnotices
  have hsplit : front ++ act :: back = (front ++ [act]) ++ back := by rw [List.append_assoc]; rfl
  rw [hsplit] at hover ⊢
  rw [Node.run_append]
  exact stands_run hover.back hmarked

/-- **A lost end that is noticed.** A run whose end events got lost is cleaned up, if a reconcile of
the container is answered with that run after its end. -/
theorem noticed_end_cleaned (host : Host σ ν) (run : EndedRun) (initial : Timestamp) (store : Nat)
    (dirs : Processor.Dirs) (dev : σ) (acts gap after : List NodeAct) (policy : Global)
    (h : LostEnd host run ((Node.new initial store (.new dirs dev)).run host acts) gap after policy)
    (hnoticed : ((Node.new initial store (.new dirs dev)).run host acts).Once host
      (Noticed host run) (gap ++ .subscribed :: after)) :
    CleanedUp run (((Node.new initial store (.new dirs dev)).run host acts).run host
      (gap ++ .subscribed :: after ++ [.sweep policy])).world := by
  have hgood : ((Node.new initial store (.new dirs dev)).run host acts).world.scene.Good :=
    Node.good_run initial store (Processor.good_new dirs dev) acts
  generalize (Node.new initial store (.new dirs dev)).run host acts = start at *
  obtain ⟨record, hrecord, hstart, hstate, hidentity⟩ := h.recorded
  have hstands := EndedRun.Stands.of_verified hgood h.before hrecord hstart hstate hidentity
  have hmarked := stands_noticed h.unseen hnoticed hstands
  have hswept : (start.run host (gap ++ .subscribed :: after ++ [.sweep policy])).world =
      Op.run host (start.run host (gap ++ .subscribed :: after)).world
        (.sweep ⟨policy, false⟩) := by
    rw [Node.run_append]
    exact Node.step_of_enabled h.sweeps
  have hafter :
      run.Stands true
      (start.run host (gap ++ .subscribed :: after ++ [.sweep policy])).world.scene := by
    rw [hswept]
    exact hmarked.op trivial
  have hsettled : EndedRun.Settled host run
    (start.run host (gap ++ .subscribed :: after)).world.calls
      (start.run host (gap ++ .subscribed :: after ++ [.sweep policy])).world := by
    rw [hswept]
    exact EndedRun.sweep_settles hmarked rfl
  obtain ⟨ended, hended, hown, hterminal⟩ := hafter.remains.resolve_right h.present.not_dead
  refine ⟨⟨ended, hended, hown, hterminal rfl⟩, ?_⟩
  rcases hsettled with hemptied | hdead | ⟨number, hlo, hhi, hfault⟩
  · exact hemptied
  · exact absurd hdead h.present.not_dead
  · exact absurd hfault (h.succeeds number hlo hhi)

end LostEnd

/-! ## A run that is noticed, and one that is not -/

/-- The container runs from time 1 on, and has ended before call 9. -/
def endedHost : Host Unit Unit :=
  { Processor.restartHost 9 with
    inspect := fun call _ => .ok
      ⟨some ⟨call < 9, 11, "1"⟩, none, none, [⟨"bind", "/dev/net/tun".toList⟩]⟩
    started := fun _ _ _ _ hinfo hstate _ => by
      cases hinfo
      cases hstate
      exact (by decide : "1" ≠ "") }

/-- The reconcile of a container by the first hold. -/
def reconcileActs (policy : Global) : List NodeAct :=
  [.coordinate (.hold 0 (.readKey ⟨2, 2⟩)), .coordinate (.hold 0 (.begin 2)),
    .coordinate (.hold 0 .load),
    .reconcile 0 policy, .coordinate (.hold 0 (.settle 3)), .coordinate (.hold 0 .mark),
    .coordinate (.hold 0 (.next 3))]

/-- A pass in which Docker lists one container. -/
def passActs (id : ContainerId) : List NodeAct :=
  [.coordinate .notify, .coordinate .check, .coordinate .takeRequest, .coordinate (.listed [id]),
    .coordinate .visit, .coordinate (.reserveVisit 1), .coordinate .finishPass]

/-- A pass in which Docker lists no container. -/
def emptyPassActs : List NodeAct :=
  [.coordinate .notify, .coordinate .check, .coordinate .takeRequest, .coordinate (.listed []),
    .coordinate .finishPass]

/-- The run loop goes to its select, with a wake on the way. -/
def waitActs : List NodeAct :=
  [.coordinate .check, .coordinate .takeRequest, .coordinate .nextDue, .coordinate (.armPrune 4)]

/-- The first pass reconciles the container. -/
def startActs : List NodeAct :=
  .coordinate (.request 0) :: passActs "app" ++ reconcileActs Processor.sampleConfig.policy

def startedNode : Node Unit := (Node.new 0 0 (.new Processor.noDirs ())).run endedHost startActs

def endedRun : EndedRun :=
  ⟨"app", "1", ⟨"/sys/fs/cgroup/app", 7⟩, startedNode.world.scene.sets, by decide⟩

/-- What the two runs share: everything but the pass and what follows it. -/
theorem lostEnd_app {after : List NodeAct}
    (hover : startedNode.Always endedHost (Over endedHost endedRun)
      ([.undecodable 50] ++ .subscribed :: after))
    (hunheard : ∀ event now instant, .received event now instant ∉ after)
    (hpassed : ∃ count ids,
      (startedNode.run endedHost
          ([.undecodable 50] ++ .subscribed :: after)).system.log.drop count =
        (startedNode.run endedHost ([.undecodable 50] ++ [.subscribed])).system.log ∧
      [.passed ⟨0, 2⟩ ids, .taken ⟨0, 2⟩].Sublist
        ((startedNode.run endedHost
          ([.undecodable 50] ++ .subscribed :: after)).system.log.take count))
    (hsweeps : (startedNode.run endedHost ([.undecodable 50] ++ .subscribed :: after)).enabled
      endedHost (.sweep Processor.sampleConfig.policy) = true)
    (hpresent : (startedNode.run endedHost ([.undecodable 50] ++ .subscribed :: after ++
      [.sweep Processor.sampleConfig.policy])).world.scene.dirs.Exists endedRun.identity) :
    LostEnd endedHost endedRun startedNode [.undecodable 50] after
      Processor.sampleConfig.policy where
  recorded := by decide +kernel
  before := rfl
  unseen := hover
  lost := by
    intro event now instant hmem
    simp only [List.cons_append, List.nil_append, List.mem_cons, reduceCtorEq, false_or] at hmem
    exact absurd hmem (hunheard event now instant)
  subscribed := by decide +kernel
  passed := by
    obtain ⟨count, ids, hdrop, hpass⟩ := hpassed
    exact ⟨_, ⟨0, 2⟩, ids, by rw [← hdrop, List.take_append_drop], hpass⟩
  sweeps := hsweeps
  present := hpresent
  succeeds := by
    rintro number - - (⟨path, h⟩ | ⟨path, h⟩ | ⟨version, identity, rules, h⟩) <;> exact h rfl

/-- Docker lists the ended container, and the reconcile marks its record. -/
theorem noticed_end_cleaned_app :
    CleanedUp endedRun
    (startedNode.run endedHost ([.undecodable 50] ++ .subscribed :: (passActs "app" ++
      reconcileActs Processor.sampleConfig.policy ++ waitActs) ++
      [.sweep Processor.sampleConfig.policy])).world :=
  noticed_end_cleaned endedHost endedRun 0 0 Processor.noDirs () startActs [.undecodable 50] _ _
    (lostEnd_app (by decide +kernel) (by simp [passActs, reconcileActs, waitActs])
      ⟨11, ["app"], by decide +kernel⟩
      (by decide +kernel) (by decide +kernel))
    ⟨.undecodable 50 :: .subscribed :: passActs "app" ++
      (reconcileActs Processor.sampleConfig.policy).take 3,
      .reconcile 0 Processor.sampleConfig.policy, _, rfl, by decide +kernel, by decide +kernel⟩

/-- Docker does not list the ended container: after the pass and the sweep its record is still the
one of a running container. -/
theorem lost_end_kept :
    LostEnd endedHost endedRun startedNode [.undecodable 50] (emptyPassActs ++ waitActs)
        Processor.sampleConfig.policy ∧
      ¬ CleanedUp endedRun (startedNode.run endedHost ([.undecodable 50] ++ .subscribed ::
        (emptyPassActs ++ waitActs) ++ [.sweep Processor.sampleConfig.policy])).world := by
  refine ⟨lostEnd_app (by decide +kernel) (by simp [emptyPassActs, waitActs])
    ⟨3, [], by decide +kernel⟩
    (by decide +kernel) (by decide +kernel), ?_⟩
  have hnone : ∀ record ∈ (startedNode.run endedHost ([.undecodable 50] ++ .subscribed ::
      (emptyPassActs ++ waitActs) ++
        [.sweep Processor.sampleConfig.policy])).world.scene.history.records endedRun.id,
      record.state = .verified := by
    decide +kernel
  rintro ⟨⟨record, hrecord, -, hterminal⟩, -⟩
  cases (hnone record hrecord).symm.trans hterminal

end Daemon
end Sda
