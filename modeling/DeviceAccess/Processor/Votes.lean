import Mathlib.Data.List.Nodup
import DeviceAccess.Processor.Rules

/-!
# Which devices are granted

Every candidate was judged under its names (`Judged`), and the aggregation keeps, for each device,
the order it was first seen in and what the candidates of it say (`Aggregation.Counts`). So the
granted devices are those that a candidate authorizes and no candidate's name denies, whatever the
names, mounts and entries were, and in whatever order they came.
-/

namespace Sda
namespace Processor

open Sda.Filter Lexpath Policy Docker

/-! ## What the policy says -/

/-- Some glob of the list matches the name. -/
def Matched (globs : Globs) (name : Path) : Prop :=
  ∃ pattern ∈ globs.getD [], Glob.globMatches pattern name = true

/-- The list is empty, or some glob of it matches. -/
def Allowed (globs : Globs) (name : Path) : Prop := globs.getD [] = [] ∨ Matched globs name

namespace Judge

variable (judge : Judge)

/-- The name is denied by either list. -/
def Denies (name : Path) : Prop :=
  Matched judge.global.deviceDeny name ∨ Matched judge.container.deviceDeny name

/-- The name passes both allow lists. -/
def Authorizes (name : Path) : Prop :=
  Allowed judge.global.deviceAllow name ∧ Allowed judge.container.deviceAllow name

end Judge

theorem matchAny_iff {globs : Globs} {name : Path} :
    matchAny globs name = true ↔ Matched globs name := by
  rw [matchAny, List.any_eq_true]
  rfl

private theorem denied_iff {judge : Judge} {name : Path} :
    judge.global.denied judge.container name = true ↔ judge.Denies name := by
  rw [Global.denied, Bool.or_eq_true, matchAny_iff, matchAny_iff]
  rfl

theorem authorized_iff {judge : Judge} {name : Path} :
    judge.global.authorized judge.container name = true ↔ judge.Authorizes name := by
  have hempty : ∀ globs : Globs, Policy.isEmpty globs = true ↔ globs.getD [] = [] := fun globs =>
    List.isEmpty_iff
  unfold Global.authorized Judge.Authorizes Allowed
  rw [← matchAny_iff, ← matchAny_iff, ← hempty, ← hempty]
  cases Policy.isEmpty judge.global.deviceAllow <;>
    cases matchAny judge.global.deviceAllow name <;> simp

/-! ## Candidates -/

/-- The names a device was found by. Without a canonical name there are two. -/
def Candidate.names (candidate : Candidate) : List Path :=
  if candidate.canonical = [] then [candidate.aliasPath, candidate.resolved]
  else [candidate.aliasPath, candidate.resolved, candidate.canonical]

/-- The decision is what the policy says of the names. -/
structure Judged (judge : Judge) (candidate : Candidate) : Prop where
  denied : candidate.decision.deniedBy = none ↔ ∀ name ∈ candidate.names, ¬judge.Denies name
  authorized : candidate.decision.deniedBy = none → (candidate.decision.authorized = true ↔
    candidate.canonical ≠ [] ∧ judge.Authorizes candidate.canonical ∧
      judge.Authorizes candidate.resolved)

theorem evaluateIdentity_denied {aliasPath resolved canonical : Path} {judge : Judge} :
    (evaluateIdentity aliasPath resolved canonical judge).deniedBy = none ↔
      ∀ name ∈ [aliasPath, resolved, canonical], ¬judge.Denies name := by
  unfold evaluateIdentity
  split
  next name h =>
    refine iff_of_false nofun fun hall => ?_
    exact hall name (List.mem_of_find?_eq_some h) (denied_iff.mp (List.find?_some h))
  next h =>
    refine iff_of_true rfl fun name hn hd => ?_
    exact List.find?_eq_none.mp h name hn (denied_iff.mpr hd)

theorem evaluateIdentity_authorized {aliasPath resolved canonical : Path} {judge : Judge}
    (h : (evaluateIdentity aliasPath resolved canonical judge).deniedBy = none) :
    (evaluateIdentity aliasPath resolved canonical judge).authorized = true ↔
      judge.Authorizes canonical ∧ judge.Authorizes resolved := by
  unfold evaluateIdentity at h ⊢
  split at h
  next => cases h
  next => simp only [Bool.and_eq_true, authorized_iff]

theorem judged_named {aliasPath resolved canonical : Path} {kind : NodeKind} {judge : Judge}
    (hc : canonical ≠ []) : Judged judge
      ⟨aliasPath, resolved, canonical, kind,
        evaluateIdentity aliasPath resolved canonical judge⟩ where
  denied := by
    rw [evaluateIdentity_denied, Candidate.names, if_neg hc]
  authorized h := by
    rw [evaluateIdentity_authorized h]
    exact (and_iff_right hc).symm

private theorem judged_unnamed (aliasPath resolved : Path) (id : DeviceId) (cause : Cause)
    (judge : Judge) :
    Judged judge (evaluateUnnamed aliasPath resolved id cause judge).candidate where
  denied := by
    refine evaluateIdentity_denied.trans ?_
    simp [evaluateUnnamed, Candidate.names]
  authorized _ := iff_of_false nofun fun h => h.1 rfl

section Dev

variable {σ ν : Type} {dev : DevFs σ ν} {judge : Judge} {s s' : σ}

theorem devname_ne_nil {data : Bytes} {name : Path} (h : devname data = .ok name) : name ≠ [] := by
  unfold devname at h
  split at h
  next => cases h
  next =>
    split at h
    next =>
      split at h
      next => cases h
      next => cases h; exact List.append_ne_nil_of_left_ne_nil (by decide) _
    next => cases h

private theorem canonicalName_ne_nil {id : DeviceId} {name : Path}
    (h : canonicalName dev id s = (.ok name, s')) : name ≠ [] := by
  obtain ⟨data, s₁, -, h⟩ := Action.bind_ok_inv h
  exact devname_ne_nil (congrArg Prod.fst h)

/-- What a name turned out to be, before the policy judges it. -/
inductive Named where
  | skipped (reason : Skip)
  | failed (error : DeviceError)
  /-- A directory, or nothing that is of interest. -/
  | plain (resolved : Path) (kind : NodeKind) (no_device : ∀ id, kind ≠ .device id)
  | device (resolved canonical : Path) (id : DeviceId) (nonempty : canonical ≠ [])
  | unnamed (resolved : Path) (id : DeviceId) (cause : Cause)

/-- The policy's part. -/
def Named.evaluate (aliasPath : Path) (judge : Judge) : Named → Evaluated
  | .skipped reason => ⟨⟨aliasPath, [], [], .other, Decision.default⟩, some reason, none⟩
  | .failed error => ⟨⟨aliasPath, [], [], .other, Decision.default⟩, none, some error⟩
  | .plain resolved kind _ => ⟨⟨aliasPath, resolved, [], kind, Decision.default⟩, none, none⟩
  | .device resolved canonical id _ => ⟨⟨aliasPath, resolved, canonical, .device id,
      evaluateIdentity aliasPath resolved canonical judge⟩, none, none⟩
  | .unnamed resolved id cause => evaluateUnnamed aliasPath resolved id cause judge

/-- What a name is, and the state afterwards, do not depend on the policy. -/
theorem evaluateCandidate_named (dev : DevFs σ ν) (aliasPath : Path) (s : σ) :
    ∃ (named : Named) (s' : σ), ∀ judge,
      evaluateCandidate dev aliasPath judge s = (named.evaluate aliasPath judge, s') := by
  unfold evaluateCandidate
  by_cases hunder : underDev aliasPath = true
  swap
  · exact ⟨.skipped .outsideDev, s, fun judge => by simp only [hunder]; rfl⟩
  rcases hopen : openCandidate dev aliasPath s with ⟨error | ⟨node | reason⟩, s₁⟩
  · exact ⟨.failed error, s₁, fun judge => by simp only [hunder]; rfl⟩
  · rcases hstat : dev.stat node s₁ with ⟨error | kind, s₂⟩
    · refine ⟨.failed (.unresolved aliasPath none (.sys error)), s₂, fun judge => ?_⟩
      simp only [hunder, hstat]
      rfl
    · rcases hresolved : dev.resolved node s₂ with ⟨resolved, s₃⟩
      cases kind with
      | device id =>
        rcases hname : canonicalName dev id s₃ with ⟨cause | canonical, s₄⟩
        · refine ⟨.unnamed (if resolved.isEmpty then aliasPath else resolved) id cause, s₄,
            fun judge => ?_⟩
          simp only [hunder, hstat, hresolved, hname]
          rfl
        · refine ⟨.device (if resolved.isEmpty then aliasPath else resolved) canonical id
            (canonicalName_ne_nil hname), s₄, fun judge => ?_⟩
          simp only [hunder, hstat, hresolved, hname]
          rfl
      | dir =>
        refine ⟨.plain (if resolved.isEmpty then aliasPath else resolved) .dir nofun, s₃,
          fun judge => ?_⟩
        simp only [hunder, hstat, hresolved]
        rfl
      | other =>
        refine ⟨.plain (if resolved.isEmpty then aliasPath else resolved) .other nofun, s₃,
          fun judge => ?_⟩
        simp only [hunder, hstat, hresolved]
        rfl
  · exact ⟨.skipped reason, s₁, fun judge => by simp only [hunder]; rfl⟩

/-- A device candidate was judged. -/
theorem Named.evaluate_judged {named : Named} {aliasPath : Path} {id : DeviceId}
    (hkind : (named.evaluate aliasPath judge).candidate.kind = .device id) :
    Judged judge (named.evaluate aliasPath judge).candidate := by
  cases named with
  | skipped | failed => cases hkind
  | plain resolved kind no_device => exact absurd hkind (no_device id)
  | device resolved canonical id nonempty => exact judged_named nonempty
  | unnamed resolved id cause => exact judged_unnamed ..

theorem evaluateCandidate_judged {aliasPath : Path} {id : DeviceId}
    (hkind : (evaluateCandidate dev aliasPath judge s).1.candidate.kind = .device id) :
    Judged judge (evaluateCandidate dev aliasPath judge s).1.candidate := by
  obtain ⟨named, s', heval⟩ := evaluateCandidate_named dev aliasPath s
  rw [heval judge] at hkind ⊢
  exact Named.evaluate_judged hkind

/-! ## Mounts -/

/-- The candidates of a result are devices, and judged. -/
def MountResult.AllJudged (judge : Judge) (result : MountResult) : Prop :=
  ∀ candidate ∈ result.candidates, (∃ id, candidate.kind = .device id) ∧ Judged judge candidate

theorem MountResult.addError_ne_nil (result : MountResult) (error : DeviceError) :
    (result.addError error).errs ≠ [] := by
  simp [MountResult.addError]

theorem MountResult.AllJudged.add {result : MountResult} {candidate : Candidate} {id : DeviceId}
    (h : result.AllJudged judge) (hkind : candidate.kind = .device id)
    (hj : Judged judge candidate) :
    (result.addCandidate candidate).AllJudged judge := by
  intro other ho
  rcases List.mem_append.mp ho with ho | ho
  · exact h other ho
  · rw [List.mem_singleton.mp ho]
    exact ⟨⟨id, hkind⟩, hj⟩

theorem visitEntry_judged {source base : Path} {state state' : MountWalkState} {visit : Visit}
    {goes : Bool} (h : state.result.AllJudged judge)
    (hvisit : visitEntry dev source base judge state visit s = ((state', goes), s')) :
    state'.result.AllJudged judge := by
  unfold visitEntry at hvisit
  dsimp only at hvisit
  split at hvisit
  next => cases hvisit; exact h
  next =>
    split at hvisit
    next => cases hvisit; exact h
    next =>
      split at hvisit
      next => cases hvisit; exact h
      next =>
        split at hvisit
        next => cases hvisit; exact h
        next =>
          split at hvisit
          next => cases hvisit; exact h
          next => cases hvisit; exact h
          next hkind =>
            cases hvisit
            exact h.add hkind (evaluateCandidate_judged hkind)
          next => cases hvisit; exact h

theorem visitAll_judged {source base : Path} {visits : List Visit} {state : MountWalkState}
    (h : state.result.AllJudged judge) :
    (visitAll dev source base judge visits state s).1.AllJudged judge := by
  induction visits generalizing state s with
  | nil => exact h
  | cons visit visits ih =>
    unfold visitAll
    split
    next hvisit => exact ih (visitEntry_judged h hvisit)
    next hvisit => exact visitEntry_judged h hvisit

theorem collectMountRules_judged (path : Path) :
    (collectMountRules dev path judge s).1.AllJudged judge := by
  have hnone : MountResult.default.AllJudged judge := nofun
  unfold collectMountRules
  dsimp only
  split
  next => exact hnone
  next =>
    split
    next => exact hnone
    next => exact hnone
    next => exact visitAll_judged hnone
    next => exact hnone
    next hkind => exact hnone.add hkind (evaluateCandidate_judged hkind)

/-- The results of the mounts, one after another. -/
def mountResults (dev : DevFs σ ν) (judge : Judge) : List MountPoint → σ → List MountResult
  | [], _ => []
  | mount :: mounts, s =>
    (collectMountRules dev mount.source judge s).1 ::
      mountResults dev judge mounts (collectMountRules dev mount.source judge s).2

/-- The candidates found under the bind mounts of `/dev` and below, in the order they were found. -/
def foundCandidates (dev : DevFs σ ν) (judge : Judge) (mounts : List MountPoint) (s : σ) :
    List Candidate :=
  (mountResults dev judge (mounts.filter isDeviceMount) s).flatMap (·.candidates)

theorem mountResults_judged {mounts : List MountPoint} :
    ∀ result ∈ mountResults dev judge mounts s, result.AllJudged judge := by
  induction mounts generalizing s with
  | nil => nofun
  | cons mount mounts ih =>
    intro result hr
    rcases List.mem_cons.mp hr with rfl | hr
    · exact collectMountRules_judged mount.source
    · exact ih result hr

private theorem foundCandidates_judged {mounts : List MountPoint} {candidate : Candidate}
    (h : candidate ∈ foundCandidates dev judge mounts s) : Judged judge candidate := by
  obtain ⟨result, hr, hc⟩ := List.mem_flatMap.mp h
  exact (mountResults_judged result hr candidate hc).2

end Dev

/-! ## Aggregation -/

/-- The device of a candidate. -/
def Candidate.device (candidate : Candidate) : Option DeviceId :=
  match candidate.kind with
  | .device id => some id
  | _ => none

theorem Candidate.device_iff {candidate : Candidate} {id : DeviceId} :
    candidate.device = some id ↔ candidate.kind = .device id := by
  unfold Candidate.device
  split
  next h => rw [h]; simp
  next h => exact iff_of_false nofun fun hk => h id hk

theorem eraseDups_concat {α : Type} [DecidableEq α] (l : List α) (a : α) :
    (l ++ [a]).eraseDups = if a ∈ l then l.eraseDups else l.eraseDups ++ [a] := by
  rw [List.eraseDups_append]
  split
  next h => simp [List.removeAll, h]
  next h => simp [List.removeAll, h, List.eraseDups_cons]

theorem eraseDups_nodup {α : Type} [DecidableEq α] (l : List α) : l.eraseDups.Nodup := by
  induction l using List.reverseRecOn with
  | nil => exact List.nodup_nil
  | append_singleton l a ih =>
    rw [eraseDups_concat]
    split
    next => exact ih
    next h =>
      refine List.nodup_append.mpr ⟨ih, List.nodup_singleton a, fun x hx y hy hxy => h ?_⟩
      rw [← List.mem_singleton.mp hy, ← hxy]
      exact List.mem_eraseDups.mp hx

section Add

variable {devices : Aggregation} {candidate : Candidate} {id : DeviceId}

theorem Aggregation.add_order (h : candidate.kind = .device id) : (devices.add candidate).order =
    if (devices.votes id).isNone then devices.order ++ [id] else devices.order := by
  rw [Aggregation.add, h]

theorem Aggregation.add_votes (h : candidate.kind = .device id) : (devices.add candidate).votes =
    Function.update devices.votes id
      (some (((devices.votes id).getD ⟨0, false, none⟩).vote candidate.decision)) := by
  rw [Aggregation.add, h]

theorem DeviceVotes.vote_deniedBy (votes : DeviceVotes) (decision : Decision) :
    (votes.vote decision).deniedBy = none ↔ votes.deniedBy = none ∧ decision.deniedBy = none := by
  unfold DeviceVotes.vote
  cases h : votes.deniedBy <;> simp

theorem DeviceVotes.vote_authorized (votes : DeviceVotes) (decision : Decision) :
    (votes.vote decision).authorized = true ↔ votes.authorized = true ∨
    decision.authorized = true :=
  Bool.or_eq_true _ _ |>.to_iff

end Add

/-- The device is authorized and has no deny vote. -/
def Aggregation.grants (devices : Aggregation) (id : DeviceId) : Bool :=
  match devices.votes id with
  | some votes => votes.deniedBy.isNone && votes.authorized
  | none => false

/-- A fold whose first part collects what passes. -/
theorem foldl_collect {α β γ : Type} {step : List β × γ → α → List β × γ} {p : α → Bool} {f : α → β}
    (hstep : ∀ found a, (step found a).1 = if p a then found.1 ++ [f a] else found.1) (l : List α)
    (found : List β × γ) : (l.foldl step found).1 = found.1 ++ (l.filter p).map f := by
  induction l generalizing found with
  | nil => simp
  | cons a l ih =>
    rw [List.foldl_cons, ih, hstep, List.filter_cons]
    split <;> simp

theorem Aggregation.emit_eq (devices : Aggregation) :
    devices.emit.1 = (devices.order.filter devices.grants).map grantRule := by
  refine (foldl_collect (p := devices.grants) (f := grantRule) ?_ devices.order ([], 0)).trans
    (List.nil_append _)
  rintro ⟨rules, skipped⟩ device
  rw [grants]
  cases devices.votes device with
  | none => rfl
  | some votes =>
    obtain ⟨candidates, authorized, deniedBy⟩ := votes
    cases deniedBy with
    | some name => rfl
    | none => cases authorized <;> rfl

/-- What the aggregation says of the candidates it was given. -/
structure Aggregation.Counts (devices : Aggregation) (found : List Candidate) : Prop where
  order : devices.order = (found.filterMap Candidate.device).eraseDups
  seen : ∀ id, devices.votes id = none ↔ id ∉ found.filterMap Candidate.device
  authorized : ∀ id votes, devices.votes id = some votes →
    (votes.authorized = true ↔ ∃ candidate ∈ found, candidate.device = some id ∧
      candidate.decision.authorized = true)
  denied : ∀ id votes, devices.votes id = some votes →
    (votes.deniedBy = none ↔ ∀ candidate ∈ found, candidate.device = some id →
      candidate.decision.deniedBy = none)

namespace Aggregation.Counts

variable {devices : Aggregation} {found : List Candidate}

theorem default : Aggregation.default.Counts [] where
  order := rfl
  seen _ := iff_of_true rfl List.not_mem_nil
  authorized := nofun
  denied := nofun

/-- The votes for a device so far. -/
theorem start (h : devices.Counts found) (id : DeviceId) :
    let votes := (devices.votes id).getD ⟨0, false, none⟩
    (votes.authorized = true ↔ ∃ candidate ∈ found, candidate.device = some id ∧
      candidate.decision.authorized = true) ∧
    (votes.deniedBy = none ↔ ∀ candidate ∈ found, candidate.device = some id →
      candidate.decision.deniedBy = none) := by
  cases hv : devices.votes id with
  | some votes => exact ⟨h.authorized id votes hv, h.denied id votes hv⟩
  | none =>
    have hno : ∀ candidate ∈ found, candidate.device ≠ some id := fun candidate hc hd =>
      (h.seen id).mp hv (List.mem_filterMap.mpr ⟨candidate, hc, hd⟩)
    exact ⟨iff_of_false nofun fun ⟨c, hc, hd, _⟩ => hno c hc hd,
      iff_of_true rfl fun c hc hd => absurd hd (hno c hc)⟩

theorem add (h : devices.Counts found) (candidate : Candidate) :
    (devices.add candidate).Counts (found ++ [candidate]) := by
  cases hd : candidate.device with
  | none =>
    have hsame : devices.add candidate = devices := by
      unfold Candidate.device at hd
      unfold Aggregation.add
      split
      next hk => rw [hk] at hd; cases hd
      next => rfl
    have hids : (found ++ [candidate]).filterMap Candidate.device = found.filterMap
        Candidate.device := by
      rw [List.filterMap_append]
      simp [hd]
    rw [hsame]
    refine ⟨by rw [hids, h.order], fun id => by rw [hids, h.seen], fun id votes hv =>
      ?_, fun id votes hv => ?_⟩
    · rw [h.authorized id votes hv]
      simp [List.mem_append, or_and_right, exists_or, hd]
    · rw [h.denied id votes hv]
      simp [List.mem_append, or_imp, forall_and, hd]
  | some id =>
    have hk := Candidate.device_iff.mp hd
    have hids : (found ++ [candidate]).filterMap Candidate.device =
        found.filterMap Candidate.device ++ [id] := by
      rw [List.filterMap_append]
      simp [hd]
    obtain ⟨hauthorized, hdenied⟩ := h.start id
    have hvotes := @add_votes devices candidate id hk
    have hcases : ∀ other votes, (devices.add candidate).votes other = some votes →
        other = id ∧ votes = ((devices.votes id).getD ⟨0, false, none⟩).vote candidate.decision ∨
          other ≠ id ∧ devices.votes other = some votes := by
      intro other votes hv
      rw [hvotes] at hv
      by_cases ho : other = id
      · rw [ho, Function.update_self] at hv
        exact .inl ⟨ho, (Option.some.inj hv).symm⟩
      · rw [Function.update_of_ne ho] at hv
        exact .inr ⟨ho, hv⟩
    refine ⟨?_, fun other => ?_, fun other votes hv => ?_, fun other votes hv => ?_⟩
    · rw [add_order hk, hids, eraseDups_concat, ← h.order]
      by_cases hin : id ∈ found.filterMap Candidate.device
      · rw [if_pos hin, if_neg fun hno => (h.seen id).mp (Option.isNone_iff_eq_none.mp hno) hin]
      · rw [if_neg hin, if_pos (Option.isNone_iff_eq_none.mpr ((h.seen id).mpr hin))]
    · rw [hvotes, hids, List.mem_append, List.mem_singleton]
      by_cases ho : other = id
      · subst ho
        simp
      · rw [Function.update_of_ne ho, h.seen]
        simp [ho]
    · rcases hcases other votes hv with ⟨rfl, rfl⟩ | ⟨ho, hv⟩
      · rw [DeviceVotes.vote_authorized, hauthorized]
        simp [hd, or_and_right, exists_or]
      · rw [h.authorized other votes hv]
        simp [or_and_right, exists_or, hd, ho.symm]
    · rcases hcases other votes hv with ⟨rfl, rfl⟩ | ⟨ho, hv⟩
      · rw [DeviceVotes.vote_deniedBy, hdenied]
        simp [hd, or_imp, forall_and]
      · rw [h.denied other votes hv]
        simp [or_imp, forall_and, hd, ho.symm]

theorem foldl {more : List Candidate} (h : devices.Counts found) :
    (more.foldl Aggregation.add devices).Counts (found ++ more) := by
  induction more generalizing devices found with
  | nil => rwa [List.append_nil]
  | cons candidate more ih =>
    have := ih (h.add candidate)
    rwa [List.append_assoc] at this

/-- The rules that are emitted are those of the devices that are authorized and not denied. -/
theorem emit (h : devices.Counts found) : ∃ granted : List DeviceId,
    devices.emit.1 = granted.map grantRule ∧
    granted.Sublist (found.filterMap Candidate.device).eraseDups ∧
    ∀ id, id ∈ granted ↔
      (∃ candidate ∈ found, candidate.device = some id ∧ candidate.decision.authorized = true) ∧
      ∀ candidate ∈ found, candidate.device = some id → candidate.decision.deniedBy = none := by
  refine ⟨devices.order.filter devices.grants, devices.emit_eq, ?_, fun id => ?_⟩
  · rw [← h.order]
    exact List.filter_sublist
  · rw [List.mem_filter, h.order, List.mem_eraseDups, Aggregation.grants]
    cases hv : devices.votes id with
    | none =>
      refine iff_of_false (fun hno => Bool.false_ne_true hno.2) fun ⟨⟨candidate, hc, hd, _⟩, _⟩ =>
        ?_
      exact (h.seen id).mp hv (List.mem_filterMap.mpr ⟨candidate, hc, hd⟩)
    | some votes =>
      have hseen : id ∈ found.filterMap Candidate.device := by
        by_contra hno
        rw [(h.seen id).mpr hno] at hv
        cases hv
      rw [and_iff_right hseen, ← h.authorized id votes hv, ← h.denied id votes hv, Bool.and_eq_true,
        Option.isNone_iff_eq_none, and_comm]

end Aggregation.Counts

/-! ## The collection -/

section Collect

variable {σ ν : Type} {dev : DevFs σ ν} {judge : Judge} {s s' : σ}

theorem collectFrom_devices {mounts : List MountPoint} {result : ContainerRules}
    {devices : Aggregation} :
    (collectFrom dev judge mounts result devices s).1.2 =
      ((mountResults dev judge mounts s).flatMap (·.candidates)).foldl Aggregation.add devices := by
  induction mounts generalizing result devices s with
  | nil => rfl
  | cons mount mounts ih =>
    rw [collectFrom, mountResults, List.flatMap_cons, List.foldl_append]
    exact ih

theorem collectFrom_errs {mounts : List MountPoint} {result : ContainerRules}
    {devices : Aggregation} :
    (collectFrom dev judge mounts result devices s).1.1.deviceErrs =
      result.deviceErrs ++ (mountResults dev judge mounts s).flatMap (·.errs) := by
  induction mounts generalizing result devices s with
  | nil => exact (List.append_nil _).symm
  | cons mount mounts ih =>
    rw [collectFrom, mountResults, List.flatMap_cons, ← List.append_assoc]
    exact ih

/-- A candidate of the device authorizes it, and no name it was found by is denied. -/
def Grants (judge : Judge) (found : List Candidate) (id : DeviceId) : Prop :=
  (∃ candidate ∈ found, candidate.kind = .device id ∧ candidate.canonical ≠ [] ∧
    judge.Authorizes candidate.canonical ∧ judge.Authorizes candidate.resolved) ∧
  ∀ candidate ∈ found, candidate.kind = .device id → ∀ name ∈ candidate.names, ¬judge.Denies name

theorem grants_iff {found : List Candidate} (hj : ∀ candidate ∈ found, Judged judge candidate)
    (id : DeviceId) : Grants judge found id ↔
      (∃ candidate ∈ found, candidate.device = some id ∧ candidate.decision.authorized = true) ∧
      ∀ candidate ∈ found, candidate.device = some id → candidate.decision.deniedBy = none := by
  have hdenied : (∀ candidate ∈ found, candidate.kind = .device id → ∀ name ∈ candidate.names,
      ¬judge.Denies name) ↔
      ∀ candidate ∈ found, candidate.device = some id → candidate.decision.deniedBy = none :=
    forall₂_congr fun candidate hc => by
      rw [Candidate.device_iff, (hj candidate hc).denied]
  unfold Grants
  rw [hdenied]
  refine and_congr_left fun hall => exists_congr fun candidate => and_congr_right fun hc => ?_
  rw [Candidate.device_iff]
  refine and_congr_right fun hk => ?_
  exact ((hj candidate hc).authorized (hall candidate hc (Candidate.device_iff.mpr hk))).symm

/-- The granted devices of a collection. -/
theorem collectContainerRules_devices (dev : DevFs σ ν) (judge : Judge)
    (mounts : List MountPoint) (s : σ) :
    ∃ devices :
    List DeviceId, (collectContainerRules dev mounts judge s).1.granted = devices.map grantRule ∧
      devices.Sublist ((foundCandidates dev judge mounts s).filterMap Candidate.device).eraseDups ∧
      ∀ id, id ∈ devices ↔ Grants judge (foundCandidates dev judge mounts s) id := by
  have hcounts := @Aggregation.Counts.foldl _ _ (foundCandidates dev judge mounts s) .default
  rw [List.nil_append] at hcounts
  obtain ⟨devices, hemit, hsub, hmem⟩ := hcounts.emit
  refine ⟨devices, ?_, hsub, fun id => (hmem id).trans
    (grants_iff (fun _ => foundCandidates_judged) id).symm⟩
  rw [← hemit, foundCandidates, ← collectFrom_devices]
  rfl

theorem grantRule_injective : Function.Injective grantRule := by
  rintro ⟨kind, major, minor⟩ ⟨kind', major', minor'⟩ h
  simp only [grantRule, DeviceRule.mk.injEq, Option.some.injEq, Int.natCast_inj, true_and,
    and_true] at h
  obtain ⟨hkind, hmajor, hminor⟩ := h
  have : kind = kind' := by
    cases kind <;> cases kind' <;> simp [DeviceId.letter] at hkind ⊢
  rw [this, BitVec.eq_of_toNat_eq hmajor, BitVec.eq_of_toNat_eq hminor]

/-! ## Answers that never change -/

section Steady

variable (hdev : dev.Steady)

include hdev

theorem escapeFrom_steady {rel : Path} {before parts : List Path} :
    (escapeFrom dev rel before parts).Steady := by
  induction parts generalizing before with
  | nil => exact fun _ => rfl
  | cons part rest ih =>
    refine Action.Steady.bind (Action.Steady.attempt (hdev.openBeneath _)) fun opened => ?_
    cases opened with
    | ok node => exact ih
    | error error =>
      dsimp only
      split
      next => exact fun _ => rfl
      next =>
        refine Action.Steady.bind (hdev.readLink _) fun target => ?_
        split
        all_goals exact fun _ => rfl

theorem openFrom_steady {aliasPath rel : Path} {rounds : Nat} :
    (openFrom dev aliasPath rounds rel).Steady := by
  induction rounds generalizing rel with
  | zero => exact fun _ => rfl
  | succ rounds ih =>
    refine Action.Steady.bind (Action.Steady.attempt (hdev.openBeneath _)) fun opened => ?_
    cases opened with
    | ok node => exact fun _ => rfl
    | error error =>
      dsimp only
      split
      next => exact fun _ => rfl
      next =>
        split
        next => exact fun _ => rfl
        next =>
          refine Action.Steady.bind (Action.Steady.mapErr (escapeFrom_steady hdev) _) fun hop => ?_
          cases hop with
          | outside target => exact fun _ => rfl
          | retry next => exact ih

private theorem canonicalName_steady (id : DeviceId) : (canonicalName dev id).Steady :=
  Action.Steady.bind (Action.Steady.mapErr (hdev.readUevent id) _) fun _ _ => rfl

theorem evaluateCandidate_steady (aliasPath : Path) (judge : Judge) (s : σ) :
    (evaluateCandidate dev aliasPath judge s).2 = s := by
  have hopen := @openFrom_steady _ _ dev hdev aliasPath (relToDev aliasPath) maxLinkHops s
  unfold evaluateCandidate
  split
  next => rfl
  next =>
    split
    next h => rw [openCandidate] at h; rw [h] at hopen; exact hopen
    next h => rw [openCandidate] at h; rw [h] at hopen; exact hopen
    next node s₁ h =>
      rw [openCandidate] at h
      rw [h] at hopen
      obtain rfl : s₁ = s := hopen
      have hstat := hdev.stat node s₁
      split
      next h => rw [h] at hstat; exact hstat
      next kind s₂ h =>
        rw [h] at hstat
        obtain rfl : s₂ = s₁ := hstat
        dsimp only
        rw [hdev.resolved]
        split
        next id =>
          have hname := canonicalName_steady hdev id s₂
          split
          next h => rw [h] at hname; exact hname
          next h => rw [h] at hname; exact hname
        next => rfl

theorem visitAll_steady {source base : Path} {visits : List Visit}
    {state : MountWalkState} (s : σ) :
    (visitAll dev source base judge visits state s).2 = s := by
  have hentry : ∀ (state : MountWalkState) (visit : Visit) (s : σ),
      (visitEntry dev source base judge state visit s).2 = s := by
    intro state visit s
    unfold visitEntry
    dsimp only
    split
    next => rfl
    next =>
      split
      next => rfl
      next =>
        split
        next => rfl
        next =>
          split
          next => rfl
          next =>
            split
            all_goals exact evaluateCandidate_steady hdev _ _ _
  induction visits generalizing state with
  | nil => rfl
  | cons visit visits ih =>
    have h := hentry state visit s
    unfold visitAll
    split
    next s₁ heq =>
      rw [heq] at h
      obtain rfl : s₁ = s := h
      exact ih
    next heq => rw [heq] at h; exact h

theorem collectMountRules_steady (path : Path) (s : σ) :
    (collectMountRules dev path judge s).2 = s := by
  have hsource := evaluateCandidate_steady hdev path judge s
  unfold collectMountRules
  dsimp only
  rw [hsource]
  split
  next => rfl
  next =>
    split
    next => rfl
    next => rfl
    next =>
      unfold walkMount
      dsimp only
      rw [visitAll_steady hdev, hdev.walk]
    next => rfl
    next => rfl

private theorem mountResults_steady {mounts : List MountPoint} :
    mountResults dev judge mounts s =
      mounts.map fun mount => (collectMountRules dev mount.source judge s).1 := by
  induction mounts with
  | nil => rfl
  | cons mount mounts ih => rw [mountResults, collectMountRules_steady hdev, ih, List.map_cons]

private theorem foundCandidates_perm {mounts mounts' : List MountPoint} (h : mounts.Perm mounts') :
    (foundCandidates dev judge mounts s).Perm (foundCandidates dev judge mounts' s) := by
  unfold foundCandidates
  rw [mountResults_steady hdev, mountResults_steady hdev]
  exact ((h.filter _).map _).flatMap_right _

end Steady

theorem Grants.of_mem_iff {found found' : List Candidate} {id : DeviceId}
    (h : ∀ candidate, candidate ∈ found ↔ candidate ∈ found') :
    Grants judge found id ↔ Grants judge found' id := by
  simp only [Grants, h]

end Collect

/-! ## The desired rules -/

section Desired

variable {σ ν : Type} {dev : DevFs σ ν} {judge : Judge} {s s₀ : σ}
  {openDev : Action σ SysError (DevFs σ ν)}

theorem collectContainerRules_no_mounts {mounts : List MountPoint}
    (h : mounts.any isDeviceMount = false) :
    (collectContainerRules dev mounts judge s).1 = ContainerRules.default := by
  have hnone : mounts.filter isDeviceMount = [] := List.filter_eq_nil_iff.mpr fun mount hm => by
    simp [List.any_eq_false.mp h mount hm]
  rw [collectContainerRules, hnone]
  rfl

theorem collectDevices_of_ok {mounts : List MountPoint} (h : openDev s₀ = (.ok dev, s)) :
    (collectDevices openDev mounts judge s₀).1 = (collectContainerRules dev mounts judge s).1 := by
  unfold collectDevices
  split
  next hno => rw [collectContainerRules_no_mounts (by simpa using hno)]
  next => rw [h]

theorem collectDevices_of_error {mounts : List MountPoint} {e : SysError}
    (h : openDev s₀ = (.error e, s)) :
    (collectDevices openDev mounts judge s₀).1.granted = [] := by
  unfold collectDevices
  split
  next => rfl
  next => rw [h]; rfl

theorem computeDesired_rules {info : ContainerInspect}
    (hparse : Container.parse (info.labels.getD fun _ => none) = .ok judge.container)
    (henabled : judge.global.enabled judge.container = true) :
    (computeDesired openDev info judge.global s₀).1.rules =
      if (collectDevices openDev info.mounts judge s₀).1.deviceErrs = [] then
        (collectDevices openDev info.mounts judge s₀).1.granted
      else [] := by
  unfold computeDesired
  rw [hparse]
  dsimp only
  rw [henabled, if_neg (by decide)]
  cases herrs : (collectDevices openDev info.mounts judge s₀).1.deviceErrs with
  | nil => rw [if_pos rfl]; rfl
  | cons error errors => rw [if_neg (List.cons_ne_nil _ _)]; rfl

/-- A desired rule was granted, and no device was in doubt. -/
theorem computeDesired_granted {info : ContainerInspect} {policy : Global} {rule : DeviceRule}
    (h : rule ∈ (computeDesired openDev info policy s₀).1.rules) :
    ∃ container dev s, Container.parse (info.labels.getD fun _ => none) = .ok container ∧
      openDev s₀ = (.ok dev, s) ∧
      (collectContainerRules dev info.mounts ⟨policy, container⟩ s).1.deviceErrs = [] ∧
      rule ∈ (collectContainerRules dev info.mounts ⟨policy, container⟩ s).1.granted := by
  cases hparse : Container.parse (info.labels.getD fun _ => none) with
  | error e =>
    rw [computeDesired, hparse] at h
    cases h
  | ok container =>
    by_cases henabled : policy.enabled container = true
    swap
    · rw [computeDesired, hparse] at h
      simp only [henabled] at h
      cases h
    have hrules := @computeDesired_rules _ _ ⟨policy, container⟩ s₀ openDev info hparse henabled
    rw [hrules] at h
    rcases hopen : openDev s₀ with ⟨e | dev, s⟩
    · rw [collectDevices_of_error hopen, ite_self] at h
      cases h
    · rw [collectDevices_of_ok hopen] at h
      split at h
      next herrs => exact ⟨container, dev, s, rfl, rfl, herrs, h⟩
      next => cases h

end Desired

/-! ## The result -/

/-- **A device is granted exactly when the policy says so.** The granted rules are, once each and in
the order the devices were first seen, those of the devices that a candidate authorizes and that no
name of a candidate denies. If the answers do not change, the order of the mounts does not matter.
For an enabled container with labels that parse, the desired rules are these, or none if any device
is in doubt. -/
theorem collectContainerRules_granted {σ ν : Type} (dev : DevFs σ ν) (judge : Judge)
    (mounts : List MountPoint) (s : σ) :
    (∃ devices : List DeviceId,
      (collectContainerRules dev mounts judge s).1.granted = devices.map grantRule ∧ devices.Nodup ∧
      devices.Sublist ((foundCandidates dev judge mounts s).filterMap Candidate.device).eraseDups ∧
      ∀ id, id ∈ devices ↔ Grants judge (foundCandidates dev judge mounts s) id) ∧
    (dev.Steady → ∀ mounts', mounts.Perm mounts' → ∀ rule,
      rule ∈ (collectContainerRules dev mounts judge s).1.granted ↔
        rule ∈ (collectContainerRules dev mounts' judge s).1.granted) ∧
    ∀ (openDev : Action σ SysError (DevFs σ ν)) (info : ContainerInspect) (s₀ : σ),
      info.mounts = mounts →
      Container.parse (info.labels.getD fun _ => none) = .ok judge.container →
      judge.global.enabled judge.container = true →
      (openDev s₀ = (.ok dev, s) → (computeDesired openDev info judge.global s₀).1.rules =
        if (collectContainerRules dev mounts judge s).1.deviceErrs = [] then
          (collectContainerRules dev mounts judge s).1.granted
        else []) ∧
      (∀ e s', openDev s₀ = (.error e, s') →
        (computeDesired openDev info judge.global s₀).1.rules = []) := by
  obtain ⟨devices, hgranted, hsub, hmem⟩ := collectContainerRules_devices dev judge mounts s
  refine ⟨⟨devices, hgranted, hsub.nodup (eraseDups_nodup _), hsub, hmem⟩, ?_, ?_⟩
  · intro hdev mounts' hperm rule
    obtain ⟨devices', hgranted', -, hmem'⟩ := collectContainerRules_devices dev judge mounts' s
    have hsame : ∀ id, id ∈ devices ↔ id ∈ devices' := fun id => by
      rw [hmem, hmem']
      exact Grants.of_mem_iff fun _ => (foundCandidates_perm hdev hperm).mem_iff
    rw [hgranted, hgranted', List.mem_map, List.mem_map]
    simp only [hsame]
  · rintro openDev info s₀ rfl hparse henabled
    rw [computeDesired_rules hparse henabled]
    refine ⟨fun hopen => by rw [collectDevices_of_ok hopen], fun e s' hopen => ?_⟩
    rw [collectDevices_of_error hopen, ite_self]

end Processor
end Sda
