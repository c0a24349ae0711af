import DeviceAccess.Processor.Votes

/-!
# Labels only narrow

A policy that denies more names and authorizes fewer grants no device more. Two collections need not
find the same candidates: a device without a canonical name is an error if its other names would
grant it, and a candidate if not. But what the names turned out to be is the same for every policy
(`Sight`), and so are all calls that were made.
-/

namespace Sda
namespace Processor

open Sda.Filter Lexpath Policy Docker

/-! ## What is seen -/

/-- A name, and what it turned out to be. -/
structure Sight where
  aliasPath : Path
  named : Named

/-- The candidate that the policy makes of it. -/
def Sight.candidate (judge : Judge) (sight : Sight) : Option Candidate :=
  match sight.named with
  | .device resolved canonical id _ =>
    some ⟨sight.aliasPath, resolved, canonical, .device id,
      evaluateIdentity sight.aliasPath resolved canonical judge⟩
  | .unnamed resolved id cause =>
    if (evaluateIdentity sight.aliasPath resolved resolved judge).granted then none
    else some (evaluateUnnamed sight.aliasPath resolved id cause judge).candidate
  | _ => none

/-- The candidates of all that was seen. -/
def judgeAll (judge : Judge) (sights : List Sight) : List Candidate :=
  sights.filterMap (Sight.candidate judge)

section Dev

variable {σ ν : Type} (dev : DevFs σ ν)

/-- What a visit sees, the number of entries, whether the walk goes on, and the state afterwards do
not depend on the policy. -/
theorem visitEntry_sights (source base : Path) (entries : Nat) (visit : Visit) (s : σ) :
    ∃ sights entries' goes s', ∀ judge result, ∃ result',
      visitEntry dev source base judge ⟨result, entries⟩ visit s =
        ((⟨result', entries'⟩, goes), s') ∧
      result'.candidates = result.candidates ++ judgeAll judge sights := by
  obtain ⟨path, isDir, error⟩ := visit
  unfold visitEntry
  dsimp only
  cases error with
  | some error =>
    exact ⟨[], entries, true, s, fun judge result => ⟨_, rfl, (List.append_nil _).symm⟩⟩
  | none =>
    by_cases hbase : path = base
    · simp only [if_pos hbase]
      exact ⟨[], entries, true, s, fun judge result => ⟨_, rfl, (List.append_nil _).symm⟩⟩
    by_cases hmax : maxMountEntries < entries + 1
    · simp only [if_neg hbase, if_pos hmax]
      exact ⟨[], entries + 1, false, s, fun judge result => ⟨_, rfl, (List.append_nil _).symm⟩⟩
    cases isDir with
    | true =>
      simp only [if_neg hbase, if_neg hmax]
      exact ⟨[], entries + 1, true, s, fun judge result => ⟨_, rfl, (List.append_nil _).symm⟩⟩
    | false =>
      simp only [if_neg hbase, if_neg hmax]
      generalize source ++ _ = aliasPath
      obtain ⟨named, s', heval⟩ := evaluateCandidate_named dev aliasPath s
      refine ⟨[⟨aliasPath, named⟩], entries + 1, true, s', fun judge result => ?_⟩
      rw [heval judge]
      cases named with
      | skipped reason => exact ⟨_, rfl, (List.append_nil _).symm⟩
      | failed error => exact ⟨_, rfl, (List.append_nil _).symm⟩
      | plain resolved kind no_device =>
        cases kind with
        | device id => exact absurd rfl (no_device id)
        | dir => exact ⟨_, rfl, (List.append_nil _).symm⟩
        | other => exact ⟨_, rfl, (List.append_nil _).symm⟩
      | device resolved canonical id nonempty => exact ⟨_, rfl, rfl⟩
      | unnamed resolved id cause =>
        unfold judgeAll Sight.candidate Named.evaluate evaluateUnnamed
        dsimp only
        by_cases hgranted : (evaluateIdentity aliasPath resolved resolved judge).granted = true
        · simp only [if_pos hgranted]
          exact ⟨_, rfl, by simp [MountResult.addError, hgranted]⟩
        · simp only [if_neg hgranted]
          exact ⟨_, rfl, by simp [MountResult.addCandidate, hgranted]⟩

theorem visitAll_sights (source base : Path) (visits : List Visit) (entries : Nat) (s : σ) :
    ∃ sights s', ∀ judge result, (visitAll dev source base judge visits
      ⟨result, entries⟩ s).2 = s' ∧
      (visitAll dev source base judge visits ⟨result, entries⟩ s).1.candidates =
        result.candidates ++ judgeAll judge sights := by
  induction visits generalizing entries s with
  | nil => exact ⟨[], s, fun judge result => ⟨rfl, (List.append_nil _).symm⟩⟩
  | cons visit visits ih =>
    obtain ⟨sights, entries', goes, s₁, hvisit⟩ := visitEntry_sights dev source base entries visit s
    cases goes with
    | false =>
      refine ⟨sights, s₁, fun judge result => ?_⟩
      obtain ⟨result', heq, hresult⟩ := hvisit judge result
      rw [visitAll, heq]
      exact ⟨rfl, hresult⟩
    | true =>
      obtain ⟨more, s', hrest⟩ := ih entries' s₁
      refine ⟨sights ++ more, s', fun judge result => ?_⟩
      obtain ⟨result', heq, hresult⟩ := hvisit judge result
      obtain ⟨hstate, hcandidates⟩ := hrest judge result'
      rw [visitAll, heq]
      refine ⟨hstate, hcandidates.trans ?_⟩
      rw [hresult, judgeAll, judgeAll, judgeAll, List.filterMap_append, List.append_assoc]

theorem collectMountRules_sights (path : Path) (s : σ) :
    ∃ sights s', ∀ judge, (collectMountRules dev path judge s).2 = s' ∧
      (collectMountRules dev path judge s).1.candidates = judgeAll judge sights := by
  obtain ⟨named, s₁, heval⟩ := evaluateCandidate_named dev path s
  unfold collectMountRules
  cases named with
  | skipped reason =>
    refine ⟨[], s₁, fun judge => ?_⟩
    rw [heval judge]
    cases reason <;> exact ⟨rfl, rfl⟩
  | failed error =>
    refine ⟨[], s₁, fun judge => ?_⟩
    rw [heval judge]
    exact ⟨rfl, rfl⟩
  | plain resolved kind no_device =>
    cases kind with
    | device id => exact absurd rfl (no_device id)
    | dir =>
      obtain ⟨sights, s', hwalk⟩ := visitAll_sights dev path (join [dev.root, relToDev resolved])
        (dev.walk (join [dev.root, relToDev resolved]) s₁).1 0
        (dev.walk (join [dev.root, relToDev resolved]) s₁).2
      refine ⟨sights, s', fun judge => ?_⟩
      rw [heval judge]
      exact hwalk judge MountResult.default
    | other =>
      refine ⟨[], s₁, fun judge => ?_⟩
      rw [heval judge]
      exact ⟨rfl, rfl⟩
  | device resolved canonical id nonempty =>
    refine ⟨[⟨path, .device resolved canonical id nonempty⟩], s₁, fun judge => ?_⟩
    rw [heval judge]
    exact ⟨rfl, rfl⟩
  | unnamed resolved id cause =>
    refine ⟨[⟨path, .unnamed resolved id cause⟩], s₁, fun judge => ?_⟩
    rw [heval judge, judgeAll, List.filterMap_cons, Sight.candidate]
    unfold Named.evaluate evaluateUnnamed
    dsimp only
    by_cases hgranted : (evaluateIdentity path resolved resolved judge).granted = true
    · simp only [hgranted]
      exact ⟨rfl, rfl⟩
    · simp only [hgranted]
      exact ⟨rfl, rfl⟩

theorem mountResults_sights (mounts : List MountPoint) (s : σ) : ∃ sights, ∀ judge,
    (mountResults dev judge mounts s).flatMap (·.candidates) = judgeAll judge sights := by
  induction mounts generalizing s with
  | nil => exact ⟨[], fun judge => rfl⟩
  | cons mount mounts ih =>
    obtain ⟨sights, s', hmount⟩ := collectMountRules_sights dev mount.source s
    obtain ⟨more, hrest⟩ := ih s'
    refine ⟨sights ++ more, fun judge => ?_⟩
    obtain ⟨hstate, hcandidates⟩ := hmount judge
    rw [mountResults, List.flatMap_cons, hcandidates, hstate, hrest judge, judgeAll,
      judgeAll, judgeAll, List.filterMap_append]

/-- The candidates are those of what was seen, which is the same for every policy. -/
theorem foundCandidates_sights (mounts : List MountPoint) (s : σ) :
    ∃ sights, ∀ judge, foundCandidates dev judge mounts s = judgeAll judge sights :=
  mountResults_sights dev _ s

end Dev

/-! ## Narrower policies -/

/-- Denies no name less and authorizes no name more. -/
structure Narrower (narrow wide : Judge) : Prop where
  denies : ∀ name, wide.Denies name → narrow.Denies name
  authorizes : ∀ name, narrow.Authorizes name → wide.Authorizes name

/-- The same names of the same device. -/
def Candidate.Same (candidate other : Candidate) : Prop :=
  candidate = { other with decision := candidate.decision }

section Narrow

variable {narrow wide : Judge} {sight : Sight} {candidate : Candidate}

private theorem evaluateIdentity_granted {aliasPath resolved canonical : Path} {judge : Judge} :
    (evaluateIdentity aliasPath resolved canonical judge).granted = true ↔
      (∀ name ∈ [aliasPath, resolved, canonical], ¬judge.Denies name) ∧
        judge.Authorizes canonical ∧ judge.Authorizes resolved := by
  rw [Decision.granted, Bool.and_eq_true, Option.isNone_iff_eq_none, ← evaluateIdentity_denied]
  exact and_congr_right evaluateIdentity_authorized

theorem Narrower.granted (h : Narrower narrow wide) {aliasPath resolved canonical : Path}
    (hgranted : (evaluateIdentity aliasPath resolved canonical narrow).granted = true) :
    (evaluateIdentity aliasPath resolved canonical wide).granted = true := by
  obtain ⟨hdenied, hcanonical, hresolved⟩ := evaluateIdentity_granted.mp hgranted
  exact evaluateIdentity_granted.mpr ⟨fun name hn hd => hdenied name hn (h.denies name hd),
    h.authorizes _ hcanonical, h.authorizes _ hresolved⟩

/-- A device with a canonical name is a candidate for every policy. -/
theorem Sight.candidate_named (hs : sight.candidate narrow = some candidate)
    (hc : candidate.canonical ≠ []) :
    ∃ other, sight.candidate wide = some other ∧ other.Same candidate := by
  obtain ⟨aliasPath, named⟩ := sight
  unfold Sight.candidate at hs ⊢
  cases named with
  | skipped => cases hs
  | failed => cases hs
  | plain => cases hs
  | device resolved canonical id nonempty =>
    cases hs
    exact ⟨_, rfl, rfl⟩
  | unnamed resolved id cause =>
    dsimp only at hs
    split at hs
    next => cases hs
    next =>
      cases hs
      exact absurd rfl hc

/-- A candidate of the wider policy is one of the narrower. -/
theorem Narrower.keeps (h : Narrower narrow wide) (hs : sight.candidate wide = some candidate) :
    ∃ other, sight.candidate narrow = some other ∧ other.Same candidate := by
  obtain ⟨aliasPath, named⟩ := sight
  unfold Sight.candidate at hs ⊢
  cases named with
  | skipped => cases hs
  | failed => cases hs
  | plain => cases hs
  | device resolved canonical id nonempty =>
    cases hs
    exact ⟨_, rfl, rfl⟩
  | unnamed resolved id cause =>
    dsimp only at hs ⊢
    split at hs
    next => cases hs
    next hno =>
      cases hs
      rw [if_neg fun hgranted => hno (h.granted hgranted)]
      exact ⟨_, rfl, rfl⟩

/-- Nothing is granted that the wider policy does not grant. -/
theorem Narrower.grants (h : Narrower narrow wide) {sights : List Sight} {id : DeviceId}
    (hgrants : Grants narrow (judgeAll narrow sights) id) :
    Grants wide (judgeAll wide sights) id := by
  obtain ⟨⟨candidate, hin, hkind, hcanonical, hauthorized⟩, hdenied⟩ := hgrants
  refine ⟨?_, fun other hother hkind' name hname hd => ?_⟩
  · obtain ⟨sight, hsight, hs⟩ := List.mem_filterMap.mp hin
    obtain ⟨other, ho, hsame⟩ := @Sight.candidate_named narrow wide sight candidate hs hcanonical
    refine ⟨other, List.mem_filterMap.mpr ⟨sight, hsight, ho⟩, ?_⟩
    rw [hsame]
    exact ⟨hkind, hcanonical, h.authorizes _ hauthorized.1, h.authorizes _ hauthorized.2⟩
  · obtain ⟨sight, hsight, hs⟩ := List.mem_filterMap.mp hother
    obtain ⟨candidate', hc, hsame⟩ := h.keeps hs
    have hkind : candidate'.kind = .device id := by rw [hsame]; exact hkind'
    have hnames : candidate'.names = other.names := by rw [hsame]; rfl
    exact hdenied candidate' (List.mem_filterMap.mpr ⟨sight, hsight, hc⟩) hkind name
      (hnames ▸ hname)
      (h.denies name hd)

theorem Narrower.collect (h : Narrower narrow wide) {σ ν : Type} (dev : DevFs σ ν)
    (mounts : List MountPoint) (s : σ) : (collectContainerRules dev mounts narrow s).1.granted ⊆
      (collectContainerRules dev mounts wide s).1.granted := by
  obtain ⟨devices, hgranted, -, hmem⟩ := collectContainerRules_devices dev narrow mounts s
  obtain ⟨devices', hgranted', -, hmem'⟩ := collectContainerRules_devices dev wide mounts s
  obtain ⟨sights, hsights⟩ := foundCandidates_sights dev mounts s
  rw [hgranted, hgranted']
  refine List.map_subset _ fun id hid => ?_
  rw [hmem, hsights] at hid
  rw [hmem', hsights]
  exact h.grants hid

end Narrow

/-! ## Labels -/

/-- Every deny glob is kept, and the allow list is the same, or not empty and matched only by what
the first allows. -/
structure Narrows (first second : Container) : Prop where
  deny : ∀ glob ∈ first.deviceDeny.getD [], glob ∈ second.deviceDeny.getD []
  allow : second.deviceAllow.getD [] = first.deviceAllow.getD [] ∨
    second.deviceAllow.getD [] ≠ [] ∧
      ∀ name, Matched second.deviceAllow name → Allowed first.deviceAllow name

theorem Narrows.narrower {first second : Container} (h : Narrows first second) (policy : Global) :
    Narrower ⟨policy, second⟩ ⟨policy, first⟩ where
  denies := by
    rintro name (hd | ⟨glob, hglob, hmatch⟩)
    · exact .inl hd
    · exact .inr ⟨glob, h.deny glob hglob, hmatch⟩
  authorizes := by
    rintro name ⟨hglobal, hcontainer⟩
    refine ⟨hglobal, ?_⟩
    rcases h.allow with hsame | ⟨hsome, hallow⟩
    · unfold Allowed Matched at hcontainer ⊢
      rwa [← hsame]
    · exact hallow name (hcontainer.resolve_left hsome)

theorem Narrows.default (container : Container) : Narrows .default container where
  deny := nofun
  allow := by
    by_cases h : container.deviceAllow.getD [] = []
    · exact .inl h
    · exact .inr ⟨h, fun _ _ => .inl rfl⟩

/-! ## The result -/

/-- **Labels only narrow.** What a container is given, whatever its labels, is granted without
labels as well, and a container that narrows another is granted no more than the other, for any
answers of `/dev`. -/
theorem labels_only_narrow {σ ν : Type} (policy : Global) :
    (∀ (openDev : Action σ SysError (DevFs σ ν)) (info : ContainerInspect) (s₀ : σ),
      ∀ rule ∈ (computeDesired openDev info policy s₀).1.rules, ∃ dev s, openDev s₀ = (.ok dev, s) ∧
        rule ∈ (collectContainerRules dev info.mounts ⟨policy, .default⟩ s).1.granted) ∧
    ∀ (dev : DevFs σ ν) (mounts : List MountPoint) (s : σ) (first second : Container),
      Narrows first second →
      (collectContainerRules dev mounts ⟨policy, second⟩ s).1.granted ⊆
        (collectContainerRules dev mounts ⟨policy, first⟩ s).1.granted := by
  refine ⟨fun openDev info s₀ rule hrule => ?_, fun dev mounts s first second h => ?_⟩
  · obtain ⟨container, dev, s, -, hopen, -, hgranted⟩ := computeDesired_granted hrule
    exact ⟨dev, s, hopen, ((Narrows.default container).narrower policy).collect dev _ s hgranted⟩
  · exact (h.narrower policy).collect dev mounts s

/-- A `/dev` with one device. -/
def tunDev : DevFs Unit Unit where
  root := devRoot
  openBeneath path s := if path = "net/tun".toList then (.ok (), s) else
    (.error ⟨"openat2", .noent⟩, s)
  stat _ s := (.ok (.device ⟨.char, 10, 200⟩), s)
  resolved _ s := ("/dev/net/tun".toList, s)
  readLink _ s := (.error ⟨"readlinkat", .inval⟩, s)
  readUevent _ s := (.ok ("DEVNAME=net/tun".toList.map fun c => BitVec.ofNat 8 c.toNat), s)
  walk _ s := ([], s)

/-- A label that denies another device. -/
def noSda : Container :=
  ⟨none, none, some ["/dev/sda".toList], validateGlobs_none, by decide +kernel⟩

theorem labels_only_narrow_tunDev :
    grantRule ⟨.char, 10, 200⟩ ∈ (collectContainerRules tunDev [⟨"bind", "/dev/net/tun".toList⟩]
      ⟨⟨.all, none, none, rfl, rfl⟩, noSda⟩ ()).1.granted ∧
    grantRule ⟨.char, 10, 200⟩ ∈ (collectContainerRules tunDev [⟨"bind", "/dev/net/tun".toList⟩]
      ⟨⟨.all, none, none, rfl, rfl⟩, .default⟩ ()).1.granted :=
  have hgranted : grantRule ⟨.char, 10, 200⟩ ∈ (collectContainerRules tunDev
      [⟨"bind", "/dev/net/tun".toList⟩] ⟨⟨.all, none, none, rfl, rfl⟩, noSda⟩ ()).1.granted := by
    decide +kernel
  ⟨hgranted, (labels_only_narrow ⟨.all, none, none, rfl, rfl⟩).2 tunDev
    [⟨"bind", "/dev/net/tun".toList⟩] ()
    .default noSda ⟨nofun, .inl rfl⟩ hgranted⟩

end Processor
end Sda
